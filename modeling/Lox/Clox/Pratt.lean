import Lox.Clox.Compiler

/-!
# The syntax trees behind the single pass

`compiler.c` never builds a tree, but on a source without errors it walks one.  `Expr` and
`Stmt` are these trees (with the fused calls `e.name(args)` and `super.name(args)` as nodes of
their own), and the functions of this file are the token side of `compiler.c` alone: the same
Pratt parser and the same statement parser, reading the same tokens in the same order, but
returning the tree and giving up (`none`) at the first syntax error.
-/

namespace Lox.Clox

/-- Unary operators. -/
inductive UnaryOp where
  | not | negate
  deriving DecidableEq, Repr

/-- Binary operators. -/
inductive BinaryOp where
  | bangEqual | equalEqual | greater | greaterEqual | less | lessEqual
  | plus | minus | star | slash
  deriving DecidableEq, Repr

/-- Expressions. -/
inductive Expr (N : Type) where
  | nil | true_ | false_
  | number (n : N)
  | string (s : Name)
  | grouping (e : Expr N)
  | unary (op : UnaryOp) (right : Expr N)
  | binary (op : BinaryOp) (left right : Expr N)
  | and_ (left right : Expr N)
  | or_ (left right : Expr N)
  | variable_ (name : Name)
  | assign (name : Name) (value : Expr N)
  | call (callee : Expr N) (args : List (Expr N))
  | get (object : Expr N) (name : Name)
  | set (object : Expr N) (name : Name) (value : Expr N)
  | invoke (object : Expr N) (name : Name) (args : List (Expr N))
  | this_
  | super_ (method : Name)
  | superInvoke (method : Name) (args : List (Expr N))

/-- The first clause of a `for`. -/
inductive ForInit (N : Type) where
  | empty
  | var (name : Name) (init : Option (Expr N))
  | expression (e : Expr N)

/-- Statements and declarations; the methods of a class are `function` statements. -/
inductive Stmt (N : Type) where
  | expression (e : Expr N)
  | print (e : Expr N)
  | var (name : Name) (init : Option (Expr N))
  | block (body : List (Stmt N))
  | if_ (condition : Expr N) (thenBranch : Stmt N) (elseBranch : Option (Stmt N))
  | while_ (condition : Expr N) (body : Stmt N)
  | for_ (init : ForInit N) (condition increment : Option (Expr N)) (body : Stmt N)
  | function (name : Name) (params : List Name) (body : List (Stmt N))
  | return_ (value : Option (Expr N))
  | class_ (name : Name) (superclass : Option Name) (methods : List (Stmt N))

/-- The part of the parser that decides how to go on: two tokens and the scanner. -/
structure Cursor where
  current : Token
  previous : Token
  scanner : Scanner

def Parser.cursor (p : Parser) : Cursor := ⟨p.current, p.previous, p.scanner⟩

namespace Pratt

/-- `advance`, unless the next token is an error token. -/
def advance (c : Cursor) : Option Cursor :=
  let (t, sc) := c.scanner.scanToken
  if t.type = .error then none else some ⟨t, c.current, sc⟩

def check (type : TokenType) (c : Cursor) : Bool := c.current.type = type

/-- `consume`. -/
def consume (type : TokenType) (c : Cursor) : Option Cursor :=
  if check type c then advance c else none

variable {N : Type}

/-! ### Expressions -/

/-- A parser for expressions at a given precedence. -/
abbrev PrecedenceParser (N : Type) := Precedence → Cursor → Option (Expr N × Cursor)

def argumentLoop (expression : Cursor → Option (Expr N × Cursor)) :
    ℕ → Cursor → Option (List (Expr N) × Cursor)
  | 0, _ => none
  | n + 1, c => do
    let (e, c) ← expression c
    if check .comma c then
      let c ← advance c
      let (es, c) ← argumentLoop expression n c
      return (e :: es, c)
    else return ([e], c)

def argumentList (expression : Cursor → Option (Expr N × Cursor)) (n : ℕ) (c : Cursor) :
    Option (List (Expr N) × Cursor) := do
  let (es, c) ← if check .rightParen c then some ([], c) else argumentLoop expression n c
  let c ← consume .rightParen c
  return (es, c)

/-- The operator a token stands for between two operands. -/
def binaryOp : TokenType → Option BinaryOp
  | .bangEqual => some .bangEqual
  | .equalEqual => some .equalEqual
  | .greater => some .greater
  | .greaterEqual => some .greaterEqual
  | .less => some .less
  | .lessEqual => some .lessEqual
  | .plus => some .plus
  | .minus => some .minus
  | .star => some .star
  | .slash => some .slash
  | _ => none

/-- The operator a token stands for before an operand. -/
def unaryOp : TokenType → Option UnaryOp
  | .bang => some .not
  | .minus => some .negate
  | _ => none

/-- A variable, or an assignment to it where one is allowed. -/
def namedVariable (expression : Cursor → Option (Expr N × Cursor)) (name : Token)
    (canAssign : Bool) (c : Cursor) : Option (Expr N × Cursor) :=
  if canAssign && check .equal c then do
    let c ← advance c
    let (value, c) ← expression c
    return (.assign name.lexeme value, c)
  else some (.variable_ name.lexeme, c)

def super_ (expression : Cursor → Option (Expr N × Cursor)) (n : ℕ) (c : Cursor) :
    Option (Expr N × Cursor) := do
  let c ← consume .dot c
  let c ← consume .identifier c
  let name := c.previous.lexeme
  if check .leftParen c then
    let c ← advance c
    let (args, c) ← argumentList expression n c
    return (.superInvoke name args, c)
  else return (.super_ name, c)

/-- The expression a prefix rule parses, after its token. -/
def prefixExpr [Double N] (parsePrecedence : PrecedenceParser N) (n : ℕ) (rule : ParseFn)
    (canAssign : Bool) (c : Cursor) : Option (Expr N × Cursor) :=
  let expression := parsePrecedence .assignment
  match rule with
  | .grouping => do
      let (e, c) ← expression c
      let c ← consume .rightParen c
      return (.grouping e, c)
  | .unary => do
      let op ← unaryOp c.previous.type
      let (e, c) ← parsePrecedence .unary c
      return (.unary op e, c)
  | .variable_ => namedVariable expression c.previous canAssign c
  | .string => some (.string (stringContents c.previous), c)
  | .number => some (.number (Double.strtod c.previous.start), c)
  | .literal =>
      match c.previous.type with
      | .false_ => some (.false_, c)
      | .nil_ => some (.nil, c)
      | .true_ => some (.true_, c)
      | _ => none
  | .super_ => super_ expression n c
  | .this_ => some (.this_, c)
  | _ => none

def dot (expression : Cursor → Option (Expr N × Cursor)) (n : ℕ) (left : Expr N)
    (canAssign : Bool) (c : Cursor) : Option (Expr N × Cursor) := do
  let c ← consume .identifier c
  let name := c.previous.lexeme
  if canAssign && check .equal c then
    let c ← advance c
    let (value, c) ← expression c
    return (.set left name value, c)
  else if check .leftParen c then
    let c ← advance c
    let (args, c) ← argumentList expression n c
    return (.invoke left name args, c)
  else return (.get left name, c)

/-- The expression an infix rule parses, after its token. -/
def infixExpr (parsePrecedence : PrecedenceParser N) (n : ℕ) (rule : ParseFn) (left : Expr N)
    (canAssign : Bool) (c : Cursor) : Option (Expr N × Cursor) :=
  let expression := parsePrecedence .assignment
  match rule with
  | .binary => do
      let op ← binaryOp c.previous.type
      let (e, c) ← parsePrecedence (getRule c.previous.type).precedence.next c
      return (.binary op left e, c)
  | .call => do
      let (args, c) ← argumentList expression n c
      return (.call left args, c)
  | .dot => dot expression n left canAssign c
  | .and_ => do
      let (e, c) ← parsePrecedence .and c
      return (.and_ left e, c)
  | .or_ => do
      let (e, c) ← parsePrecedence .or c
      return (.or_ left e, c)
  | _ => none

def infixLoop (parsePrecedence : PrecedenceParser N) :
    ℕ → Precedence → Bool → Expr N → Cursor → Option (Expr N × Cursor)
  | 0, _, _, _, _ => none
  | n + 1, precedence, canAssign, left, c =>
    if precedence.toNat ≤ (getRule c.current.type).precedence.toNat then do
      let c ← advance c
      let rule ← (getRule c.previous.type).infixRule
      let (e, c) ← infixExpr parsePrecedence n rule left canAssign c
      infixLoop parsePrecedence n precedence canAssign e c
    else some (left, c)

def parsePrecedence [Double N] : ℕ → PrecedenceParser N
  | 0, _, _ => none
  | n + 1, precedence, c => do
    let c ← advance c
    let rule ← (getRule c.previous.type).prefixRule
    let canAssign : Bool := precedence.toNat ≤ Precedence.assignment.toNat
    let (e, c) ← prefixExpr (parsePrecedence n) n rule canAssign c
    let (e, c) ← infixLoop (parsePrecedence n) n precedence canAssign e c
    if canAssign && check .equal c then none else return (e, c)

def expression [Double N] (n : ℕ) (c : Cursor) : Option (Expr N × Cursor) :=
  parsePrecedence n .assignment c

/-! ### Statements -/

def blockLoop (declaration : Cursor → Option (Stmt N × Cursor)) :
    ℕ → Cursor → Option (List (Stmt N) × Cursor)
  | 0, _ => none
  | n + 1, c =>
    if check .rightBrace c || check .eof c then some ([], c)
    else do
      let (s, c) ← declaration c
      let (ss, c) ← blockLoop declaration n c
      return (s :: ss, c)

def block (declaration : Cursor → Option (Stmt N × Cursor)) (n : ℕ) (c : Cursor) :
    Option (List (Stmt N) × Cursor) := do
  let (ss, c) ← blockLoop declaration n c
  let c ← consume .rightBrace c
  return (ss, c)

def parameterLoop : ℕ → Cursor → Option (List Name × Cursor)
  | 0, _ => none
  | n + 1, c => do
    let c ← consume .identifier c
    let name := c.previous.lexeme
    if check .comma c then
      let c ← advance c
      let (names, c) ← parameterLoop n c
      return (name :: names, c)
    else return ([name], c)

def parameters (n : ℕ) (c : Cursor) : Option (List Name × Cursor) :=
  if check .rightParen c then some ([], c) else parameterLoop n c

/-- Parameters and body of a function, after its name. -/
def function (declaration : Cursor → Option (Stmt N × Cursor)) (n : ℕ) (c : Cursor) :
    Option ((List Name × List (Stmt N)) × Cursor) := do
  let c ← consume .leftParen c
  let (params, c) ← parameters n c
  let c ← consume .rightParen c
  let c ← consume .leftBrace c
  let (body, c) ← block declaration n c
  return ((params, body), c)

/-- A named function, its name still to be read. -/
def namedFunction (declaration : Cursor → Option (Stmt N × Cursor)) (n : ℕ) (c : Cursor) :
    Option (Stmt N × Cursor) := do
  let c ← consume .identifier c
  let name := c.previous.lexeme
  let ((params, body), c) ← function declaration n c
  return (.function name params body, c)

def methodLoop (declaration : Cursor → Option (Stmt N × Cursor)) :
    ℕ → Cursor → Option (List (Stmt N) × Cursor)
  | 0, _ => none
  | n + 1, c =>
    if check .rightBrace c || check .eof c then some ([], c)
    else do
      let (m, c) ← namedFunction declaration n c
      let (ms, c) ← methodLoop declaration n c
      return (m :: ms, c)

/-- `< Name` after a class name, if it is there. -/
def superclassClause (c : Cursor) : Option (Option Name × Cursor) :=
  if check .less c then do
    let c ← advance c
    let c ← consume .identifier c
    return (some c.previous.lexeme, c)
  else some (none, c)

def classDeclaration (declaration : Cursor → Option (Stmt N × Cursor)) (n : ℕ) (c : Cursor) :
    Option (Stmt N × Cursor) := do
  let c ← consume .identifier c
  let name := c.previous.lexeme
  let (superclass, c) ← superclassClause c
  let c ← consume .leftBrace c
  let (methods, c) ← methodLoop declaration n c
  let c ← consume .rightBrace c
  return (.class_ name superclass methods, c)

/-- Name and initializer of a variable. -/
def varDeclaration (expression : Cursor → Option (Expr N × Cursor)) (c : Cursor) :
    Option ((Name × Option (Expr N)) × Cursor) := do
  let c ← consume .identifier c
  let name := c.previous.lexeme
  let (init, c) ←
    if check .equal c then do
      let c ← advance c
      let (e, c) ← expression c
      some (some e, c)
    else some (none, c)
  let c ← consume .semicolon c
  return ((name, init), c)

def expressionStatement (expression : Cursor → Option (Expr N × Cursor)) (c : Cursor) :
    Option (Expr N × Cursor) := do
  let (e, c) ← expression c
  let c ← consume .semicolon c
  return (e, c)

def forInitializer (expression : Cursor → Option (Expr N × Cursor)) (c : Cursor) :
    Option (ForInit N × Cursor) :=
  if check .semicolon c then do
    let c ← advance c
    return (.empty, c)
  else if check .var_ c then do
    let c ← advance c
    let ((name, init), c) ← varDeclaration expression c
    return (.var name init, c)
  else do
    let (e, c) ← expressionStatement expression c
    return (.expression e, c)

/-- A clause of a `for`: empty if `close` is next, else an expression and `close`. -/
def forClause (expression : Cursor → Option (Expr N × Cursor)) (close : TokenType)
    (c : Cursor) : Option (Option (Expr N) × Cursor) :=
  if check close c then do
    let c ← advance c
    return (none, c)
  else do
    let (e, c) ← expression c
    let c ← consume close c
    return (some e, c)

def forStatement (expression : Cursor → Option (Expr N × Cursor))
    (statement : Cursor → Option (Stmt N × Cursor)) (c : Cursor) : Option (Stmt N × Cursor) := do
  let c ← consume .leftParen c
  let (init, c) ← forInitializer expression c
  let (condition, c) ← forClause expression .semicolon c
  let (increment, c) ← forClause expression .rightParen c
  let (body, c) ← statement c
  return (.for_ init condition increment body, c)

def ifStatement (expression : Cursor → Option (Expr N × Cursor))
    (statement : Cursor → Option (Stmt N × Cursor)) (c : Cursor) : Option (Stmt N × Cursor) := do
  let c ← consume .leftParen c
  let (condition, c) ← expression c
  let c ← consume .rightParen c
  let (thenBranch, c) ← statement c
  if check .else_ c then
    let c ← advance c
    let (elseBranch, c) ← statement c
    return (.if_ condition thenBranch (some elseBranch), c)
  else return (.if_ condition thenBranch none, c)

def returnStatement (expression : Cursor → Option (Expr N × Cursor)) (c : Cursor) :
    Option (Stmt N × Cursor) := do
  let (value, c) ← forClause expression .semicolon c
  return (.return_ value, c)

def whileStatement (expression : Cursor → Option (Expr N × Cursor))
    (statement : Cursor → Option (Stmt N × Cursor)) (c : Cursor) : Option (Stmt N × Cursor) := do
  let c ← consume .leftParen c
  let (condition, c) ← expression c
  let c ← consume .rightParen c
  let (body, c) ← statement c
  return (.while_ condition body, c)

def statementBody [Double N] (declaration statement : Cursor → Option (Stmt N × Cursor)) (n : ℕ)
    (c : Cursor) : Option (Stmt N × Cursor) :=
  let expression := expression n
  if check .print_ c then do
    let c ← advance c
    let (e, c) ← expressionStatement expression c
    return (.print e, c)
  else if check .leftBrace c then do
    let c ← advance c
    let (ss, c) ← block declaration n c
    return (.block ss, c)
  else if check .if_ c then do
    let c ← advance c
    ifStatement expression statement c
  else if check .while_ c then do
    let c ← advance c
    whileStatement expression statement c
  else if check .for_ c then do
    let c ← advance c
    forStatement expression statement c
  else if check .return_ c then do
    let c ← advance c
    returnStatement expression c
  else do
    let (e, c) ← expressionStatement expression c
    return (.expression e, c)

def declarationBody [Double N] (declaration statement : Cursor → Option (Stmt N × Cursor)) (n : ℕ)
    (c : Cursor) : Option (Stmt N × Cursor) :=
  if check .var_ c then do
    let c ← advance c
    let ((name, init), c) ← varDeclaration (expression n) c
    return (.var name init, c)
  else if check .fun_ c then do
    let c ← advance c
    namedFunction declaration n c
  else if check .class_ c then do
    let c ← advance c
    classDeclaration declaration n c
  else statement c

mutual

def statement [Double N] : ℕ → Cursor → Option (Stmt N × Cursor)
  | 0, _ => none
  | n + 1, c => statementBody (declaration n) (statement n) n c

def declaration [Double N] : ℕ → Cursor → Option (Stmt N × Cursor)
  | 0, _ => none
  | n + 1, c => declarationBody (declaration n) (statement n) n c

end

def programLoop [Double N] : ℕ → Cursor → Option (List (Stmt N))
  | 0, _ => none
  | n + 1, c =>
    if check .eof c then do
      let _ ← advance c
      return []
    else do
      let (s, c) ← declaration n c
      let ss ← programLoop n c
      return s :: ss

/-- The statements of a source, as the Pratt parser groups it. -/
def program [Double N] (n : ℕ) (scanner : Scanner) : Option (List (Stmt N)) := do
  let c ← advance ⟨scanner.eofToken, scanner.eofToken, scanner⟩
  programLoop n c

end Pratt

end Lox.Clox
