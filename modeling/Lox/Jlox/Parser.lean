import Lox.Jlox.Ast

/-!
# The parser of jlox

The functions of `Parser.java`.  The tokens before and after `current` are two lists; an error that
is reported is added to `errors`, one that is thrown ends in `thrown`, and `declaration` catches it.
The calls that lead back to `expression`, `statement` and `declaration` and the loops use up fuel;
`parse` gives them enough for the tokens there are.
-/

namespace Lox.Jlox

/-- `Parser`: the tokens before `current`, last one first, and from `current` on; and the errors
reported so far. -/
structure Parser (N : Type) where
  before : List (Token N)
  tokens : List (Token N)
  errors : List (Token N × String)

/-- How a function of the parser ends: it returns, throws a `ParserError`, or does not end (it reads
past the last token, or runs out of fuel). -/
inductive Parsed (N α : Type) where
  | ok (value : α) (p : Parser N)
  | thrown (p : Parser N)
  | stuck

/-- A function of the parser. -/
def Parse (N α : Type) := Parser N → Parsed N α

variable {N α β : Type}

/-- Do one after the other. -/
def Parse.bind (f : Parse N α) (g : α → Parse N β) : Parse N β := fun p =>
  match f p with
  | .ok a p => g a p
  | .thrown p => .thrown p
  | .stuck => .stuck

instance : Monad (Parse N) where
  pure a p := .ok a p
  bind := Parse.bind

namespace Parser

/-! ### Tokens -/

/-- Go no further. -/
def stuck : Parse N α := fun _ => .stuck

/-- `peek`. -/
def peek : Parse N (Token N) := fun p =>
  match p.tokens with
  | [] => .stuck
  | t :: _ => .ok t p

/-- `isAtEnd`. -/
def isAtEnd : Parse N Bool := do
  let t ← peek
  return t.type = .eof

/-- `previous`. -/
def previous : Parse N (Token N) := fun p =>
  match p.before with
  | [] => .stuck
  | t :: _ => .ok t p

/-- `advance`. -/
def advance : Parse N (Token N) := fun p =>
  match p.tokens with
  | [] => .stuck
  | t :: rest =>
    if t.type = .eof then previous p
    else .ok t { p with before := t :: p.before, tokens := rest }

/-- `check`. -/
def check (type : TokenType) : Parse N Bool := do
  let t ← peek
  return t.type ≠ .eof && t.type = type

/-- `match`, with the token that was eaten. -/
def match_ : List TokenType → Parse N (Option (Token N))
  | [] => return none
  | type :: types => do
    if ← check type then return some (← advance)
    else match_ types

/-- `error`. -/
def error (token : Token N) (message : String) : Parse N Unit := fun p =>
  .ok () { p with errors := p.errors ++ [(token, message)] }

/-- `throw error(token, message)`. -/
def throw_ (token : Token N) (message : String) : Parse N α := do
  error token message
  fun p => .thrown p

/-- `consume`. -/
def consume (type : TokenType) (message : String) : Parse N (Token N) := do
  if ← check type then advance
  else throw_ (← peek) message

/-! ### Expressions -/

section Expressions

variable (expression : Parse N (Expr N Unit))

/-- The loop of `finishCall`. -/
def argumentLoop : ℕ → ℕ → Parse N (List (Expr N Unit))
  | 0, _ => stuck
  | n + 1, size => do
    if size ≥ 255 then error (← peek) "Can't have more than 255 arguments."
    let argument ← expression
    match ← match_ [.comma] with
    | some _ => do
      let arguments ← argumentLoop n (size + 1)
      return argument :: arguments
    | none => return [argument]

/-- `finishCall`. -/
def finishCall (n : ℕ) (callee : Expr N Unit) : Parse N (Expr N Unit) := do
  let arguments ←
    if ← check .rightParen then pure []
    else argumentLoop expression n 0
  let paren ← consume .rightParen "Expect ')' after arguments."
  return .call callee paren arguments

/-- `primary`. -/
def primary : Parse N (Expr N Unit) := do
  if (← match_ [.false_]).isSome then return .literal (.bool false)
  else if (← match_ [.true_]).isSome then return .literal (.bool true)
  else if (← match_ [.nil_]).isSome then return .literal .nil
  else
  match ← match_ [.number, .string] with
  | some t => return .literal t.literal
  | none =>
  match ← match_ [.super_] with
  | some keyword => do
    let _ ← consume .dot "Expect '.' after 'super'."
    let method ← consume .identifier "Expect superclass method name."
    return .super_ keyword method ()
  | none =>
  match ← match_ [.this_] with
  | some keyword => return .this_ keyword ()
  | none =>
  match ← match_ [.identifier] with
  | some name => return .variable_ name ()
  | none =>
  if (← match_ [.leftParen]).isSome then
    let expr ← expression
    let _ ← consume .rightParen "Expect ')' after expression."
    return .grouping expr
  else throw_ (← peek) "Expect expression."

/-- The loop of `call`. -/
def callLoop : ℕ → Expr N Unit → Parse N (Expr N Unit)
  | 0, _ => stuck
  | n + 1, expr => do
    if (← match_ [.leftParen]).isSome then
      let expr ← finishCall expression n expr
      callLoop n expr
    else if (← match_ [.dot]).isSome then
      let name ← consume .identifier "Expect property name after '.'."
      callLoop n (.get expr name)
    else return expr

/-- `call`. -/
def call (n : ℕ) : Parse N (Expr N Unit) := do
  let expr ← primary expression
  callLoop expression n expr

/-- `unary`. -/
def unary : ℕ → Parse N (Expr N Unit)
  | 0 => stuck
  | n + 1 => do
    match ← match_ [.bang, .minus] with
    | some operator => do
      let right ← unary n
      return .unary operator right
    | none => call expression n

/-- The loop of a left-associative operator. -/
def operatorLoop (node : Expr N Unit → Token N → Expr N Unit → Expr N Unit)
    (types : List TokenType) (operand : Parse N (Expr N Unit)) :
    ℕ → Expr N Unit → Parse N (Expr N Unit)
  | 0, _ => stuck
  | n + 1, expr => do
    match ← match_ types with
    | some operator => do
      let right ← operand
      operatorLoop node types operand n (node expr operator right)
    | none => return expr

/-- A left-associative operator: an operand, and the loop. -/
def operator (node : Expr N Unit → Token N → Expr N Unit → Expr N Unit)
    (types : List TokenType) (operand : Parse N (Expr N Unit)) (n : ℕ) :
    Parse N (Expr N Unit) := do
  let expr ← operand
  operatorLoop node types operand n expr

/-- `factor`. -/
def factor (n : ℕ) : Parse N (Expr N Unit) :=
  operator .binary [.slash, .star] (unary expression n) n

/-- `term`. -/
def term (n : ℕ) : Parse N (Expr N Unit) :=
  operator .binary [.minus, .plus] (factor expression n) n

/-- `comparison`. -/
def comparison (n : ℕ) : Parse N (Expr N Unit) :=
  operator .binary [.greater, .greaterEqual, .less, .lessEqual] (term expression n) n

/-- `equality`. -/
def equality (n : ℕ) : Parse N (Expr N Unit) :=
  operator .binary [.bangEqual, .equalEqual] (comparison expression n) n

/-- `and`. -/
def and_ (n : ℕ) : Parse N (Expr N Unit) :=
  operator .logical [.and_] (equality expression n) n

/-- `or`. -/
def or_ (n : ℕ) : Parse N (Expr N Unit) :=
  operator .logical [.or_] (and_ expression n) n

/-- `assignment`; `expression` is the call of itself too. -/
def assignment (n : ℕ) : Parse N (Expr N Unit) := do
  let expr ← or_ expression n
  match ← match_ [.equal] with
  | none => return expr
  | some equals => do
    let value ← expression
    match expr with
    | .variable_ name _ => return .assign name value ()
    | .get object name => return .set object name value
    | _ => do
      error equals "Invalid assignment target."
      return expr

end Expressions

/-- `expression`. -/
def expression : ℕ → Parse N (Expr N Unit)
  | 0 => stuck
  | n + 1 => assignment (expression n) n

/-! ### Statements -/

section Statements

variable (expression : Parse N (Expr N Unit)) (statement declaration : Parse N (Stmt N Unit))

/-- The loop of `block`. -/
def blockLoop : ℕ → Parse N (List (Stmt N Unit))
  | 0 => stuck
  | n + 1 => do
    if (← check .rightBrace) || (← isAtEnd) then return []
    else
      let s ← declaration
      let ss ← blockLoop n
      return s :: ss

/-- `block`. -/
def block (n : ℕ) : Parse N (List (Stmt N Unit)) := do
  let statements ← blockLoop declaration n
  let _ ← consume .rightBrace "Exprct '\x7d' after block"
  return statements

/-- The loop for the parameters in `function`. -/
def parameterLoop : ℕ → ℕ → Parse N (List (Token N))
  | 0, _ => stuck
  | n + 1, size => do
    if size ≥ 255 then error (← peek) "Can't have more than 255 parameters."
    let parameter ← consume .identifier "Expect parameter name."
    match ← match_ [.comma] with
    | some _ => do
      let parameters ← parameterLoop n (size + 1)
      return parameter :: parameters
    | none => return [parameter]

/-- `function`. -/
def function (kind : String) (n : ℕ) : Parse N (Stmt N Unit) := do
  let name ← consume .identifier s!"Expect {kind} name."
  let _ ← consume .leftParen s!"Expect '(' after {kind} name."
  let parameters ←
    if ← check .rightParen then pure []
    else parameterLoop n 0
  let _ ← consume .rightParen "Expect ')' after parameters."
  let _ ← consume .leftBrace s!"Expect '\x7b' before {kind} body."
  let body ← block declaration n
  return .function name parameters body

/-- The loop for the methods in `classDeclaration`. -/
def methodLoop : ℕ → Parse N (List (Stmt N Unit))
  | 0 => stuck
  | n + 1 => do
    if (← check .rightBrace) || (← isAtEnd) then return []
    else
      let m ← function declaration "method" n
      let ms ← methodLoop n
      return m :: ms

/-- `classDeclaration`. -/
def classDeclaration (n : ℕ) : Parse N (Stmt N Unit) := do
  let name ← consume .identifier "Expect class name."
  let superclass ←
    if (← match_ [.less]).isSome then
      let t ← consume .identifier "Expect superclass name."
      pure (some (t, ()))
    else pure none
  let _ ← consume .leftBrace "Expect '\x7b' before class body."
  let methods ← methodLoop declaration n
  let _ ← consume .rightBrace "Expect '\x7d' after class body."
  return .class_ name superclass methods

/-- `varDeclaration`. -/
def varDeclaration : Parse N (Stmt N Unit) := do
  let name ← consume .identifier "Expect variable name."
  let initializer ←
    if (← match_ [.equal]).isSome then
      let e ← expression
      pure (some e)
    else pure none
  let _ ← consume .semicolon "Expect ';' after value."
  return .var name initializer

/-- `expressionStatement`. -/
def expressionStatement : Parse N (Stmt N Unit) := do
  let expr ← expression
  let _ ← consume .semicolon "Expect ';' after value."
  return .expression expr

/-- `printStatement`. -/
def printStatement : Parse N (Stmt N Unit) := do
  let value ← expression
  let _ ← consume .semicolon "Expect ';' after value."
  return .print value

/-- An expression, unless the token that ends it comes at once. -/
def optionalExpression (close : TokenType) : Parse N (Option (Expr N Unit)) := do
  if ← check close then pure none
  else
    let e ← expression
    pure (some e)

/-- `returnStatement`. -/
def returnStatement (keyword : Token N) : Parse N (Stmt N Unit) := do
  let value ← optionalExpression expression .semicolon
  let _ ← consume .semicolon "Expect ';' after return value."
  return .return_ keyword value

/-- `ifStatement`. -/
def ifStatement : Parse N (Stmt N Unit) := do
  let _ ← consume .leftParen "Expect '(' after 'if'."
  let condition ← expression
  let _ ← consume .rightParen "Expect ')' after if condition."
  let thenBranch ← statement
  let elseBranch ←
    if (← match_ [.else_]).isSome then
      let s ← statement
      pure (some s)
    else pure none
  return .if_ condition thenBranch elseBranch

/-- `whileStatement`. -/
def whileStatement : Parse N (Stmt N Unit) := do
  let _ ← consume .leftParen "Expect '(' after 'while'."
  let condition ← expression
  let _ ← consume .rightParen "Expect ')' after condition."
  let body ← statement
  return .while_ condition body

/-- The first clause in `forStatement`. -/
def forInitializer : Parse N (Option (Stmt N Unit)) := do
  if (← match_ [.semicolon]).isSome then pure none
  else if (← match_ [.var_]).isSome then
    let s ← varDeclaration expression
    pure (some s)
  else
    let s ← expressionStatement expression
    pure (some s)

/-- What `forStatement` makes of its parts. -/
def desugarFor (initializer : Option (Stmt N Unit)) (condition increment : Option (Expr N Unit))
    (body : Stmt N Unit) : Stmt N Unit :=
  let body := match increment with
    | some increment => .block [body, .expression increment]
    | none => body
  let loop := .while_ (condition.getD (.literal (.bool true))) body
  match initializer with
  | some initializer => .block [initializer, loop]
  | none => loop

/-- `forStatement`. -/
def forStatement : Parse N (Stmt N Unit) := do
  let _ ← consume .leftParen "Expect '(' after 'for'."
  let initializer ← forInitializer expression
  let condition ← optionalExpression expression .semicolon
  let _ ← consume .semicolon "Expect ';' after loop condition."
  let increment ← optionalExpression expression .rightParen
  let _ ← consume .rightParen "Expect ')' after for clauses."
  let body ← statement
  return desugarFor initializer condition increment body

/-- The body of `statement`. -/
def statementBody (n : ℕ) : Parse N (Stmt N Unit) := do
  if (← match_ [.for_]).isSome then forStatement expression statement
  else if (← match_ [.if_]).isSome then ifStatement expression statement
  else if (← match_ [.print_]).isSome then printStatement expression
  else
  match ← match_ [.return_] with
  | some keyword => returnStatement expression keyword
  | none =>
  if (← match_ [.while_]).isSome then whileStatement expression statement
  else if (← match_ [.leftBrace]).isSome then
    let statements ← block declaration n
    return .block statements
  else expressionStatement expression

/-- What `declaration` tries. -/
def declarationBody (n : ℕ) : Parse N (Stmt N Unit) := do
  if (← match_ [.class_]).isSome then classDeclaration declaration n
  else if (← match_ [.fun_]).isSome then function declaration "function" n
  else if (← match_ [.var_]).isSome then varDeclaration expression
  else statement

end Statements

/-- The loop of `synchronize`.  The `break` in its `switch` leaves the `switch` only, so tokens are
skipped up to the next semicolon whatever they are. -/
def synchronizeLoop : ℕ → Parse N Unit
  | 0 => stuck
  | n + 1 => do
    if ← isAtEnd then return ()
    else if (← previous).type = .semicolon then return ()
    else
      let _ ← advance
      synchronizeLoop n

/-- `synchronize`. -/
def synchronize (n : ℕ) : Parse N Unit := do
  let _ ← advance
  synchronizeLoop n

/-- `try` with the `catch` of `declaration`. -/
def recover (body : Parse N (Stmt N Unit)) (n : ℕ) : Parse N (Stmt N Unit) := fun p =>
  match body p with
  | .thrown p => (do synchronize n; return .null : Parse N (Stmt N Unit)) p
  | parsed => parsed

mutual

/-- `statement`. -/
def statement : ℕ → Parse N (Stmt N Unit)
  | 0 => stuck
  | n + 1 => statementBody (expression n) (statement n) (declaration n) n

/-- `declaration`. -/
def declaration : ℕ → Parse N (Stmt N Unit)
  | 0 => stuck
  | n + 1 => recover (declarationBody (expression n) (statement n) (declaration n) n) n

end

/-- The loop of `parse`. -/
def parseLoop : ℕ → Parse N (List (Stmt N Unit))
  | 0 => stuck
  | n + 1 => do
    if ← isAtEnd then return []
    else
      let s ← declaration n
      let ss ← parseLoop n
      return s :: ss

end Parser

/-- `parse`. -/
def parse (tokens : List (Token N)) : Parsed N (List (Stmt N Unit)) :=
  Parser.parseLoop (2 * tokens.length + 2) ⟨[], tokens, []⟩

end Lox.Jlox
