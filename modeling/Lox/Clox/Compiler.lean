import Lox.Clox.Chunk

/-!
# The single-pass compiler of `compiler.c`

The C globals `parser`, `current` and `currentClass` are one explicit `State`; every C function
is a function on it.  The chain of `Compiler` records linked by `enclosing` is the list
`compilers`, innermost first, and the code of each function under construction is kept beside
it in `chunks`.  Errors do not stop the compiler: it goes on in panic mode, and `compile`
gives no function exactly when some error was reported.

The mutual recursion of the C functions is closed by two fuel-indexed fixed points,
`parsePrecedence` for expressions and `statement`/`declaration` for statements; the functions
in between take the recursive entry points as arguments.  `none` means that the fuel ran out.
-/

namespace Lox.Clox

/-- Where an error message says the error is. -/
inductive Where where
  | atEnd
  | unplaced
  | atLexeme (lexeme : Name)
  deriving DecidableEq, Repr

/-- A line `errorAt` writes to `stderr`. -/
structure Diagnostic where
  line : ℕ
  place : Where
  message : String
  deriving DecidableEq, Repr

/-- `Parser`, with the scanner it pulls tokens from. -/
structure Parser where
  current : Token
  previous : Token
  hadError : Bool
  panicMode : Bool
  scanner : Scanner
  errors : List Diagnostic

/-- `Precedence`, from low to high. -/
inductive Precedence where
  | none | assignment | or | and | equality | comparison | term | factor | unary | call | primary
  deriving DecidableEq, Repr

def Precedence.toNat : Precedence → ℕ
  | .none => 0 | .assignment => 1 | .or => 2 | .and => 3 | .equality => 4 | .comparison => 5
  | .term => 6 | .factor => 7 | .unary => 8 | .call => 9 | .primary => 10

/-- `(Precedence)(p + 1)`. -/
def Precedence.next : Precedence → Precedence
  | .none => .assignment | .assignment => .or | .or => .and | .and => .equality
  | .equality => .comparison | .comparison => .term | .term => .factor | .factor => .unary
  | .unary => .call | .call => .primary | .primary => .primary

/-- The functions a parse rule can name. -/
inductive ParseFn where
  | grouping | call | dot | unary | binary | variable_ | string | number | literal
  | and_ | or_ | super_ | this_
  deriving DecidableEq, Repr

/-- `ParseRule`. -/
structure ParseRule where
  prefixRule : Option ParseFn
  infixRule : Option ParseFn
  precedence : Precedence

/-- `getRule`: the table `rules`. -/
def getRule : TokenType → ParseRule
  | .leftParen => ⟨some .grouping, some .call, .call⟩
  | .dot => ⟨none, some .dot, .call⟩
  | .minus => ⟨some .unary, some .binary, .term⟩
  | .plus => ⟨none, some .binary, .term⟩
  | .slash => ⟨none, some .binary, .factor⟩
  | .star => ⟨none, some .binary, .factor⟩
  | .bang => ⟨some .unary, none, .none⟩
  | .bangEqual => ⟨none, some .binary, .equality⟩
  | .equalEqual => ⟨none, some .binary, .equality⟩
  | .greater => ⟨none, some .binary, .comparison⟩
  | .greaterEqual => ⟨none, some .binary, .comparison⟩
  | .less => ⟨none, some .binary, .comparison⟩
  | .lessEqual => ⟨none, some .binary, .comparison⟩
  | .identifier => ⟨some .variable_, none, .none⟩
  | .string => ⟨some .string, none, .none⟩
  | .number => ⟨some .number, none, .none⟩
  | .and_ => ⟨none, some .and_, .and⟩
  | .or_ => ⟨none, some .or_, .or⟩
  | .false_ => ⟨some .literal, none, .none⟩
  | .nil_ => ⟨some .literal, none, .none⟩
  | .true_ => ⟨some .literal, none, .none⟩
  | .super_ => ⟨some .super_, none, .none⟩
  | .this_ => ⟨some .this_, none, .none⟩
  | _ => ⟨none, none, .none⟩

/-- `Local`; `depth` is -1 while the initializer is compiled. -/
structure Local where
  name : Name
  depth : ℤ
  isCaptured : Bool
  deriving DecidableEq, Repr

/-- `FunctionType`. -/
inductive FunctionType where
  | function | script | method | initializer
  deriving DecidableEq, Repr

/-- `Compiler`, without the code of its chunk.  `locals` has the last declared local first, so
the local at the head has slot `locals.length - 1`. -/
structure Compiler (N : Type) where
  type : FunctionType
  name : Option Name
  arity : ℕ
  constants : List (Constant N)
  locals : List Local
  upvalues : List Upvalue
  scopeDepth : ℕ

/-- `ClassCompiler`. -/
structure ClassCompiler where
  hasSuperclass : Bool
  deriving DecidableEq, Repr

/-- The global state of the compiler. -/
structure State (N : Type) where
  parser : Parser
  compilers : List (Compiler N)
  chunks : List (List UInt8)
  classes : List ClassCompiler

variable {N : Type}

/-- Change the compiler `current` points at. -/
def State.mapCurrent (f : Compiler N → Compiler N) (s : State N) : State N :=
  { s with compilers := s.compilers.modifyHead f }

/-- `current->type`. -/
def State.type (s : State N) : FunctionType := (s.compilers.head?.map (·.type)).getD .script

/-- `current->scopeDepth`. -/
def State.scopeDepth (s : State N) : ℕ := (s.compilers.head?.map (·.scopeDepth)).getD 0

/-- `currentChunk()->count`. -/
def State.count (s : State N) : ℕ := (s.chunks.head?.map (·.length)).getD 0

/-! ### Errors and tokens -/

/-- `errorAt`. -/
def Parser.errorAt (token : Token) (message : String) (p : Parser) : Parser :=
  if p.panicMode then p
  else
    { p with
      panicMode := true
      hadError := true
      errors := p.errors ++
        [⟨token.line,
          if token.type = .eof then .atEnd
          else if token.type = .error then .unplaced
          else .atLexeme token.lexeme, message⟩] }

/-- `errorAtCurrent`. -/
def Parser.errorAtCurrent (message : String) (p : Parser) : Parser := p.errorAt p.current message

/-- `error`. -/
def Parser.error (message : String) (p : Parser) : Parser := p.errorAt p.previous message

/-- The loop of `advance`: take tokens until one is not an error token. -/
def Parser.advanceLoop (p : Parser) : List Token → Parser
  | [] => { p with current := p.scanner.eofToken, scanner := { p.scanner with pending := [] } }
  | t :: ts =>
    let p := { p with current := t, scanner := { p.scanner with pending := ts } }
    if t.type = .error then (p.errorAtCurrent (String.ofList t.start)).advanceLoop ts else p

/-- `advance`. -/
def Parser.advance (p : Parser) : Parser :=
  { p with previous := p.current }.advanceLoop p.scanner.pending

def State.errorAtCurrent (message : String) (s : State N) : State N :=
  { s with parser := s.parser.errorAtCurrent message }

def State.error (message : String) (s : State N) : State N :=
  { s with parser := s.parser.error message }

def State.advance (s : State N) : State N := { s with parser := s.parser.advance }

/-- `check`. -/
def State.check (type : TokenType) (s : State N) : Bool := s.parser.current.type = type

/-- `consume`. -/
def State.consume (type : TokenType) (message : String) (s : State N) : State N :=
  if s.check type then s.advance else s.errorAtCurrent message

/-! ### Emitting code -/

/-- `emitByte`. -/
def State.emitByte (byte : UInt8) (s : State N) : State N :=
  { s with chunks := s.chunks.modifyHead (· ++ [byte]) }

/-- `emitBytes`. -/
def State.emitBytes (byte1 byte2 : UInt8) (s : State N) : State N :=
  (s.emitByte byte1).emitByte byte2

/-- `emitLoop`. -/
def State.emitLoop (loopStart : ℕ) (s : State N) : State N :=
  let s := s.emitByte OpCode.loop.byte
  let offset := s.count - loopStart + 2
  let s := if offset > 65535 then s.error "Loop body too large." else s
  s.emitBytes (UInt8.ofNat (offset / 256)) (UInt8.ofNat offset)

/-- `emitJump`: the offset of the operand to patch, and the state. -/
def State.emitJump (instruction : OpCode) (s : State N) : ℕ × State N :=
  let s := ((s.emitByte instruction.byte).emitByte 0xff).emitByte 0xff
  (s.count - 2, s)

/-- `emitReturn`. -/
def State.emitReturn (s : State N) : State N :=
  let s := if s.type = .initializer then s.emitBytes OpCode.getLocal.byte 0
    else s.emitByte OpCode.nil.byte
  s.emitByte OpCode.return_.byte

/-- `makeConstant`, through `addConstant`. -/
def State.makeConstant (value : Constant N) (s : State N) : UInt8 × State N :=
  let constant := (s.compilers.head?.map (·.constants.length)).getD 0
  let s := s.mapCurrent fun c => { c with constants := c.constants ++ [value] }
  if constant > 255 then (0, s.error "Too many constants in one chunk.")
  else (UInt8.ofNat constant, s)

/-- `emitConstant`. -/
def State.emitConstant (value : Constant N) (s : State N) : State N :=
  let (constant, s) := s.makeConstant value
  s.emitBytes OpCode.constant.byte constant

/-- `patchJump`. -/
def State.patchJump (offset : ℕ) (s : State N) : State N :=
  let jump := s.count - offset - 2
  let s := if jump > 65535 then s.error "Too much code to jump over." else s
  { s with chunks := s.chunks.modifyHead fun code =>
      (code.set offset (UInt8.ofNat (jump / 256))).set (offset + 1) (UInt8.ofNat jump) }

/-! ### Compilers and scopes -/

/-- The compiler `initCompiler` sets up, with slot 0 set aside. -/
def newCompiler (type : FunctionType) (name : Option Name) : Compiler N where
  type := type
  name := name
  arity := 0
  constants := []
  locals := [⟨if type = .function then [] else "this".toList, 0, false⟩]
  upvalues := []
  scopeDepth := 0

/-- `initCompiler`. -/
def State.initCompiler (type : FunctionType) (s : State N) : State N :=
  let name := if type = .script then none else some s.parser.previous.lexeme
  { s with compilers := newCompiler type name :: s.compilers, chunks := [] :: s.chunks }

/-- The function object a compiler has built. -/
def Compiler.finish (c : Compiler N) (code : List UInt8) : ObjFunction N :=
  ⟨c.arity, c.upvalues.length, code, c.constants, c.name⟩

/-- `endCompiler`: the finished function, the captures of its compiler, and the state with the
enclosing compiler current again. -/
def State.endCompiler (s : State N) : Option (ObjFunction N × List Upvalue × State N) :=
  let s := s.emitReturn
  match s.compilers, s.chunks with
  | c :: cs, code :: codes =>
      some (c.finish code, c.upvalues, { s with compilers := cs, chunks := codes })
  | _, _ => none

/-- `beginScope`. -/
def State.beginScope (s : State N) : State N :=
  s.mapCurrent fun c => { c with scopeDepth := c.scopeDepth + 1 }

/-- The loop of `endScope`: the locals deeper than `depth`, as the flags that say whether each
was captured, and the locals that stay. -/
def dropLocals (depth : ℕ) : List Local → List Bool × List Local
  | [] => ([], [])
  | l :: ls =>
    if l.depth > depth then
      let (flags, rest) := dropLocals depth ls
      (l.isCaptured :: flags, rest)
    else ([], l :: ls)

/-- The opcode `endScope` emits for one local. -/
def dropOp (isCaptured : Bool) : OpCode := if isCaptured then .closeUpvalue else .pop

/-- `endScope`. -/
def State.endScope (s : State N) : State N :=
  match s.compilers with
  | [] => s
  | c :: cs =>
    let depth := c.scopeDepth - 1
    let (flags, locals) := dropLocals depth c.locals
    flags.foldl (fun s isCaptured => s.emitByte (dropOp isCaptured).byte)
      { s with compilers := { c with scopeDepth := depth, locals := locals } :: cs }

/-! ### Variables -/

/-- `resolveLocal`: the slot of the last declared local of that name, and whether it is still
uninitialized. -/
def resolveLocal (name : Name) : List Local → Option (ℕ × Bool)
  | [] => none
  | l :: ls => if l.name = name then some (ls.length, l.depth = -1) else resolveLocal name ls

/-- `locals[slot].isCaptrued = true`. -/
def captureLocal (slot : ℕ) : List Local → List Local
  | [] => []
  | l :: ls =>
    if ls.length = slot then { l with isCaptured := true } :: ls else l :: captureLocal slot ls

/-- The messages of `resolveLocal`. -/
def ownInitializer (uninitialized : Bool) : List String :=
  if uninitialized then ["Can't read local variable in its own initializer."] else []

/-- `addUpvalue`: the index in the function's captures, the compiler and the errors. -/
def addUpvalue (index : UInt8) (isLocal : Bool) (c : Compiler N) :
    ℕ × Compiler N × List String :=
  match c.upvalues.idxOf? ⟨index, isLocal⟩ with
  | some i => (i, c, [])
  | none =>
    if c.upvalues.length = 256 then (0, c, ["Too many closure variables in function."])
    else (c.upvalues.length, { c with upvalues := c.upvalues ++ [⟨index, isLocal⟩] }, [])

/-- `resolveUpvalue`, on the chain of compilers from the one that asks outward. -/
def resolveUpvalue (name : Name) : List (Compiler N) → Option ℕ × List (Compiler N) × List String
  | [] => (none, [], [])
  | [c] => (none, [c], [])
  | c :: e :: cs =>
    match resolveLocal name e.locals with
    | some (slot, uninitialized) =>
        let e := { e with locals := captureLocal slot e.locals }
        let (i, c, errors) := addUpvalue (UInt8.ofNat slot) true c
        (some i, c :: e :: cs, ownInitializer uninitialized ++ errors)
    | none =>
      match resolveUpvalue name (e :: cs) with
      | (some upvalue, cs, errors) =>
          let (i, c, errors') := addUpvalue (UInt8.ofNat upvalue) false c
          (some i, c :: cs, errors ++ errors')
      | (none, cs, errors) => (none, c :: cs, errors)

/-- `identifierConstant`. -/
def State.identifierConstant (name : Token) (s : State N) : UInt8 × State N :=
  s.makeConstant (.string name.lexeme)

/-- The opcodes and the operand `namedVariable` settles on before it looks for `=`. -/
structure Access where
  getOp : OpCode
  setOp : OpCode
  arg : UInt8

/-- The first half of `namedVariable`: local, else upvalue, else global. -/
def State.resolveVariable (name : Token) (s : State N) : Access × State N :=
  match resolveLocal name.lexeme ((s.compilers.head?.map (·.locals)).getD []) with
  | some (slot, uninitialized) =>
      (⟨.getLocal, .setLocal, UInt8.ofNat slot⟩,
        (ownInitializer uninitialized).foldl (fun s m => s.error m) s)
  | none =>
    match resolveUpvalue name.lexeme s.compilers with
    | (some upvalue, cs, errors) =>
        (⟨.getUpvalue, .setUpvalue, UInt8.ofNat upvalue⟩,
          errors.foldl (fun s m => s.error m) { s with compilers := cs })
    | (none, cs, errors) =>
        let s := errors.foldl (fun s m => s.error m) { s with compilers := cs }
        let (k, s) := s.identifierConstant name
        (⟨.getGlobal, .setGlobal, k⟩, s)

/-- `addLocal`. -/
def State.addLocal (name : Name) (s : State N) : State N :=
  if (s.compilers.head?.map (·.locals.length)).getD 0 = 256 then
    s.error "Too many local variables in function."
  else s.mapCurrent fun c => { c with locals := ⟨name, -1, false⟩ :: c.locals }

/-- How often `declareVariable` reports a redeclaration: the locals of the current scope with
that name. -/
def redeclared (name : Name) (depth : ℕ) : List Local → ℕ
  | [] => 0
  | l :: ls =>
    if l.depth ≠ -1 ∧ l.depth < depth then 0
    else (if l.name = name then 1 else 0) + redeclared name depth ls

/-- `declareVariable`. -/
def State.declareVariable (s : State N) : State N :=
  if s.scopeDepth = 0 then s
  else
    let name := s.parser.previous.lexeme
    let clashes := redeclared name s.scopeDepth ((s.compilers.head?.map (·.locals)).getD [])
    let s := if clashes = 0 then s
      else s.error "Already a variable with this name in this scope."
    s.addLocal name

/-- `parseVariable`. -/
def State.parseVariable (errorMessage : String) (s : State N) : UInt8 × State N :=
  let s := s.consume .identifier errorMessage
  let s := s.declareVariable
  if s.scopeDepth > 0 then (0, s) else s.identifierConstant s.parser.previous

/-- `markInitialized`. -/
def State.markInitialized (s : State N) : State N :=
  if s.scopeDepth = 0 then s
  else s.mapCurrent fun c =>
    { c with locals := c.locals.modifyHead fun l => { l with depth := c.scopeDepth } }

/-- `defineVariable`. -/
def State.defineVariable (global : UInt8) (s : State N) : State N :=
  if s.scopeDepth > 0 then s.markInitialized
  else s.emitBytes OpCode.defineGlobal.byte global

/-! ### Expressions -/

/-- The do-while loop of `argumentList`. -/
def argumentLoop (expression : State N → Option (State N)) :
    ℕ → UInt8 → State N → Option (UInt8 × State N)
  | 0, _, _ => none
  | n + 1, argCount, s => do
    let s ← expression s
    let s := if argCount = 255 then s.error "Can't have more than 255 arguments." else s
    if s.check .comma then argumentLoop expression n (argCount + 1) s.advance
    else return (argCount + 1, s)

/-- `argumentList`. -/
def argumentList (expression : State N → Option (State N)) (n : ℕ) (s : State N) :
    Option (UInt8 × State N) := do
  let (argCount, s) ← if s.check .rightParen then some (0, s) else argumentLoop expression n 0 s
  return (argCount, s.consume .rightParen "Expect ')' after arguments.")

/-- `binary`. -/
def binary (parsePrecedence : Precedence → State N → Option (State N)) (s : State N) :
    Option (State N) := do
  let operatorType := s.parser.previous.type
  let s ← parsePrecedence (getRule operatorType).precedence.next s
  return match operatorType with
  | .bangEqual => s.emitBytes OpCode.equal.byte OpCode.not.byte
  | .equalEqual => s.emitByte OpCode.equal.byte
  | .greater => s.emitByte OpCode.greater.byte
  | .greaterEqual => s.emitBytes OpCode.less.byte OpCode.not.byte
  | .less => s.emitByte OpCode.less.byte
  | .lessEqual => s.emitBytes OpCode.greater.byte OpCode.not.byte
  | .plus => s.emitByte OpCode.add.byte
  | .minus => s.emitByte OpCode.subtract.byte
  | .star => s.emitByte OpCode.multiply.byte
  | .slash => s.emitByte OpCode.divide.byte
  | _ => s

/-- `call`. -/
def call (expression : State N → Option (State N)) (n : ℕ) (s : State N) : Option (State N) := do
  let (argCount, s) ← argumentList expression n s
  return s.emitBytes OpCode.call.byte argCount

/-- `dot`. -/
def dot (expression : State N → Option (State N)) (n : ℕ) (canAssign : Bool) (s : State N) :
    Option (State N) := do
  let s := s.consume .identifier "Expect property name after '.'."
  let (name, s) := s.identifierConstant s.parser.previous
  if canAssign && s.check .equal then
    let s ← expression s.advance
    return s.emitBytes OpCode.setProperty.byte name
  else if s.check .leftParen then
    let (argCount, s) ← argumentList expression n s.advance
    return (s.emitBytes OpCode.invoke.byte name).emitByte argCount
  else return s.emitBytes OpCode.getProperty.byte name

/-- `literal`. -/
def literal (s : State N) : State N :=
  match s.parser.previous.type with
  | .false_ => s.emitByte OpCode.false_.byte
  | .nil_ => s.emitByte OpCode.nil.byte
  | .true_ => s.emitByte OpCode.true_.byte
  | _ => s

/-- `grouping`. -/
def grouping (expression : State N → Option (State N)) (s : State N) : Option (State N) := do
  let s ← expression s
  return s.consume .rightParen "Expect ')' after expression."

/-- `number`: `strtod` reads on from the start of the token. -/
def number [Double N] (s : State N) : State N :=
  s.emitConstant (.number (Double.strtod s.parser.previous.start))

/-- The characters `string` copies: the lexeme without its quotes. -/
def stringContents (t : Token) : Name := (t.start.drop 1).take (t.length - 2)

/-- `string`. -/
def string (s : State N) : State N :=
  s.emitConstant (.string (stringContents s.parser.previous))

/-- `namedVariable`. -/
def namedVariable (expression : State N → Option (State N)) (name : Token) (canAssign : Bool)
    (s : State N) : Option (State N) := do
  let (access, s) := s.resolveVariable name
  if canAssign && s.check .equal then
    let s ← expression s.advance
    return s.emitBytes access.setOp.byte access.arg
  else return s.emitBytes access.getOp.byte access.arg

/-- `variable`. -/
def variable_ (expression : State N → Option (State N)) (canAssign : Bool) (s : State N) :
    Option (State N) :=
  namedVariable expression s.parser.previous canAssign s

/-- `this_`. -/
def this_ (expression : State N → Option (State N)) (s : State N) : Option (State N) :=
  if s.classes.isEmpty then some (s.error "Can't use 'this' outside of a class.")
  else variable_ expression false s

/-- The checks `super_` starts with. -/
def State.checkSuper (s : State N) : State N :=
  match s.classes with
  | [] => s.error "Can't use 'super' outside of a class."
  | k :: _ =>
    if k.hasSuperclass then s else s.error "Can't use 'super' in a class with no superclass."

/-- `super_`. -/
def super_ (expression : State N → Option (State N)) (n : ℕ) (s : State N) :
    Option (State N) := do
  let s := s.checkSuper.consume .dot "Expect '.' after 'super'."
  let s := s.consume .identifier "Expect superclass method name."
  let (name, s) := s.identifierConstant s.parser.previous
  let s ← namedVariable expression (syntheticToken "this".toList) false s
  if s.check .leftParen then
    let (argCount, s) ← argumentList expression n s.advance
    let s ← namedVariable expression (syntheticToken "super".toList) false s
    return (s.emitBytes OpCode.superInvoke.byte name).emitByte argCount
  else
    let s ← namedVariable expression (syntheticToken "super".toList) false s
    return s.emitBytes OpCode.getSuper.byte name

/-- `unary`. -/
def unary (parsePrecedence : Precedence → State N → Option (State N)) (s : State N) :
    Option (State N) := do
  let operatorType := s.parser.previous.type
  let s ← parsePrecedence .unary s
  return match operatorType with
  | .bang => s.emitByte OpCode.not.byte
  | .minus => s.emitByte OpCode.negate.byte
  | _ => s

/-- `and_`. -/
def and_ (parsePrecedence : Precedence → State N → Option (State N)) (s : State N) :
    Option (State N) := do
  let (endJump, s) := s.emitJump .jumpIfFalse
  let s := s.emitByte OpCode.pop.byte
  let s ← parsePrecedence .and s
  return s.patchJump endJump

/-- `or_`. -/
def or_ (parsePrecedence : Precedence → State N → Option (State N)) (s : State N) :
    Option (State N) := do
  let (elseJump, s) := s.emitJump .jumpIfFalse
  let (endJump, s) := s.emitJump .jump
  let s := s.patchJump elseJump
  let s := s.emitByte OpCode.pop.byte
  let s ← parsePrecedence .or s
  return s.patchJump endJump

/-- A call of the parse function a rule names. -/
def applyRule [Double N] (parsePrecedence : Precedence → State N → Option (State N)) (n : ℕ)
    (rule : ParseFn) (canAssign : Bool) (s : State N) : Option (State N) :=
  let expression := parsePrecedence .assignment
  match rule with
  | .grouping => grouping expression s
  | .call => call expression n s
  | .dot => dot expression n canAssign s
  | .unary => unary parsePrecedence s
  | .binary => binary parsePrecedence s
  | .variable_ => variable_ expression canAssign s
  | .string => some (string s)
  | .number => some (number s)
  | .literal => some (literal s)
  | .and_ => and_ parsePrecedence s
  | .or_ => or_ parsePrecedence s
  | .super_ => super_ expression n s
  | .this_ => this_ expression s

/-- The loop of `parsePrecedence` over infix rules. -/
def infixLoop [Double N] (parsePrecedence : Precedence → State N → Option (State N)) :
    ℕ → Precedence → Bool → State N → Option (State N)
  | 0, _, _, _ => none
  | n + 1, precedence, canAssign, s =>
    if precedence.toNat ≤ (getRule s.parser.current.type).precedence.toNat then do
      let s := s.advance
      match (getRule s.parser.previous.type).infixRule with
      | none => none
      | some rule =>
        let s ← applyRule parsePrecedence n rule canAssign s
        infixLoop parsePrecedence n precedence canAssign s
    else some s

/-- `parsePrecedence`. -/
def parsePrecedence [Double N] : ℕ → Precedence → State N → Option (State N)
  | 0, _, _ => none
  | n + 1, precedence, s =>
    let s := s.advance
    match (getRule s.parser.previous.type).prefixRule with
    | none => some (s.error "Expect expression.")
    | some rule => do
      let canAssign : Bool := precedence.toNat ≤ Precedence.assignment.toNat
      let s ← applyRule (parsePrecedence n) n rule canAssign s
      let s ← infixLoop (parsePrecedence n) n precedence canAssign s
      if canAssign && s.check .equal then
        return s.advance.error "Invalid assignment target."
      else return s

/-- `expression`. -/
def expression [Double N] (n : ℕ) (s : State N) : Option (State N) :=
  parsePrecedence n .assignment s

/-! ### Statements -/

/-- The loop of `block`. -/
def blockLoop (declaration : State N → Option (State N)) : ℕ → State N → Option (State N)
  | 0, _ => none
  | n + 1, s =>
    if s.check .rightBrace || s.check .eof then some s
    else do
      let s ← declaration s
      blockLoop declaration n s

/-- `block`. -/
def block (declaration : State N → Option (State N)) (n : ℕ) (s : State N) :
    Option (State N) := do
  let s ← blockLoop declaration n s
  return s.consume .rightBrace "Expect '\x7d' after block."

/-- The do-while loop over parameters in `function`. -/
def parameterLoop : ℕ → State N → Option (State N)
  | 0, _ => none
  | n + 1, s =>
    let s := s.mapCurrent fun c => { c with arity := c.arity + 1 }
    let s := if (s.compilers.head?.map (·.arity)).getD 0 > 255 then
      s.errorAtCurrent "Can't have more than 255 parameters." else s
    let (constant, s) := s.parseVariable "Expect parameter name."
    let s := s.defineVariable constant
    if s.check .comma then parameterLoop n s.advance else some s

/-- The parameters of `function`, if there are any. -/
def parameters (n : ℕ) (s : State N) : Option (State N) :=
  if s.check .rightParen then some s else parameterLoop n s

/-- The capture bytes after `OP_CLOSURE`. -/
def State.emitCaptures (upvalues : List Upvalue) (s : State N) : State N :=
  upvalues.foldl (fun s u => s.emitBytes (if u.isLocal then 1 else 0) u.index) s

/-- `function`. -/
def function (declaration : State N → Option (State N)) (n : ℕ) (type : FunctionType)
    (s : State N) : Option (State N) := do
  let s := s.initCompiler type
  let s := s.beginScope
  let s := s.consume .leftParen "Expect '(' after function name."
  let s ← parameters n s
  let s := s.consume .rightParen "Expect ')' after parameters."
  let s := s.consume .leftBrace "Expect '\x7b' before function body."
  let s ← block declaration n s
  let (function, upvalues, s) ← s.endCompiler
  let (k, s) := s.makeConstant (.function function)
  let s := s.emitBytes OpCode.closure.byte k
  return s.emitCaptures upvalues

/-- `method`. -/
def method (declaration : State N → Option (State N)) (n : ℕ) (s : State N) :
    Option (State N) := do
  let s := s.consume .identifier "Expect method name."
  let (constant, s) := s.identifierConstant s.parser.previous
  let type := if s.parser.previous.lexeme = "init".toList then .initializer else .method
  let s ← function declaration n type s
  return s.emitBytes OpCode.method.byte constant

/-- The loop of `classDeclaration` over methods. -/
def methodLoop (declaration : State N → Option (State N)) : ℕ → State N → Option (State N)
  | 0, _ => none
  | n + 1, s =>
    if s.check .rightBrace || s.check .eof then some s
    else do
      let s ← method declaration n s
      methodLoop declaration n s

/-- The part of `classDeclaration` for a class with a superclass. -/
def superclassClause (expression : State N → Option (State N)) (className : Token)
    (s : State N) : Option (State N) :=
  if s.check .less then do
    let s := s.advance.consume .identifier "Expect superclass name."
    let s ← variable_ expression false s
    let s := if className.lexeme = s.parser.previous.lexeme then
      s.error "A class can't inherit from itself." else s
    let s := s.beginScope
    let s := s.addLocal "super".toList
    let s := s.defineVariable 0
    let s ← namedVariable expression className false s
    let s := s.emitByte OpCode.inherit.byte
    return { s with classes := s.classes.modifyHead fun _ => ⟨true⟩ }
  else some s

/-- The end of `classDeclaration`: the scope of `super` and the class compiler go. -/
def State.endClass (s : State N) : State N :=
  let s := if (s.classes.head?.map (·.hasSuperclass)).getD false then s.endScope else s
  { s with classes := s.classes.tail }

/-- `classDeclaration`. -/
def classDeclaration (expression declaration : State N → Option (State N)) (n : ℕ)
    (s : State N) : Option (State N) := do
  let s := s.consume .identifier "Expect class name."
  let className := s.parser.previous
  let (nameConstant, s) := s.identifierConstant className
  let s := s.declareVariable
  let s := s.emitBytes OpCode.class_.byte nameConstant
  let s := s.defineVariable nameConstant
  let s := { s with classes := ⟨false⟩ :: s.classes }
  let s ← superclassClause expression className s
  let s ← namedVariable expression className false s
  let s := s.consume .leftBrace "Expect '\x7b' before class body."
  let s ← methodLoop declaration n s
  let s := s.consume .rightBrace "Expect '\x7d' after class body."
  let s := s.emitByte OpCode.pop.byte
  return s.endClass

/-- `funDeclaration`. -/
def funDeclaration (declaration : State N → Option (State N)) (n : ℕ) (s : State N) :
    Option (State N) := do
  let (global, s) := s.parseVariable "Expect function name."
  let s := s.markInitialized
  let s ← function declaration n .function s
  return s.defineVariable global

/-- `varDeclaration`. -/
def varDeclaration (expression : State N → Option (State N)) (s : State N) :
    Option (State N) := do
  let (global, s) := s.parseVariable "Expect variable name."
  let s ← if s.check .equal then expression s.advance else some (s.emitByte OpCode.nil.byte)
  let s := s.consume .semicolon "Expect ';' after variable declaration."
  return s.defineVariable global

/-- `expressionStatement`. -/
def expressionStatement (expression : State N → Option (State N)) (s : State N) :
    Option (State N) := do
  let s ← expression s
  let s := s.consume .semicolon "Expect ';' after expression."
  return s.emitByte OpCode.pop.byte

/-- The initializer clause of `forStatement`. -/
def forInitializer (expression : State N → Option (State N)) (s : State N) :
    Option (State N) :=
  if s.check .semicolon then some s.advance
  else if s.check .var_ then varDeclaration expression s.advance
  else expressionStatement expression s

/-- The condition clause of `forStatement`, with `exitJump`. -/
def forCondition (expression : State N → Option (State N)) (s : State N) :
    Option (Option ℕ × State N) :=
  if s.check .semicolon then some (none, s.advance)
  else do
    let s ← expression s
    let s := s.consume .semicolon "Expect ';' after loop condition."
    let (exitJump, s) := s.emitJump .jumpIfFalse
    return (some exitJump, s.emitByte OpCode.pop.byte)

/-- The increment clause of `forStatement`, with the `loopStart` the body jumps back to. -/
def forIncrement (expression : State N → Option (State N)) (loopStart : ℕ) (s : State N) :
    Option (ℕ × State N) :=
  if s.check .rightParen then some (loopStart, s.advance)
  else do
    let (bodyJump, s) := s.emitJump .jump
    let incrementStart := s.count
    let s ← expression s
    let s := s.emitByte OpCode.pop.byte
    let s := s.consume .rightParen "Expect ')' after for clauses."
    let s := s.emitLoop loopStart
    return (incrementStart, s.patchJump bodyJump)

/-- `forStatement`. -/
def forStatement (expression statement : State N → Option (State N)) (s : State N) :
    Option (State N) := do
  let s := s.beginScope
  let s := s.consume .leftParen "Expect '(' after 'for'."
  let s ← forInitializer expression s
  let loopStart := s.count
  let (exitJump, s) ← forCondition expression s
  let (loopStart, s) ← forIncrement expression loopStart s
  let s ← statement s
  let s := s.emitLoop loopStart
  let s := match exitJump with
    | some exitJump => (s.patchJump exitJump).emitByte OpCode.pop.byte
    | none => s
  return s.endScope

/-- `ifStatement`. -/
def ifStatement (expression statement : State N → Option (State N)) (s : State N) :
    Option (State N) := do
  let s := s.consume .leftParen "Expect '(' after 'if'."
  let s ← expression s
  let s := s.consume .rightParen "Expect ')' after condition."
  let (thenJump, s) := s.emitJump .jumpIfFalse
  let s := s.emitByte OpCode.pop.byte
  let s ← statement s
  let (elseJump, s) := s.emitJump .jump
  let s := s.patchJump thenJump
  let s := s.emitByte OpCode.pop.byte
  let s ← if s.check .else_ then statement s.advance else some s
  return s.patchJump elseJump

/-- `printStatement`. -/
def printStatement (expression : State N → Option (State N)) (s : State N) :
    Option (State N) := do
  let s ← expression s
  let s := s.consume .semicolon "Expect ';' after value."
  return s.emitByte OpCode.print.byte

/-- `returnStatement`. -/
def returnStatement (expression : State N → Option (State N)) (s : State N) :
    Option (State N) := do
  let s := if s.type = .script then s.error "Can't return from top-level code." else s
  if s.check .semicolon then return s.advance.emitReturn
  else
    let s := if s.type = .initializer then
      s.error "Can't return a value from an initializer." else s
    let s ← expression s
    let s := s.consume .semicolon "Expect ';' after return value."
    return s.emitByte OpCode.return_.byte

/-- `whileStatement`. -/
def whileStatement (expression statement : State N → Option (State N)) (s : State N) :
    Option (State N) := do
  let loopStart := s.count
  let s := s.consume .leftParen "Expect '(' after 'while'."
  let s ← expression s
  let s := s.consume .rightParen "Expect ')' after condition."
  let (exitJump, s) := s.emitJump .jumpIfFalse
  let s := s.emitByte OpCode.pop.byte
  let s ← statement s
  let s := s.emitLoop loopStart
  let s := s.patchJump exitJump
  return s.emitByte OpCode.pop.byte

/-- The tokens at which `synchronize` stops. -/
def startsStatement : TokenType → Bool
  | .class_ | .fun_ | .var_ | .for_ | .if_ | .while_ | .print_ | .return_ => true
  | _ => false

/-- The loop of `synchronize`. -/
def Parser.synchronizeLoop : ℕ → Parser → Parser
  | 0, p => p
  | n + 1, p =>
    if p.previous.type = .eof then p
    else if p.previous.type = .semicolon then p
    else if startsStatement p.current.type then p
    else p.advance.synchronizeLoop n

/-- `synchronize`.  Every round takes a token, so two rounds more than there are tokens left
reach the end of the source. -/
def State.synchronize (s : State N) : State N :=
  { s with parser :=
      { s.parser with panicMode := false }.synchronizeLoop (s.parser.scanner.pending.length + 2) }

/-- The dispatch of `statement`. -/
def statementBody [Double N] (declaration statement : State N → Option (State N)) (n : ℕ)
    (s : State N) : Option (State N) :=
  let expression := expression n
  if s.check .print_ then printStatement expression s.advance
  else if s.check .leftBrace then do
    let s ← block declaration n s.advance.beginScope
    return s.endScope
  else if s.check .if_ then ifStatement expression statement s.advance
  else if s.check .while_ then whileStatement expression statement s.advance
  else if s.check .for_ then forStatement expression statement s.advance
  else if s.check .return_ then returnStatement expression s.advance
  else expressionStatement expression s

/-- The dispatch of `declaration`. -/
def declarationBody [Double N] (declaration statement : State N → Option (State N)) (n : ℕ)
    (s : State N) : Option (State N) := do
  let expression := expression n
  let s ← if s.check .var_ then varDeclaration expression s.advance
    else if s.check .fun_ then funDeclaration declaration n s.advance
    else if s.check .class_ then classDeclaration expression declaration n s.advance
    else statement s
  return if s.parser.panicMode then s.synchronize else s

mutual

/-- `statement`. -/
def statement [Double N] : ℕ → State N → Option (State N)
  | 0, _ => none
  | n + 1, s => statementBody (declaration n) (statement n) n s

/-- `declaration`. -/
def declaration [Double N] : ℕ → State N → Option (State N)
  | 0, _ => none
  | n + 1, s => declarationBody (declaration n) (statement n) n s

end

/-- The loop of `compile`. -/
def compileLoop [Double N] : ℕ → State N → Option (State N)
  | 0, _ => none
  | n + 1, s =>
    if s.check .eof then some s.advance
    else do
      let s ← declaration n s
      compileLoop n s

/-- The state in which `compile` starts to read tokens. -/
def State.start (scanner : Scanner) : State N where
  parser :=
    { current := scanner.eofToken, previous := scanner.eofToken, hadError := false
      panicMode := false, scanner := scanner, errors := [] }
  compilers := [newCompiler .script none]
  chunks := [[]]
  classes := []

/-- `compile`, with the state it ends in. -/
def compileState [Double N] (n : ℕ) (scanner : Scanner) : Option (ObjFunction N × State N) := do
  let s ← compileLoop n (State.start scanner).advance
  let (function, _, s) ← s.endCompiler
  return (function, s)

/-- `compile`: the outer `none` is lack of fuel, the inner one is `NULL`. -/
def compile [Double N] (n : ℕ) (scanner : Scanner) : Option (Option (ObjFunction N)) := do
  let (function, s) ← compileState n scanner
  return if s.parser.hadError then none else some function

/-- `compile` returns the function `f` for this source. -/
def Accepts [Double N] (scanner : Scanner) (f : ObjFunction N) : Prop :=
  ∃ n, compile n scanner = some (some f)

end Lox.Clox
