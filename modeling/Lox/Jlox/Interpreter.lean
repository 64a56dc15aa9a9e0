import Lox.Jlox.Resolver
import Lox.Jlox.Value

/-!
# The interpreter of jlox

The functions of `Interpreter.java`, `Environment.java`, `LoxFunction.java`, `LoxClass.java` and
`LoxInstance.java`.  Environments and objects are numbered in the order in which they are created,
and `globals` is environment `0`.  Exceptions end in `Stop`.  The calls that lead back to `evaluate`
and `execute` use up fuel, and a run without fuel stops where it is.

Two things are kept that the source does not keep: beside each value in an environment the
declaration that put its key there, and a list of the accesses that had a distance, each with the
environments as they were.  No function looks at them.
-/

namespace Lox.Jlox

open Clox (Double)

/-- A value in an environment, and the declaration that created the key. -/
structure Slot (N : Type) where
  value : Value N
  creator : Option Declaration

/-- `Environment`. -/
structure Environment (N : Type) where
  enclosing : Option Ref
  values : Name → Option (Slot N)

/-- `LoxFunction`; the declaration is its place and its fields. -/
structure LoxFunction (N : Type) where
  place : Place
  name : Token N
  params : List (Token N)
  body : List (Stmt N (Option Binding))
  closure : Ref
  isInitializer : Bool

/-- The objects with an identity: `clock`, functions, classes and instances. -/
inductive Object (N : Type) where
  | clock
  | function (f : LoxFunction N)
  | class_ (c : LoxClass (LoxFunction N))
  | instance_ (klass : LoxClass (LoxFunction N)) (fields : Name → Option (Value N))

/-- What an access with a distance is for. -/
inductive Use where
  | read | assign | super_
  deriving DecidableEq, Repr

/-- An access with a distance: the name and what the resolver recorded, and the current environment
among all environments. -/
structure Access (N : Type) where
  use : Use
  name : Name
  binding : Binding
  environment : Ref
  environments : List (Environment N)

/-- The state of the interpreter; `clock` are the readings of the clock, `ticks` the number of those
taken. -/
structure Interpreter (N : Type) where
  environments : List (Environment N)
  objects : List (Object N)
  environment : Ref
  output : List (Value N)
  accesses : List (Access N)
  clock : ℕ → N
  ticks : ℕ

/-- Why a function of the interpreter does not return: a `RuntimeError`, a `Return`, an exception of
Java, or lack of fuel. -/
inductive Stop (N : Type) where
  | runtimeError (error : RuntimeError N)
  | return_ (value : Value N)
  | exception
  | running

/-- A function of the interpreter. -/
def Run (N α : Type) := Interpreter N → Except (Stop N) α × Interpreter N

variable {N α β : Type}

/-- Do one after the other. -/
def Run.bind (f : Run N α) (g : α → Run N β) : Run N β := fun s =>
  match f s with
  | (.ok a, s) => g a s
  | (.error stop, s) => (.error stop, s)

instance : Monad (Run N) where
  pure a s := (.ok a, s)
  bind := Run.bind

namespace Environment

/-- `values.put(name, value)`, for a declaration. -/
def put (name : Name) (value : Value N) (creator : Option Declaration)
    (env : Environment N) : Environment N :=
  { env with values := Function.update env.values name (some ⟨value, creator⟩) }

/-- `values.put(name, value)`, for an assignment: whatever created the key did not change. -/
def set (name : Name) (value : Value N) (env : Environment N) : Environment N :=
  env.put name value ((env.values name).bind (·.creator))

end Environment

namespace Interpreter

/-- Stop. -/
def stop (why : Stop N) : Run N α := fun s => (.error why, s)

/-- `throw new RuntimeError(token, message)`. -/
def throw_ (token : Token N) (message : String) : Run N α := stop (.runtimeError ⟨token, message⟩)

/-- The state as it is. -/
def get : Run N (Interpreter N) := fun s => (.ok s, s)

/-- Change the state. -/
def modify (f : Interpreter N → Interpreter N) : Run N Unit := fun s => (.ok (), f s)

/-- The result of an operator. -/
def operate : Except (RuntimeError N) (Value N) → Run N (Value N)
  | .ok v => return v
  | .error e => stop (.runtimeError e)

/-! ### Environments -/

/-- `ancestor`. -/
def ancestor (environments : List (Environment N)) : ℕ → Ref → Option Ref
  | 0, a => some a
  | d + 1, a => do
    let env ← environments[a]?
    let a ← env.enclosing
    ancestor environments d a

/-- The environment that `get` and `assign` end at: the first with the key, on the way out.  There
are no more steps than environments. -/
def holder (environments : List (Environment N)) (name : Name) : ℕ → Ref → Option Ref
  | 0, _ => none
  | n + 1, a => do
    let env ← environments[a]?
    if (env.values name).isSome then return a
    else
      let a ← env.enclosing
      holder environments name n a

/-- The value under a key; `null` if there is none. -/
def valueAt (environments : List (Environment N)) (a : Ref) (name : Name) : Value N :=
  match environments[a]? with
  | some env => (env.values name).elim .nil (·.value)
  | none => .nil

/-- `new Environment(enclosing)`. -/
def newEnvironment (enclosing : Ref) : Run N Ref := fun s =>
  (.ok s.environments.length,
    { s with environments := s.environments ++ [⟨some enclosing, fun _ => none⟩] })

/-- `define`. -/
def define (a : Ref) (name : Name) (value : Value N) (creator : Declaration) : Run N Unit :=
  modify fun s =>
    { s with environments := s.environments.modify a (Environment.put name value creator) }

/-- Change a value in an environment. -/
def setValue (a : Ref) (name : Name) (value : Value N) : Run N Unit :=
  modify fun s => { s with environments := s.environments.modify a (Environment.set name value) }

/-- `get`, of `globals`. -/
def getGlobal (name : Token N) : Run N (Value N) := do
  let s ← get
  match holder s.environments name.lexeme s.environments.length 0 with
  | some a => return valueAt s.environments a name.lexeme
  | none => throw_ name s!"Undefine variable '{String.ofList name.lexeme}'."

/-- `assign`. -/
def assign (a : Ref) (name : Token N) (value : Value N) : Run N Unit := do
  let s ← get
  match holder s.environments name.lexeme s.environments.length a with
  | some a => setValue a name.lexeme value
  | none => throw_ name s!"Undefined variable '{String.ofList name.lexeme}'."

/-- `getAt`.  Off the chain, it is a `NullPointerException`. -/
def getAt (a : Ref) (distance : ℕ) (name : Name) : Run N (Value N) := do
  let s ← get
  match ancestor s.environments distance a with
  | some a => return valueAt s.environments a name
  | none => stop .exception

/-- `assignAt`. -/
def assignAt (a : Ref) (distance : ℕ) (name : Name) (value : Value N) : Run N Unit := do
  let s ← get
  match ancestor s.environments distance a with
  | some a => setValue a name value
  | none => stop .exception

/-- An access with a distance. -/
def access (use : Use) (name : Name) (binding : Binding) : Run N Unit :=
  modify fun s =>
    { s with accesses := s.accesses ++ [⟨use, name, binding, s.environment, s.environments⟩] }

/-! ### Objects -/

/-- The object that a value is. -/
def objectOf (v : Value N) (s : Interpreter N) : Option (Object N) :=
  match v with
  | .obj a => s.objects[a]?
  | _ => none

/-- A new object. -/
def newObject (o : Object N) : Run N (Value N) := fun s =>
  (.ok (.obj s.objects.length), { s with objects := s.objects ++ [o] })

/-- `bind`.  A method is declared in a class, which is the place above it. -/
def bind (f : LoxFunction N) (object : Value N) : Run N (LoxFunction N) := do
  let a ← newEnvironment f.closure
  define a "this".toList object (.this_ f.place.tail)
  return { f with closure := a }

/-- `get` of an instance. -/
def getProperty (object : Value N) (klass : LoxClass (LoxFunction N))
    (fields : Name → Option (Value N)) (name : Token N) : Run N (Value N) := do
  match fields name.lexeme with
  | some v => return v
  | none =>
    match klass.findMethod name.lexeme with
    | some method => do
      let f ← bind method object
      newObject (.function f)
    | none => throw_ name s!"Undefined property '{String.ofList name.lexeme}'."

/-- `set` of an instance. -/
def setProperty (name : Name) (value : Value N) : Object N → Object N
  | .instance_ klass fields => .instance_ klass (Function.update fields name (some value))
  | o => o

/-- Change the object that a value is. -/
def modifyObject (v : Value N) (f : Object N → Object N) : Run N Unit :=
  match v with
  | .obj a => modify fun s => { s with objects := s.objects.modify a f }
  | _ => return ()

/-- `visitLiteralExpr`. -/
def visitLiteral : Literal N → Value N
  | .nil => .nil
  | .bool b => .bool b
  | .number n => .number n
  | .string s => .string s

/-- `lookUpVariable`. -/
def lookUpVariable (name : Token N) : Option Binding → Run N (Value N)
  | some b => do
    access .read name.lexeme b
    getAt (← get).environment b.distance name.lexeme
  | none => getGlobal name

/-- `visitAssignExpr`, once the value is evaluated. -/
def assignVariable (name : Token N) (value : Value N) : Option Binding → Run N Unit
  | some b => do
    access .assign name.lexeme b
    assignAt (← get).environment b.distance name.lexeme value
  | none => assign 0 name value

/-- The cast `(LoxClass)`; `null` fails one step later, when its method is called. -/
def castClass (v : Value N) : Run N (LoxClass (LoxFunction N)) := do
  match objectOf v (← get) with
  | some (.class_ c) => return c
  | _ => stop .exception

/-- The cast `(LoxInstance)`. -/
def castInstance (v : Value N) : Run N Unit := do
  match v, objectOf v (← get) with
  | .nil, _ => return ()
  | _, some (.instance_ _ _) => return ()
  | _, _ => stop .exception

/-- `visitSuperExpr`.  `locals.get(expr)` may be `null`, which fails as an `int`. -/
def visitSuper (method : Token N) : Option Binding → Run N (Value N)
  | none => stop .exception
  | some b => do
    access .super_ "super".toList b
    let environment := (← get).environment
    let superclass ← getAt environment b.distance "super".toList
    let superclass ← castClass superclass
    let object ← getAt environment (b.distance - 1) "this".toList
    castInstance object
    match superclass.findMethod method.lexeme with
    | some f => do
      let f ← bind f object
      newObject (.function f)
    | none => throw_ method s!"Undefined property '{String.ofList method.lexeme}'."

/-! ### Calls -/

section Calls

variable (evaluate : Expr N (Option Binding) → Run N (Value N))
  (execute : Place → Stmt N (Option Binding) → Run N Unit)

/-- The loop for the arguments in `visitCallExpr`. -/
def evaluateList : List (Expr N (Option Binding)) → Run N (List (Value N))
  | [] => return []
  | e :: es => do
    let v ← evaluate e
    let vs ← evaluateList es
    return v :: vs

/-- Statements, from the index on. -/
def executeList (p : Place) : ℕ → List (Stmt N (Option Binding)) → Run N Unit
  | _, [] => return ()
  | i, s :: ss => do
    execute (i :: p) s
    executeList p (i + 1) ss

/-- `executeBlock`. -/
def executeBlock (p : Place) (statements : List (Stmt N (Option Binding))) (a : Ref) :
    Run N Unit := fun s =>
  let (result, s') := executeList execute p 0 statements { s with environment := a }
  (result, { s' with environment := s.environment })

/-- The loop for the parameters in `call`. -/
def defineParameters (a : Ref) (p : Place) : ℕ → List (Token N) → List (Value N) → Run N Unit
  | _, [], _ => return ()
  | _, _ :: _, [] => stop .exception
  | i, param :: params, v :: vs => do
    define a param.lexeme v (.parameter p i)
    defineParameters a p (i + 1) params vs

/-- `try` with the `catch` in `call`: what the body has returned. -/
def catchReturn (body : Run N Unit) : Run N (Value N) := fun s =>
  match body s with
  | (.ok _, s) => (.ok .nil, s)
  | (.error (.return_ v), s) => (.ok v, s)
  | (.error stop, s) => (.error stop, s)

/-- `call` of a function, up to the value its body has returned. -/
def callBody (f : LoxFunction N) (arguments : List (Value N)) : Run N (Value N) := do
  let a ← newEnvironment f.closure
  defineParameters a f.place 0 f.params arguments
  catchReturn (executeBlock execute f.place f.body a)

/-- `call` of a function. -/
def callFunction (f : LoxFunction N) (arguments : List (Value N)) : Run N (Value N) := do
  let v ← callBody execute f arguments
  if f.isInitializer then getAt f.closure 0 "this".toList else return v

/-- The call of the initializer in `call` of a class. -/
def callInitializer (c : LoxClass (LoxFunction N)) (object : Value N)
    (arguments : List (Value N)) : Run N Unit :=
  match c.findMethod "init".toList with
  | some initializer => do
    let f ← bind initializer object
    let _ ← callFunction execute f arguments
  | none => return ()

/-- `call` of a class. -/
def callClass (c : LoxClass (LoxFunction N)) (arguments : List (Value N)) : Run N (Value N) := do
  let object ← newObject (.instance_ c fun _ => none)
  callInitializer execute c object arguments
  return object

/-- `call` of `clock`. -/
def callClock : Run N (Value N) := fun s =>
  (.ok (.number (s.clock s.ticks)), { s with ticks := s.ticks + 1 })

/-- Check the number of arguments. -/
def checkArity (paren : Token N) (arity size : ℕ) : Run N Unit :=
  if size ≠ arity then throw_ paren s!"Expected {arity} arguments but got {size}."
  else return ()

/-- `arity` of a class. -/
def classArity (c : LoxClass (LoxFunction N)) : ℕ :=
  match c.findMethod "init".toList with
  | some initializer => initializer.params.length
  | none => 0

/-- `visitCallExpr`, once the callee and the arguments are evaluated. -/
def visitCall (callee : Value N) (paren : Token N) (arguments : List (Value N)) :
    Run N (Value N) := do
  match objectOf callee (← get) with
  | some .clock => do
    checkArity paren 0 arguments.length
    callClock
  | some (.function f) => do
    checkArity paren f.params.length arguments.length
    callFunction execute f arguments
  | some (.class_ c) => do
    checkArity paren (classArity c) arguments.length
    callClass execute c arguments
  | _ => throw_ paren "Can only call functions and classes."

/-! ### Expressions -/

/-- `visitGetExpr`, once the object is evaluated. -/
def visitGet (object : Value N) (name : Token N) : Run N (Value N) := do
  match objectOf object (← get) with
  | some (.instance_ klass fields) => getProperty object klass fields name
  | _ => throw_ name "Only instances have properties."

/-- The check in `visitSetExpr`, before the value. -/
def checkInstance (object : Value N) (name : Token N) : Run N Unit := do
  match objectOf object (← get) with
  | some (.instance_ _ _) => return ()
  | _ => throw_ name "Only instances have fields."

/-- The body of `evaluate`: the methods `visit..Expr`. -/
def evaluateBody [Boxed N] : Expr N (Option Binding) → Run N (Value N)
  | .assign name value distance => do
    let v ← evaluate value
    assignVariable name v distance
    return v
  | .binary left operator right => do
    let l ← evaluate left
    let r ← evaluate right
    operate (visitBinary operator l r)
  | .call callee paren arguments => do
    let v ← evaluate callee
    let vs ← evaluateList evaluate arguments
    visitCall execute v paren vs
  | .get object name => do
    let v ← evaluate object
    visitGet v name
  | .grouping expression => evaluate expression
  | .literal value => return visitLiteral value
  | .logical left operator right => do
    let v ← evaluate left
    if (if operator.type = .or_ then isTruthy v else !isTruthy v) then return v
    else evaluate right
  | .set object name value => do
    let o ← evaluate object
    checkInstance o name
    let v ← evaluate value
    modifyObject o (setProperty name.lexeme v)
    return v
  | .super_ _ method distance => visitSuper method distance
  | .this_ keyword distance => lookUpVariable keyword distance
  | .unary operator right => do
    let v ← evaluate right
    operate (visitUnary operator v)
  | .variable_ name distance => lookUpVariable name distance

/-! ### Statements -/

/-- The part of `visitClassStmt` about the superclass. -/
def visitSuperclass :
    Option (Token N × Option Binding) → Run N (Option (Value N × LoxClass (LoxFunction N)))
  | none => return none
  | some (name, distance) => do
    let v ← lookUpVariable name distance
    match objectOf v (← get) with
    | some (.class_ c) => return some (v, c)
    | _ => throw_ name "Superclass must be a class."

/-- The functions for the methods of a class. -/
def methodsOf (p : Place) (closure : Ref) :
    ℕ → List (Stmt N (Option Binding)) → List (Name × LoxFunction N)
  | _, [] => []
  | i, .function name params body :: methods =>
    (name.lexeme, ⟨i :: p, name, params, body, closure, name.lexeme = "init".toList⟩) ::
      methodsOf p closure (i + 1) methods
  | i, _ :: methods => methodsOf p closure (i + 1) methods

/-- Make an environment for `super` current, if there is a superclass. -/
def enterSuper (p : Place) : Option (Value N) → Run N Unit
  | none => return ()
  | some superclass => do
    let a ← newEnvironment (← get).environment
    modify fun s => { s with environment := a }
    define a "super".toList superclass (.super_ p)

/-- `environment = environment.enclosing`, if there is a superclass. -/
def leaveSuper : Option (Value N) → Run N Unit
  | none => return ()
  | some _ => do
    let s ← get
    match s.environments[s.environment]?.bind (·.enclosing) with
    | some a => modify fun s => { s with environment := a }
    | none => stop .exception

/-- The part of `visitClassStmt` that makes the class. -/
def makeClass (p : Place) (name : Token N) (superclass : Option (Value N × LoxClass (LoxFunction N)))
    (methods : List (Stmt N (Option Binding))) : Run N (Value N) := do
  enterSuper p (superclass.map (·.1))
  let klass ← newObject (.class_ (.mk name.lexeme (superclass.map (·.2))
    (LoxClass.putMethods (methodsOf p (← get).environment 0 methods) fun _ => none)))
  leaveSuper (superclass.map (·.1))
  return klass

/-- `visitClassStmt`. -/
def visitClass (p : Place) (name : Token N) (superclass : Option (Token N × Option Binding))
    (methods : List (Stmt N (Option Binding))) : Run N Unit := do
  let superclass ← visitSuperclass superclass
  define (← get).environment name.lexeme .nil (.statement p)
  let klass ← makeClass p name superclass methods
  assign (← get).environment name klass

/-- The initializer of a variable. -/
def evaluateOption : Option (Expr N (Option Binding)) → Run N (Value N)
  | none => return .nil
  | some e => evaluate e

/-- The body of `execute`: the methods `visit..Stmt`. -/
def executeBody (p : Place) : Stmt N (Option Binding) → Run N Unit
  | .block statements => do
    let a ← newEnvironment (← get).environment
    executeBlock execute p statements a
  | .class_ name superclass methods => visitClass p name superclass methods
  | .expression expression => do
    let _ ← evaluate expression
  | .function name params body => do
    let environment := (← get).environment
    let f ← newObject (.function ⟨p, name, params, body, environment, false⟩)
    define environment name.lexeme f (.statement p)
  | .if_ condition thenBranch elseBranch => do
    let v ← evaluate condition
    if isTruthy v then execute (0 :: p) thenBranch
    else
      match elseBranch with
      | some elseBranch => execute (1 :: p) elseBranch
      | none => return ()
  | .print expression => do
    let v ← evaluate expression
    modify fun s => { s with output := s.output ++ [v] }
  | .return_ _ value => do
    let v ← evaluateOption evaluate value
    stop (.return_ v)
  | .var name initializer => do
    let v ← evaluateOption evaluate initializer
    define (← get).environment name.lexeme v (.statement p)
  | .while_ condition body => do
    let v ← evaluate condition
    if isTruthy v then do
      execute (0 :: p) body
      execute p (.while_ condition body)
    else return ()
  | .null => stop .exception

end Calls

mutual

/-- `evaluate`. -/
def evaluate [Boxed N] : ℕ → Expr N (Option Binding) → Run N (Value N)
  | 0, _ => stop .running
  | n + 1, e => evaluateBody (evaluate n) (execute n) e

/-- `execute`, of the statement at a place. -/
def execute [Boxed N] : ℕ → Place → Stmt N (Option Binding) → Run N Unit
  | 0, _, _ => stop .running
  | n + 1, p, s => executeBody (evaluate n) (execute n) p s

end

/-- A new interpreter, with `clock` among its globals. -/
def init (clock : ℕ → N) : Interpreter N where
  environments := [⟨none, Function.update (fun _ => none) "clock".toList (some ⟨.obj 0, none⟩)⟩]
  objects := [.clock]
  environment := 0
  output := []
  accesses := []
  clock := clock
  ticks := 0

/-- `interpret`, up to the `catch` for a `RuntimeError`. -/
def interpret [Boxed N] (n : ℕ) (statements : List (Stmt N (Option Binding))) : Run N Unit :=
  executeList (execute n) [] 0 statements

end Interpreter

end Lox.Jlox
