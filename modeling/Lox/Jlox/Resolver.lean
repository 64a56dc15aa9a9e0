import Lox.Jlox.Ast
import Mathlib.Logic.Function.Basic

/-!
# The resolver of jlox

The functions of `Resolver.java`.  The scopes are a list, the innermost first, so that the index of
a scope is the distance to it.  `interpreter.resolve(expr, depth)` files a distance under the object
`expr`; here the distance becomes part of the node.

Which declaration a name is matched with is not recorded by the source: it is the one for which the
key was put into the scope.  The model keeps it beside the `Boolean` of the key and beside the
distance.  No function looks at it.
-/

namespace Lox.Jlox

/-- The identity of a statement: the way up from it, as indices. -/
abbrev Place := List ℕ

/-- What a name can be declared by: a `var`, `fun` or `class` statement, a parameter of a function,
or a class, for its `this` and its `super`. -/
inductive Declaration where
  | statement (p : Place)
  | parameter (p : Place) (i : ℕ)
  | this_ (p : Place)
  | super_ (p : Place)
  deriving DecidableEq, Repr

/-- What a scope has under a key: whether the variable is ready, and its declaration. -/
structure Entry where
  ready : Bool
  declaration : Declaration
  deriving DecidableEq, Repr

/-- A scope: `Map<String, Boolean>`. -/
abbrev Scope := Name → Option Entry

/-- What is recorded for an expression: its distance, and the declaration it was matched with. -/
structure Binding where
  distance : ℕ
  declaration : Declaration
  deriving DecidableEq, Repr

/-- `FunctionType`. -/
inductive FunctionType where
  | none_ | function | initializer | method
  deriving DecidableEq, Repr

/-- `ClassType`. -/
inductive ClassType where
  | none_ | class_ | subclass
  deriving DecidableEq, Repr

/-- The fields of `Resolver`. -/
structure Resolver where
  scopes : List Scope
  currentFunction : FunctionType
  currentClass : ClassType

/-- What a function of the resolver returns and leaves, and the errors it has reported. -/
structure Reported (N α : Type) where
  value : α
  resolver : Resolver
  errors : List (Token N × String)

/-- A function of the resolver. -/
def Resolve (N α : Type) := Resolver → Reported N α

variable {N α β : Type}

/-- Do one after the other. -/
def Resolve.bind (f : Resolve N α) (g : α → Resolve N β) : Resolve N β := fun r =>
  let a := f r
  let b := g a.value a.resolver
  ⟨b.value, b.resolver, a.errors ++ b.errors⟩

instance : Monad (Resolve N) where
  pure a r := ⟨a, r, []⟩
  bind := Resolve.bind

namespace Resolver

/-- The fields as they are. -/
def get : Resolve N Resolver := fun r => ⟨r, r, []⟩

/-- Change the fields. -/
def modify (f : Resolver → Resolver) : Resolve N Unit := fun r => ⟨(), f r, []⟩

/-- `Lox.error`. -/
def error (token : Token N) (message : String) : Resolve N Unit := fun r =>
  ⟨(), r, [(token, message)]⟩

/-- `if` without `else`. -/
def when (c : Bool) (m : Resolve N Unit) : Resolve N Unit := if c then m else return ()

/-! ### Scopes -/

/-- A scope without keys. -/
def empty : Scope := fun _ => none

/-- `scopes.peek().put(name, ..)`, if there is a scope. -/
def putScope (name : Name) (entry : Entry) : List Scope → List Scope
  | [] => []
  | scope :: scopes => Function.update scope name (some entry) :: scopes

/-- What the innermost scope has under a key. -/
def peekScope (name : Name) : List Scope → Option Entry
  | [] => none
  | scope :: _ => scope name

/-- The loop of `resolveLocal`. -/
def findScope (name : Name) : List Scope → Option (ℕ × Entry)
  | [] => none
  | scope :: scopes =>
    match scope name with
    | some entry => some (0, entry)
    | none => (findScope name scopes).map fun (i, entry) => (i + 1, entry)

/-- The distance of a name and its declaration. -/
def lookup (name : Name) (scopes : List Scope) : Option Binding :=
  (findScope name scopes).map fun (i, entry) => ⟨i, entry.declaration⟩

/-- `beginScope`. -/
def beginScope : Resolve N Unit := modify fun r => { r with scopes := empty :: r.scopes }

/-- `endScope`. -/
def endScope : Resolve N Unit := modify fun r => { r with scopes := r.scopes.tail }

/-- `scopes.peek().put(name, ready)`. -/
def put (name : Name) (ready : Bool) (declaration : Declaration) : Resolve N Unit :=
  modify fun r => { r with scopes := putScope name ⟨ready, declaration⟩ r.scopes }

/-- `declare`. -/
def declare (name : Token N) (declaration : Declaration) : Resolve N Unit := do
  let r ← get
  when (peekScope name.lexeme r.scopes).isSome <|
    error name "Already a variable with this name in this scope."
  put name.lexeme false declaration

/-- `define`. -/
def define (name : Token N) (declaration : Declaration) : Resolve N Unit :=
  put name.lexeme true declaration

/-- `resolveLocal`. -/
def resolveLocal (name : Token N) : Resolve N (Option Binding) := do
  let r ← get
  return lookup name.lexeme r.scopes

/-! ### Expressions -/

/-- `visitVariableExpr`: what is recorded for the variable. -/
def resolveVariable (name : Token N) : Resolve N (Option Binding) := do
  let r ← get
  when ((peekScope name.lexeme r.scopes).any (!·.ready)) <|
    error name "Can't read local variable in its own initializer."
  resolveLocal name

/-- `visitThisExpr`. -/
def resolveThis (keyword : Token N) : Resolve N (Option Binding) := do
  let r ← get
  if r.currentClass = .none_ then
    error keyword "Can't use 'this' outside of a class."
    return none
  else resolveLocal keyword

/-- `visitSuperExpr`. -/
def resolveSuper (keyword : Token N) : Resolve N (Option Binding) := do
  let r ← get
  when (r.currentClass = .none_) <| error keyword "Can't use 'super' outside of a class."
  when (r.currentClass = .class_) <|
    error keyword "Can't use 'super' in a class with no superclass."
  resolveLocal keyword

mutual

/-- `resolve` of an expression. -/
def resolveExpr : Expr N Unit → Resolve N (Expr N (Option Binding))
  | .assign name value _ => do
    let value ← resolveExpr value
    let distance ← resolveLocal name
    return .assign name value distance
  | .binary left operator right => do
    let left ← resolveExpr left
    let right ← resolveExpr right
    return .binary left operator right
  | .call callee paren arguments => do
    let callee ← resolveExpr callee
    let arguments ← resolveExprs arguments
    return .call callee paren arguments
  | .get object name => do
    let object ← resolveExpr object
    return .get object name
  | .grouping expression => do
    let expression ← resolveExpr expression
    return .grouping expression
  | .literal value => return .literal value
  | .logical left operator right => do
    let left ← resolveExpr left
    let right ← resolveExpr right
    return .logical left operator right
  | .set object name value => do
    -- the value first, as in the source
    let value ← resolveExpr value
    let object ← resolveExpr object
    return .set object name value
  | .super_ keyword method _ => do
    let distance ← resolveSuper keyword
    return .super_ keyword method distance
  | .this_ keyword _ => do
    let distance ← resolveThis keyword
    return .this_ keyword distance
  | .unary operator right => do
    let right ← resolveExpr right
    return .unary operator right
  | .variable_ name _ => do
    let distance ← resolveVariable name
    return .variable_ name distance

/-- The arguments of a call. -/
def resolveExprs : List (Expr N Unit) → Resolve N (List (Expr N (Option Binding)))
  | [] => return []
  | e :: es => do
    let e ← resolveExpr e
    let es ← resolveExprs es
    return e :: es

end

/-- `resolve` of an expression, if there is one. -/
def resolveOption : Option (Expr N Unit) → Resolve N (Option (Expr N (Option Binding)))
  | none => return none
  | some e => do
    let e ← resolveExpr e
    return some e

/-! ### Statements -/

/-- The loop for the parameters in `resolveFunction`. -/
def declareParameters (p : Place) : ℕ → List (Token N) → Resolve N Unit
  | _, [] => return ()
  | i, param :: params => do
    declare param (.parameter p i)
    define param (.parameter p i)
    declareParameters p (i + 1) params

/-- `resolveFunction`; `resolveBody` resolves the body. -/
def resolveFunction (type : FunctionType) (p : Place) (params : List (Token N))
    (resolveBody : Resolve N α) : Resolve N α := do
  let enclosingFunction := (← get).currentFunction
  modify fun r => { r with currentFunction := type }
  beginScope
  declareParameters p 0 params
  let body ← resolveBody
  endScope
  modify fun r => { r with currentFunction := enclosingFunction }
  return body

/-- What a method is resolved as. -/
def methodType (name : Token N) : FunctionType :=
  if name.lexeme = "init".toList then .initializer else .method

/-- The part of `visitClassStmt` about the superclass, before any scope is opened. -/
def resolveSuperclass (name : Token N) :
    Option (Token N × Unit) → Resolve N (Option (Token N × Option Binding))
  | none => return none
  | some (superclass, _) => do
    when (name.lexeme = superclass.lexeme) <|
      error superclass "A class can't inherit from itself."
    modify fun r => { r with currentClass := .subclass }
    let distance ← resolveVariable superclass
    return some (superclass, distance)

/-- `visitClassStmt`.  The name is declared twice, and never defined. -/
def resolveClass (p : Place) (name : Token N) (superclass : Option (Token N × Unit))
    (resolveMethods : Resolve N α) : Resolve N (Option (Token N × Option Binding) × α) := do
  let enclosingClass := (← get).currentClass
  modify fun r => { r with currentClass := .class_ }
  declare name (.statement p)
  declare name (.statement p)
  let superclass ← resolveSuperclass name superclass
  when superclass.isSome do
    beginScope
    put "super".toList true (.super_ p)
  beginScope
  put "this".toList true (.this_ p)
  let methods ← resolveMethods
  endScope
  when superclass.isSome endScope
  modify fun r => { r with currentClass := enclosingClass }
  return (superclass, methods)

/-- `visitReturnStmt`, before the value. -/
def resolveReturn (keyword : Token N) (hasValue : Bool) : Resolve N Unit := do
  let r ← get
  when (r.currentFunction = .none_) <| error keyword "Can't return from top-level code."
  when (hasValue && r.currentFunction = .initializer) <|
    error keyword "Can't return a value from an initializer."

mutual

/-- `resolve` of the statement at a place.  There is no `null` in a program without errors. -/
def resolveStmt (p : Place) : Stmt N Unit → Resolve N (Stmt N (Option Binding))
  | .block statements => do
    beginScope
    let statements ← resolveStmts p 0 statements
    endScope
    return .block statements
  | .class_ name superclass methods => do
    let (superclass, methods) ← resolveClass p name superclass (resolveMethods p 0 methods)
    return .class_ name superclass methods
  | .expression expression => do
    let expression ← resolveExpr expression
    return .expression expression
  | .function name params body => do
    declare name (.statement p)
    define name (.statement p)
    let body ← resolveFunction .function p params (resolveStmts p 0 body)
    return .function name params body
  | .if_ condition thenBranch none => do
    let condition ← resolveExpr condition
    let thenBranch ← resolveStmt (0 :: p) thenBranch
    return .if_ condition thenBranch none
  | .if_ condition thenBranch (some elseBranch) => do
    let condition ← resolveExpr condition
    let thenBranch ← resolveStmt (0 :: p) thenBranch
    let elseBranch ← resolveStmt (1 :: p) elseBranch
    return .if_ condition thenBranch (some elseBranch)
  | .print expression => do
    let expression ← resolveExpr expression
    return .print expression
  | .return_ keyword value => do
    resolveReturn keyword value.isSome
    let value ← resolveOption value
    return .return_ keyword value
  | .var name initializer => do
    declare name (.statement p)
    let initializer ← resolveOption initializer
    define name (.statement p)
    return .var name initializer
  | .while_ condition body => do
    let condition ← resolveExpr condition
    let body ← resolveStmt (0 :: p) body
    return .while_ condition body
  | .null => return .null

/-- `resolve` of a list of statements, from the index on. -/
def resolveStmts (p : Place) (i : ℕ) :
    List (Stmt N Unit) → Resolve N (List (Stmt N (Option Binding)))
  | [] => return []
  | s :: ss => do
    let s ← resolveStmt (i :: p) s
    let ss ← resolveStmts p (i + 1) ss
    return s :: ss

/-- The loop for the methods in `visitClassStmt`. -/
def resolveMethods (p : Place) (i : ℕ) :
    List (Stmt N Unit) → Resolve N (List (Stmt N (Option Binding)))
  | [] => return []
  | .function name params body :: methods => do
    let body ← resolveFunction (methodType name) (i :: p) params (resolveStmts (i :: p) 0 body)
    let methods ← resolveMethods p (i + 1) methods
    return .function name params body :: methods
  | _ :: methods => resolveMethods p (i + 1) methods

end

end Resolver

/-- `resolver.resolve(statements)` of a new resolver. -/
def resolve (statements : List (Stmt N Unit)) : Reported N (List (Stmt N (Option Binding))) :=
  Resolver.resolveStmts [] 0 statements ⟨[], .none_, .none_⟩

end Lox.Jlox
