import Lox.Clox.Pratt

/-!
# Code generation from syntax trees

What the single pass emits, as a function of the tree: the instructions, with jump distances
already in place, and the effect on the chain of compilers (constants, locals, captures).
`none` stands for every compile error that is not a syntax error.  Names are resolved with the
functions of `compiler.c` (`resolveLocal`, `resolveUpvalue`, `addUpvalue`).
-/

namespace Lox.Clox

/-- The chain of compilers and of class compilers: what emitting code depends on. -/
structure Ctx (N : Type) where
  compilers : List (Compiler N)
  classes : List ClassCompiler

/-- Where a name is found. -/
inductive VarRef where
  | local_ (slot : UInt8)
  | upvalue (index : UInt8)
  | global (k : UInt8)

/-- The instruction that reads a variable. -/
def VarRef.load : VarRef → Instr
  | .local_ slot => .getLocal slot
  | .upvalue index => .getUpvalue index
  | .global k => .getGlobal k

/-- The instruction that assigns a variable. -/
def VarRef.store : VarRef → Instr
  | .local_ slot => .setLocal slot
  | .upvalue index => .setUpvalue index
  | .global k => .setGlobal k

/-- The instructions of a binary operator. -/
def BinaryOp.code : BinaryOp → List Instr
  | .bangEqual => [.equal, .not]
  | .equalEqual => [.equal]
  | .greater => [.greater]
  | .greaterEqual => [.less, .not]
  | .less => [.less]
  | .lessEqual => [.greater, .not]
  | .plus => [.add]
  | .minus => [.subtract]
  | .star => [.multiply]
  | .slash => [.divide]

/-- The instruction of a unary operator. -/
def UnaryOp.code : UnaryOp → Instr
  | .not => .not
  | .negate => .negate

/-- The instructions that leave a scope, one for each local. -/
def dropCode (flags : List Bool) : List Instr :=
  flags.map fun isCaptured => if isCaptured then .closeUpvalue else .pop

variable {N : Type}

namespace Ctx

/-- Change the innermost compiler. -/
def mapCurrent (f : Compiler N → Compiler N) (x : Ctx N) : Ctx N :=
  { x with compilers := x.compilers.modifyHead f }

def type (x : Ctx N) : FunctionType := (x.compilers.head?.map (·.type)).getD .script

def scopeDepth (x : Ctx N) : ℕ := (x.compilers.head?.map (·.scopeDepth)).getD 0

def locals (x : Ctx N) : List Local := (x.compilers.head?.map (·.locals)).getD []

def makeConstant (value : Constant N) (x : Ctx N) : Option (UInt8 × Ctx N) :=
  let constant := (x.compilers.head?.map (·.constants.length)).getD 0
  if constant > 255 then none
  else some (UInt8.ofNat constant,
    x.mapCurrent fun c => { c with constants := c.constants ++ [value] })

def identifierConstant (name : Name) (x : Ctx N) : Option (UInt8 × Ctx N) :=
  x.makeConstant (.string name)

/-- Local, else upvalue, else global. -/
def resolveVariable (name : Name) (x : Ctx N) : Option (VarRef × Ctx N) :=
  match resolveLocal name x.locals with
  | some (slot, uninitialized) =>
      if uninitialized then none else some (.local_ (UInt8.ofNat slot), x)
  | none =>
    match resolveUpvalue name x.compilers with
    | (some upvalue, cs, errors) =>
        if errors.isEmpty then some (.upvalue (UInt8.ofNat upvalue), { x with compilers := cs })
        else none
    | (none, cs, errors) =>
        if errors.isEmpty then do
          let (k, x) ← identifierConstant name { x with compilers := cs }
          return (.global k, x)
        else none

def addLocal (name : Name) (x : Ctx N) : Option (Ctx N) :=
  if x.locals.length = 256 then none
  else some (x.mapCurrent fun c => { c with locals := ⟨name, -1, false⟩ :: c.locals })

def declareVariable (name : Name) (x : Ctx N) : Option (Ctx N) :=
  if x.scopeDepth = 0 then some x
  else if redeclared name x.scopeDepth x.locals = 0 then x.addLocal name
  else none

/-- Declare a name; at global scope its constant is made. -/
def parseVariable (name : Name) (x : Ctx N) : Option (UInt8 × Ctx N) := do
  let x ← x.declareVariable name
  if x.scopeDepth > 0 then return (0, x) else x.identifierConstant name

def markInitialized (x : Ctx N) : Ctx N :=
  if x.scopeDepth = 0 then x
  else x.mapCurrent fun c =>
    { c with locals := c.locals.modifyHead fun l => { l with depth := c.scopeDepth } }

/-- The code and the effect of `defineVariable`. -/
def defineVariable (global : UInt8) (x : Ctx N) : List Instr × Ctx N :=
  if x.scopeDepth > 0 then ([], x.markInitialized) else ([.defineGlobal global], x)

def beginScope (x : Ctx N) : Ctx N :=
  x.mapCurrent fun c => { c with scopeDepth := c.scopeDepth + 1 }

/-- The code and the effect of `endScope`. -/
def endScope (x : Ctx N) : List Instr × Ctx N :=
  match x.compilers with
  | [] => ([], x)
  | c :: cs =>
    let depth := c.scopeDepth - 1
    let (flags, locals) := dropLocals depth c.locals
    (dropCode flags,
      { x with compilers := { c with scopeDepth := depth, locals := locals } :: cs })

/-- The code and the effect of leaving a class. -/
def endClass (x : Ctx N) : List Instr × Ctx N :=
  let (is, y) := if (x.classes.head?.map (·.hasSuperclass)).getD false then x.endScope else ([], x)
  (is, { y with classes := y.classes.tail })

/-- The code of `emitReturn`. -/
def returnCode (x : Ctx N) : List Instr :=
  if x.type = .initializer then [.getLocal 0, .return_] else [.nil, .return_]

/-- Start a function. -/
def initCompiler (type : FunctionType) (name : Name) (x : Ctx N) : Ctx N :=
  { x with compilers := newCompiler type (some name) :: x.compilers }

/-- Declare the parameters of a function. -/
def parameters : List Name → Ctx N → Option (Ctx N)
  | [], x => some x
  | name :: names, x => do
    let x := x.mapCurrent fun c => { c with arity := c.arity + 1 }
    if (x.compilers.head?.map (·.arity)).getD 0 > 255 then none
    else
      let (_, x) ← x.parseVariable name
      parameters names (x.defineVariable 0).2

/-- Finish the innermost function, whose code is given, and make its closure. -/
def closure (code : List Instr) (x : Ctx N) : Option (List Instr × Ctx N) :=
  match x.compilers with
  | [] => none
  | c :: cs => do
    let f := c.finish (encodeAll (code ++ x.returnCode))
    let (k, x) ← makeConstant (.function f) { x with compilers := cs }
    return ([.closure k c.upvalues], x)

end Ctx

/-- A forward jump over `body`, if its distance fits. -/
def jumpOver (jump : ℕ → Instr) (body : List Instr) : Option Instr :=
  if codeSize body > 65535 then none else some (jump (codeSize body))

/-- The jump back over `body` and itself, if its distance fits. -/
def loopOver (body : List Instr) : Option Instr :=
  if codeSize body + 3 > 65535 then none else some (.loop (codeSize body + 3))

/-! ### Expressions -/

mutual

/-- The code of an expression. -/
def genExpr : Expr N → Ctx N → Option (List Instr × Ctx N)
  | .nil, x => some ([.nil], x)
  | .true_, x => some ([.true_], x)
  | .false_, x => some ([.false_], x)
  | .number v, x => do
      let (k, x) ← x.makeConstant (.number v)
      return ([.constant k], x)
  | .string v, x => do
      let (k, x) ← x.makeConstant (.string v)
      return ([.constant k], x)
  | .grouping e, x => genExpr e x
  | .unary op e, x => do
      let (is, x) ← genExpr e x
      return (is ++ [op.code], x)
  | .binary op l r, x => do
      let (is, x) ← genExpr l x
      let (js, x) ← genExpr r x
      return (is ++ js ++ op.code, x)
  | .and_ l r, x => do
      let (is, x) ← genExpr l x
      let (js, x) ← genExpr r x
      let jump ← jumpOver .jumpIfFalse (.pop :: js)
      return (is ++ [jump, .pop] ++ js, x)
  | .or_ l r, x => do
      let (is, x) ← genExpr l x
      let (js, x) ← genExpr r x
      let jump ← jumpOver .jump (.pop :: js)
      return (is ++ [.jumpIfFalse 3, jump, .pop] ++ js, x)
  | .variable_ name, x => do
      let (ref, x) ← x.resolveVariable name
      return ([ref.load], x)
  | .assign name e, x => do
      let (ref, x) ← x.resolveVariable name
      let (is, x) ← genExpr e x
      return (is ++ [ref.store], x)
  | .call callee args, x => do
      let (is, x) ← genExpr callee x
      let (js, x) ← genArgs args x
      return (is ++ js ++ [.call (UInt8.ofNat args.length)], x)
  | .get object name, x => do
      let (is, x) ← genExpr object x
      let (k, x) ← x.identifierConstant name
      return (is ++ [.getProperty k], x)
  | .set object name value, x => do
      let (is, x) ← genExpr object x
      let (k, x) ← x.identifierConstant name
      let (js, x) ← genExpr value x
      return (is ++ js ++ [.setProperty k], x)
  | .invoke object name args, x => do
      let (is, x) ← genExpr object x
      let (k, x) ← x.identifierConstant name
      let (js, x) ← genArgs args x
      return (is ++ js ++ [.invoke k (UInt8.ofNat args.length)], x)
  | .this_, x =>
      if x.classes.isEmpty then none
      else do
        let (ref, x) ← x.resolveVariable "this".toList
        return ([ref.load], x)
  | .super_ method, x =>
      if (x.classes.head?.map (·.hasSuperclass)).getD false then do
        let (k, x) ← x.identifierConstant method
        let (receiver, x) ← x.resolveVariable "this".toList
        let (superclass, x) ← x.resolveVariable "super".toList
        return ([receiver.load, superclass.load, .getSuper k], x)
      else none
  | .superInvoke method args, x =>
      if (x.classes.head?.map (·.hasSuperclass)).getD false then do
        let (k, x) ← x.identifierConstant method
        let (receiver, x) ← x.resolveVariable "this".toList
        let (js, x) ← genArgs args x
        let (superclass, x) ← x.resolveVariable "super".toList
        return ([receiver.load] ++ js ++
          [superclass.load, .superInvoke k (UInt8.ofNat args.length)], x)
      else none

/-- The code of arguments, in order; at most 255 of them. -/
def genArgs : List (Expr N) → Ctx N → Option (List Instr × Ctx N)
  | [], x => some ([], x)
  | e :: es, x => do
      let (is, x) ← genExpr e x
      let (js, x) ← genArgs es x
      if es.length ≥ 255 then none else return (is ++ js, x)

end

/-- The code of an optional expression, with a default. -/
def genOption (default : List Instr) : Option (Expr N) → Ctx N → Option (List Instr × Ctx N)
  | none, x => some (default, x)
  | some e, x => genExpr e x

/-! ### Statements -/

/-- `var name = init;`. -/
def genVar (name : Name) (init : Option (Expr N)) (x : Ctx N) : Option (List Instr × Ctx N) := do
  let (k, x) ← x.parseVariable name
  let (is, x) ← genOption [.nil] init x
  let (js, x) := x.defineVariable k
  return (is ++ js, x)

/-- The first clause of a `for`. -/
def genForInit : ForInit N → Ctx N → Option (List Instr × Ctx N)
  | .empty, x => some ([], x)
  | .var name init, x => genVar name init x
  | .expression e, x => do
      let (is, x) ← genExpr e x
      return (is ++ [.pop], x)

/-- The condition of a loop, with the distance `exit` of the jump out of it. -/
def conditionCode (exit : ℕ) : Option (List Instr) → List Instr
  | none => []
  | some is => is ++ [.jumpIfFalse exit, .pop]

/-- The increment of a loop whose condition code is `head`: it is jumped over on the way into
the body and jumps back to the condition. -/
def incrementCode (head : List Instr) : Option (List Instr) → Option (List Instr)
  | none => some []
  | some js => do
      let again ← loopOver (head ++ [.jump 0] ++ js ++ [.pop])
      let past ← jumpOver .jump (js ++ [.pop, again])
      return [past] ++ js ++ [.pop, again]

/-- The code the jump at the end of a loop jumps back over. -/
def loopBody (head step body : List Instr) : List Instr :=
  match step with
  | [] => head ++ body
  | _ :: step => step ++ body

/-- A loop from its pieces: the condition and the increment, if there are any, and the body. -/
def loopCode (condition increment : Option (List Instr)) (body : List Instr) :
    Option (List Instr) := do
  let head := conditionCode 0 condition
  let step ← incrementCode head increment
  let back ← loopOver (loopBody head step body)
  match condition with
  | none => return step ++ body ++ [back]
  | some is => do
    let exit ← jumpOver .jumpIfFalse ([.pop] ++ step ++ body ++ [back])
    return is ++ [exit, .pop] ++ step ++ body ++ [back, .pop]

/-- Generate an optional clause. -/
def genClause : Option (Expr N) → Ctx N → Option (Option (List Instr) × Ctx N)
  | none, x => some (none, x)
  | some e, x => do
      let (is, x) ← genExpr e x
      return (some is, x)

/-- What a class does before its methods: the value of the superclass, if there is one, becomes
the local `super` of a scope around them. -/
def genSuperclass (className : Name) : Option Name → Ctx N → Option (List Instr × Ctx N)
  | none, x => some ([], x)
  | some superclass, x => do
    let (ref, x) ← x.resolveVariable superclass
    if className = superclass then none
    else
      let x ← (x.beginScope).addLocal "super".toList
      let (ds, x) := x.defineVariable 0
      let (cls, x) ← x.resolveVariable className
      return ([ref.load] ++ ds ++ [cls.load, .inherit],
        { x with classes := x.classes.modifyHead fun _ => ⟨true⟩ })

/-- The function type of a method. -/
def methodType (name : Name) : FunctionType :=
  if name = "init".toList then .initializer else .method

mutual

/-- The code of a statement. -/
def genStmt : Stmt N → Ctx N → Option (List Instr × Ctx N)
  | .expression e, x => do
      let (is, x) ← genExpr e x
      return (is ++ [.pop], x)
  | .print e, x => do
      let (is, x) ← genExpr e x
      return (is ++ [.print], x)
  | .var name init, x => genVar name init x
  | .block body, x => do
      let (is, x) ← genStmts body x.beginScope
      let (js, x) := x.endScope
      return (is ++ js, x)
  | .if_ condition thenBranch none, x => do
      let (is, x) ← genExpr condition x
      let (ts, x) ← genStmt thenBranch x
      let past ← jumpOver .jump [.pop]
      let skip ← jumpOver .jumpIfFalse ([.pop] ++ ts ++ [past])
      return (is ++ [skip, .pop] ++ ts ++ [past, .pop], x)
  | .if_ condition thenBranch (some elseBranch), x => do
      let (is, x) ← genExpr condition x
      let (ts, x) ← genStmt thenBranch x
      let (es, x) ← genStmt elseBranch x
      let past ← jumpOver .jump (.pop :: es)
      let skip ← jumpOver .jumpIfFalse ([.pop] ++ ts ++ [past])
      return (is ++ [skip, .pop] ++ ts ++ [past, .pop] ++ es, x)
  | .while_ condition body, x => do
      let (is, x) ← genExpr condition x
      let (bs, x) ← genStmt body x
      let loop ← loopCode (some is) none bs
      return (loop, x)
  | .for_ init condition increment body, x => do
      let (is, x) ← genForInit init x.beginScope
      let (condition, x) ← genClause condition x
      let (increment, x) ← genClause increment x
      let (bs, x) ← genStmt body x
      let loop ← loopCode condition increment bs
      let (js, x) := x.endScope
      return (is ++ loop ++ js, x)
  | .function name params body, x => do
      let (k, x) ← x.parseVariable name
      let x := x.markInitialized
      let y ← (x.initCompiler .function name).beginScope.parameters params
      let (is, y) ← genStmts body y
      let (js, x) ← y.closure is
      let (ks, x) := x.defineVariable k
      return (js ++ ks, x)
  | .return_ value, x =>
      if x.type = .script then none
      else
        match value with
        | none => some (x.returnCode, x)
        | some e =>
          if x.type = .initializer then none
          else do
            let (is, x) ← genExpr e x
            return (is ++ [.return_], x)
  | .class_ name superclass methods, x => do
      let (k, x) ← x.identifierConstant name
      let x ← x.declareVariable name
      let (ds, x) := x.defineVariable k
      let x := { x with classes := ⟨false⟩ :: x.classes }
      let (ss, x) ← genSuperclass name superclass x
      let (cls, x) ← x.resolveVariable name
      let (ms, x) ← genMethods methods x
      let (js, x) := x.endClass
      return ([.class_ k] ++ ds ++ ss ++ [cls.load] ++ ms ++ [.pop] ++ js, x)

/-- The code of statements, in order. -/
def genStmts : List (Stmt N) → Ctx N → Option (List Instr × Ctx N)
  | [], x => some ([], x)
  | s :: ss, x => do
      let (is, x) ← genStmt s x
      let (js, x) ← genStmts ss x
      return (is ++ js, x)

/-- The code of the methods of a class. -/
def genMethods : List (Stmt N) → Ctx N → Option (List Instr × Ctx N)
  | [], x => some ([], x)
  | .function name params body :: ms, x => do
      let (k, x) ← x.identifierConstant name
      let y ← (x.initCompiler (methodType name) name).beginScope.parameters params
      let (is, y) ← genStmts body y
      let (js, x) ← y.closure is
      let (ks, x) ← genMethods ms x
      return (js ++ [.method k] ++ ks, x)
  | _ :: _, _ => none

end

/-- The context of the top level. -/
def Ctx.script : Ctx N := ⟨[newCompiler .script none], []⟩

/-- The function of a whole program. -/
def genProgram (body : List (Stmt N)) : Option (ObjFunction N) := do
  let (is, x) ← genStmts body Ctx.script
  match x.compilers with
  | [] => none
  | c :: _ => some (c.finish (encodeAll (is ++ x.returnCode)))

end Lox.Clox
