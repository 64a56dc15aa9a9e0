import Lox.Clox.Chunk

/-!
# The virtual machine of `vm.c`

* `Value` and `Obj` are the runtime values and objects.  Strings are interned, so a string value is
  its characters; a `Table` is the map it implements; objects are numbered in the order in which
  they are allocated and none is ever freed.
* `VM` is the state: call frames, the value stack with its top, globals, objects, and what was
  printed.  The stack is an array, so what was popped stays behind.
* `step` executes one instruction.  `none` is undefined behaviour: a cast that does not fit, a frame
  or an instruction that is not there, a read below the bottom of the stack.

The way local variables and captured variables are stored is a parameter (`Variables`):
`openUpvalues` is what `vm.c` does, with its list of upvalues that still point into the stack.
-/

namespace Lox.Clox

/-! ### Values and objects -/

/-- The number of an object. -/
abbrev Addr := ℕ

/-- `Value`. -/
inductive Value (N : Type) where
  | nil
  | bool (b : Bool)
  | number (n : N)
  | string (s : Name)
  | obj (a : Addr)
  deriving DecidableEq, Repr

/-- `Table`. -/
abbrev Table (N : Type) := Name → Option (Value N)

/-- `Obj`.  An upvalue whose `location` points to its own field `closed` has the location `none`. -/
inductive Obj (N : Type) where
  | closure (function : ObjFunction N) (upvalues : List (Option Addr))
  | upvalue (location : Option ℕ) (closed : Value N)
  | klass (name : Name) (methods : Table N)
  | inst (klass : Addr) (fields : Table N)
  | boundMethod (receiver : Value N) (method : Addr)
  | native

variable {N : Type}

/-- `initTable`. -/
def Table.empty : Table N := fun _ => none

/-- `tableSet`. -/
def Table.set (key : Name) (value : Value N) (t : Table N) : Table N :=
  fun k => if k = key then some value else t k

/-- `tableAddAll`: the entries of `source` replace those of `target`. -/
def Table.addAll (source target : Table N) : Table N := fun k => (source k).orElse fun _ => target k

/-- `valuesEqual`. -/
def valuesEqual [Double N] : Value N → Value N → Bool
  | .nil, .nil => true
  | .bool a, .bool b => a = b
  | .number a, .number b => Double.eq a b
  | .string a, .string b => a = b
  | .obj a, .obj b => a = b
  | _, _ => false

/-- `isFalsey`. -/
def isFalsey : Value N → Bool
  | .nil => true
  | .bool b => !b
  | _ => false

/-- What `printValue` shows of a value. -/
inductive Printed (N : Type) where
  | nil
  | bool (b : Bool)
  | number (n : N)
  | string (s : Name)
  | function (name : Option Name)
  | native
  | upvalue
  | klass (name : Name)
  | inst (name : Name)
  deriving DecidableEq, Repr

/-! ### The state -/

/-- `FRAMES_MAX`. -/
def framesMax : ℕ := 64

/-- `UINT8_COUNT`. -/
def uint8Count : ℕ := 256

/-- `STACK_MAX`. -/
def stackMax : ℕ := framesMax * uint8Count

/-- `CallFrame`. -/
structure CallFrame where
  closure : Addr
  ip : ℕ
  slots : ℕ
  deriving DecidableEq, Repr

/-- What `runtimeError` writes: the message and the functions that were active. -/
structure RuntimeError where
  message : String
  trace : List (Option Name)
  deriving DecidableEq, Repr

/-- `VM`.  `frames` has the innermost frame first; `upvalues` is what the machine keeps to find
captured variables; `clock` are the readings of the clock, `ticks` the number of those taken. -/
structure VM (N β : Type) where
  frames : List CallFrame
  stack : ℕ → Value N
  stackTop : ℕ
  globals : Table N
  upvalues : β
  objects : List (Obj N)
  stdout : List (Printed N)
  stderr : List RuntimeError
  clock : ℕ → N
  ticks : ℕ

/-- `InterpretResult`. -/
inductive InterpretResult where
  | ok | compileError | runtimeError
  deriving DecidableEq, Repr

/-- What `run` does after an instruction: go on, or return. -/
inductive Outcome (N β : Type) where
  | running (vm : VM N β)
  | finished (result : InterpretResult) (vm : VM N β)

/-- What a machine keeps about captured variables: nothing at first, and what is left of it when
the stack shrinks. -/
class Tracking (β : Type) extends EmptyCollection β where
  truncate : ℕ → β → β

variable {β : Type}

namespace VM

/-! ### The stack -/

/-- `push`. -/
def push (value : Value N) (vm : VM N β) : VM N β :=
  { vm with stack := Function.update vm.stack vm.stackTop value, stackTop := vm.stackTop + 1 }

/-- `peek`. -/
def peek (distance : ℕ) (vm : VM N β) : Value N := vm.stack (vm.stackTop - 1 - distance)

@[simp]
theorem peek_push_zero (value : Value N) (vm : VM N β) : (vm.push value).peek 0 = value := by
  simp [peek, push]

theorem peek_push_succ (value : Value N) {vm : VM N β} (h : 0 < vm.stackTop) (distance : ℕ) :
    (vm.push value).peek (distance + 1) = vm.peek distance := by
  have hslot : vm.stackTop - (distance + 1) = vm.stackTop - 1 - distance := by omega
  simp only [peek, push, Nat.add_sub_cancel, hslot]
  exact Function.update_of_ne (by omega) _ _

/-- `stackTop[-1 - distance] = value`. -/
def poke (distance : ℕ) (value : Value N) (vm : VM N β) : VM N β :=
  { vm with stack := Function.update vm.stack (vm.stackTop - 1 - distance) value }

/-- Set `stackTop` back. -/
def truncate [Tracking β] (top : ℕ) (vm : VM N β) : VM N β :=
  { vm with stackTop := top, upvalues := Tracking.truncate top vm.upvalues }

/-- `n` times `pop`. -/
def pop [Tracking β] (n : ℕ) (vm : VM N β) : VM N β := vm.truncate (vm.stackTop - n)

/-! ### Objects -/

/-- `allocateObject`. -/
def allocate (object : Obj N) (vm : VM N β) : Addr × VM N β :=
  (vm.objects.length, { vm with objects := vm.objects ++ [object] })

/-- Change an object. -/
def update (a : Addr) (object : Obj N) (vm : VM N β) : VM N β :=
  { vm with objects := vm.objects.set a object }

/-- The function and the upvalues of a closure. -/
def asClosure (a : Addr) (vm : VM N β) : Option (ObjFunction N × List (Option Addr)) :=
  match vm.objects[a]? with
  | some (.closure function upvalues) => some (function, upvalues)
  | _ => none

theorem asClosure_eq_some {a : Addr} {vm : VM N β} {function : ObjFunction N}
    {upvalues : List (Option Addr)} :
    vm.asClosure a = some (function, upvalues) ↔
      vm.objects[a]? = some (.closure function upvalues) := by
  unfold asClosure
  split
  · rename_i f us ho
    rw [ho]
    simp
  · rename_i hne
    constructor
    · intro h
      cases h
    · intro h
      exact absurd h (hne function upvalues)

/-- The class a value is: its address, name and methods. -/
def asClass (value : Value N) (vm : VM N β) : Option (Addr × Name × Table N) :=
  match value with
  | .obj a =>
    match vm.objects[a]? with
    | some (.klass name methods) => some (a, name, methods)
    | _ => none
  | _ => none

/-- The instance a value is: its address, class and fields. -/
def asInstance (value : Value N) (vm : VM N β) : Option (Addr × Addr × Table N) :=
  match value with
  | .obj a =>
    match vm.objects[a]? with
    | some (.inst klass fields) => some (a, klass, fields)
    | _ => none
  | _ => none

theorem asInstance_eq_some {value : Value N} {vm : VM N β} {a klass : Addr} {fields : Table N} :
    vm.asInstance value = some (a, klass, fields) ↔
      value = .obj a ∧ vm.objects[a]? = some (.inst klass fields) := by
  unfold asInstance
  split
  · rename_i b
    split
    · rename_i klass' fields' ho
      constructor
      · rintro ⟨⟩
        exact ⟨rfl, ho⟩
      · rintro ⟨⟨⟩, h⟩
        rw [ho] at h
        cases h
        rfl
    · rename_i hne
      constructor
      · intro h
        cases h
      · rintro ⟨⟨⟩, h⟩
        exact absurd h (hne klass fields)
  · rename_i hne
    constructor
    · intro h
      cases h
    · rintro ⟨rfl, -⟩
      exact absurd rfl (hne a)

theorem asClass_eq_some {value : Value N} {vm : VM N β} {a : Addr} {name : Name}
    {methods : Table N} :
    vm.asClass value = some (a, name, methods) ↔
      value = .obj a ∧ vm.objects[a]? = some (.klass name methods) := by
  unfold asClass
  split
  · rename_i b
    split
    · rename_i ho
      constructor
      · intro h
        obtain ⟨rfl, rfl, rfl⟩ : _ ∧ _ ∧ _ := by simpa using h
        exact ⟨rfl, ho⟩
      · rintro ⟨hb, ha⟩
        obtain rfl := Value.obj.inj hb
        rw [ho] at ha
        obtain ⟨rfl, rfl⟩ := Obj.klass.inj (Option.some.inj ha)
        rfl
    · rename_i hne
      constructor
      · intro h
        cases h
      · rintro ⟨hb, ha⟩
        obtain rfl := Value.obj.inj hb
        exact absurd ha (hne name methods)
  · rename_i hne
    constructor
    · intro h
      cases h
    · rintro ⟨rfl, -⟩
      exact absurd rfl (hne a)

/-- The object that a value points to is a closure; `AS_CLOSURE` with its address. -/
def asMethod : Value N → Option Addr
  | .obj a => some a
  | _ => none

/-- `printValue`. -/
def printValue (value : Value N) (vm : VM N β) : Option (Printed N) :=
  match value with
  | .nil => some .nil
  | .bool b => some (.bool b)
  | .number n => some (.number n)
  | .string s => some (.string s)
  | .obj a =>
    match vm.objects[a]? with
    | some (.boundMethod _ method) => (vm.asClosure method).map fun (f, _) => .function f.name
    | some (.inst klass _) => (vm.asClass (.obj klass)).map fun (_, name, _) => .inst name
    | some (.closure f _) => some (.function f.name)
    | some .native => some .native
    | some (.upvalue _ _) => some .upvalue
    | some (.klass name _) => some (.klass name)
    | none => none

/-! ### Errors and calls -/

/-- `resetStack`. -/
def resetStack [Tracking β] (vm : VM N β) : VM N β :=
  { vm with stackTop := 0, frames := [], upvalues := ∅ }

/-- `runtimeError`. -/
def runtimeError [Tracking β] (message : String) (vm : VM N β) : VM N β :=
  let trace := vm.frames.map fun frame => (vm.asClosure frame.closure).bind fun (f, _) => f.name
  resetStack { vm with stderr := vm.stderr ++ [⟨message, trace⟩] }

/-- `call`. -/
def call [Tracking β] (closure : Addr) (argCount : ℕ) (vm : VM N β) : Option (Bool × VM N β) := do
  let (function, _) ← vm.asClosure closure
  if argCount ≠ function.arity then
    return (false, vm.runtimeError
      s!"Expected {function.arity} arguments but got {argCount}.")
  else if vm.frames.length = framesMax then
    return (false, vm.runtimeError "Stack overflow.")
  else
    return (true, { vm with frames := ⟨closure, 0, vm.stackTop - argCount - 1⟩ :: vm.frames })

theorem call_eq [Tracking β] {closure : Addr} {vm : VM N β} {function : ObjFunction N}
    {upvalues : List (Option Addr)} (h : vm.asClosure closure = some (function, upvalues))
    (hroom : vm.frames.length ≠ framesMax) :
    vm.call closure function.arity = some (true,
      { vm with frames := ⟨closure, 0, vm.stackTop - function.arity - 1⟩ :: vm.frames }) := by
  simp [call, h, hroom]

/-- The call of a class: its initializer gets a new instance.  Without an initializer the error is
reported, but the result is success all the same. -/
def callClass [Tracking β] (klass : Addr) (methods : Table N) (argCount : ℕ) (vm : VM N β) :
    Option (Bool × VM N β) :=
  let (a, vm) := vm.allocate (.inst klass Table.empty)
  let vm := vm.poke argCount (.obj a)
  match methods "init".toList with
  | some initializer => do
      let method ← asMethod initializer
      vm.call method argCount
  | none =>
      if argCount ≠ 0 then
        some (true, vm.runtimeError s!"Expected 0 arguments but got {argCount}.")
      else some (true, vm)

/-- The call of a native function: `clock`. -/
def callNative [Tracking β] (argCount : ℕ) (vm : VM N β) : VM N β :=
  let result := vm.clock vm.ticks
  ({ vm with ticks := vm.ticks + 1 }.pop (argCount + 1)).push (.number result)

/-- `callValue`. -/
def callValue [Tracking β] (callee : Value N) (argCount : ℕ) (vm : VM N β) :
    Option (Bool × VM N β) :=
  match callee with
  | .obj a =>
    match vm.objects[a]? with
    | some (.boundMethod receiver method) => (vm.poke argCount receiver).call method argCount
    | some (.klass _ methods) => vm.callClass a methods argCount
    | some .native => some (true, vm.callNative argCount)
    | some (.closure _ _) => vm.call a argCount
    | some _ => some (false, vm.runtimeError "Can only call functions and classes.")
    | none => none
  | _ => some (false, vm.runtimeError "Can only call functions and classes.")

/-- The error for a missing property. -/
def undefinedProperty [Tracking β] (name : Name) (vm : VM N β) : VM N β :=
  let text := String.ofList name
  vm.runtimeError s!"Undefined property '{text}'."

/-- `invokeFromClass`. -/
def invokeFromClass [Tracking β] (methods : Table N) (name : Name) (argCount : ℕ) (vm : VM N β) :
    Option (Bool × VM N β) :=
  match methods name with
  | none => some (false, vm.undefinedProperty name)
  | some method => do
      let method ← asMethod method
      vm.call method argCount

/-- `invoke`. -/
def invoke [Tracking β] (name : Name) (argCount : ℕ) (vm : VM N β) : Option (Bool × VM N β) :=
  match vm.asInstance (vm.peek argCount) with
  | none => some (false, vm.runtimeError "Only instances have methods.")
  | some (_, klass, fields) =>
    match fields name with
    | some value => (vm.poke argCount value).callValue value argCount
    | none => do
        let (_, _, methods) ← vm.asClass (.obj klass)
        vm.invokeFromClass methods name argCount

/-- `bindMethod`. -/
def bindMethod [Tracking β] (methods : Table N) (name : Name) (vm : VM N β) :
    Option (Bool × VM N β) :=
  match methods name with
  | none => some (false, vm.undefinedProperty name)
  | some method => do
      let method ← asMethod method
      let (bound, vm) := vm.allocate (.boundMethod (vm.peek 0) method)
      return (true, (vm.pop 1).push (.obj bound))

end VM

/-! ### Captured variables -/

/-- How variables are stored: slots of the stack, and what closures hold. -/
structure Variables (N β : Type) where
  getLocal : ℕ → VM N β → Option (Value N)
  setLocal : ℕ → Value N → VM N β → Option (VM N β)
  getUpvalue : Addr → VM N β → Option (Value N)
  setUpvalue : Addr → Value N → VM N β → Option (VM N β)
  captureUpvalue : ℕ → VM N β → Option (Addr × VM N β)
  closeUpvalues : ℕ → VM N β → Option (VM N β)

section OpenUpvalues

instance : Tracking (List Addr) where
  emptyCollection := []
  truncate _ upvalues := upvalues

/-- The open upvalues above a stack slot, and the rest of the list. -/
def openAbove (objects : List (Obj N)) (slot : ℕ) : List Addr → Option (List Addr × List Addr)
  | [] => some ([], [])
  | a :: as =>
    match objects[a]? with
    | some (.upvalue (some location) _) =>
        if location > slot then do
          let (above, rest) ← openAbove objects slot as
          return (a :: above, rest)
        else some ([], a :: as)
    | _ => none

/-- The upvalue at the head of a list points to the slot. -/
def pointsTo (objects : List (Obj N)) (slot : ℕ) : List Addr → Option Addr
  | a :: _ =>
    match objects[a]? with
    | some (.upvalue (some location) _) => if location = slot then some a else none
    | _ => none
  | [] => none

/-- `captureUpvalue`. -/
def captureUpvalue (slot : ℕ) (vm : VM N (List Addr)) : Option (Addr × VM N (List Addr)) := do
  let (above, rest) ← openAbove vm.objects slot vm.upvalues
  match pointsTo vm.objects slot rest with
  | some a => return (a, vm)
  | none =>
    let (a, vm) := vm.allocate (.upvalue (some slot) .nil)
    return (a, { vm with upvalues := above ++ a :: rest })

/-- The loop of `closeUpvalues`. -/
def closeLoop (stack : ℕ → Value N) (last : ℕ) :
    List Addr → List (Obj N) → Option (List Addr × List (Obj N))
  | [], objects => some ([], objects)
  | a :: as, objects =>
    match objects[a]? with
    | some (.upvalue (some location) _) =>
        if location ≥ last then
          closeLoop stack last as (objects.set a (.upvalue none (stack location)))
        else some (a :: as, objects)
    | _ => none

/-- `closeUpvalues`. -/
def closeUpvalues (last : ℕ) (vm : VM N (List Addr)) : Option (VM N (List Addr)) := do
  let (upvalues, objects) ← closeLoop vm.stack last vm.upvalues vm.objects
  return { vm with upvalues := upvalues, objects := objects }

/-- `*upvalue->location`. -/
def getUpvalue (a : Addr) (vm : VM N (List Addr)) : Option (Value N) :=
  match vm.objects[a]? with
  | some (.upvalue (some location) _) => some (vm.stack location)
  | some (.upvalue none closed) => some closed
  | _ => none

/-- `*upvalue->location = value`. -/
def setUpvalue (a : Addr) (value : Value N) (vm : VM N (List Addr)) :
    Option (VM N (List Addr)) :=
  match vm.objects[a]? with
  | some (.upvalue (some location) _) =>
      some { vm with stack := Function.update vm.stack location value }
  | some (.upvalue none _) => some (vm.update a (.upvalue none value))
  | _ => none

/-- Variables as `vm.c` stores them. -/
def openUpvalues : Variables N (List Addr) where
  getLocal slot vm := some (vm.stack slot)
  setLocal slot value vm := some { vm with stack := Function.update vm.stack slot value }
  getUpvalue := getUpvalue
  setUpvalue := setUpvalue
  captureUpvalue := captureUpvalue
  closeUpvalues := closeUpvalues

end OpenUpvalues

/-! ### Instructions -/

section Run

variable [Double N] [Tracking β] (ops : Variables N β)

namespace VM

/-- `break` out of the switch. -/
def goOn (vm : VM N β) : Option (Outcome N β) := some (.running vm)

/-- `runtimeError` and `return INTERPRET_RUNTIME_ERROR`. -/
def fail (message : String) (vm : VM N β) : Option (Outcome N β) :=
  some (.finished .runtimeError (vm.runtimeError message))

/-- `if (!...) return INTERPRET_RUNTIME_ERROR;` around a call. -/
def check : Option (Bool × VM N β) → Option (Outcome N β)
  | none => none
  | some (true, vm) => some (.running vm)
  | some (false, vm) => some (.finished .runtimeError vm)

/-- `BINARY_OP`. -/
def binaryOp (op : N → N → Value N) (vm : VM N β) : Option (Outcome N β) :=
  match vm.peek 1, vm.peek 0 with
  | .number a, .number b => ((vm.pop 2).push (op a b)).goOn
  | _, _ => vm.fail "Operands must be numbers."

/-- `OP_ADD`. -/
def add (vm : VM N β) : Option (Outcome N β) :=
  match vm.peek 1, vm.peek 0 with
  | .string a, .string b => ((vm.pop 2).push (.string (a ++ b))).goOn
  | .number a, .number b => ((vm.pop 2).push (.number (Double.add a b))).goOn
  | _, _ => vm.fail "Operands must be two numbers or two strings."

/-- `OP_NEGATE`. -/
def negate (vm : VM N β) : Option (Outcome N β) :=
  match vm.peek 0 with
  | .number n => ((vm.pop 1).push (.number (Double.neg n))).goOn
  | _ => vm.fail "Operand must be a number."

/-- `OP_CONSTANT`; a function is never pushed. -/
def constant (k : UInt8) (function : ObjFunction N) (vm : VM N β) : Option (Outcome N β) :=
  match function.constants[k.toNat]? with
  | some (.number n) => (vm.push (.number n)).goOn
  | some (.string s) => (vm.push (.string s)).goOn
  | _ => none

/-- The error for a missing global variable. -/
def undefinedVariable (name : Name) (vm : VM N β) : Option (Outcome N β) :=
  let text := String.ofList name
  vm.fail s!"Undefined variable '{text}'."

/-- `OP_GET_GLOBAL`. -/
def getGlobal (name : Name) (vm : VM N β) : Option (Outcome N β) :=
  match vm.globals name with
  | some value => (vm.push value).goOn
  | none => vm.undefinedVariable name

/-- `OP_SET_GLOBAL`: an entry that was new is deleted again. -/
def setGlobal (name : Name) (vm : VM N β) : Option (Outcome N β) :=
  match vm.globals name with
  | some _ => { vm with globals := vm.globals.set name (vm.peek 0) }.goOn
  | none => vm.undefinedVariable name

/-- `OP_GET_PROPERTY`. -/
def getProperty (name : Name) (vm : VM N β) : Option (Outcome N β) :=
  match vm.asInstance (vm.peek 0) with
  | none => vm.fail "Only instances have properties."
  | some (_, klass, fields) =>
    match fields name with
    | some value => ((vm.pop 1).push value).goOn
    | none => do
        let (_, _, methods) ← vm.asClass (.obj klass)
        check (vm.bindMethod methods name)

/-- `OP_SET_PROPERTY`. -/
def setProperty (name : Name) (vm : VM N β) : Option (Outcome N β) :=
  match vm.asInstance (vm.peek 1) with
  | none => vm.fail "Only instances have fields."
  | some (a, klass, fields) =>
    let value := vm.peek 0
    (((vm.update a (.inst klass (fields.set name value))).pop 2).push value).goOn

/-- `OP_METHOD`: `defineMethod`. -/
def defineMethod (name : Name) (vm : VM N β) : Option (Outcome N β) := do
  let (a, className, methods) ← vm.asClass (vm.peek 1)
  ((vm.update a (.klass className (methods.set name (vm.peek 0)))).pop 1).goOn

/-- `OP_INHERIT`. -/
def inherit_ (vm : VM N β) : Option (Outcome N β) :=
  match vm.asClass (vm.peek 1) with
  | none => vm.fail "Superclass must be a class."
  | some (_, _, inherited) => do
      let (a, className, methods) ← vm.asClass (vm.peek 0)
      ((vm.update a (.klass className (inherited.addAll methods))).pop 1).goOn

/-- `OP_SUPER_INVOKE`. -/
def superInvoke (name : Name) (argCount : ℕ) (vm : VM N β) : Option (Outcome N β) := do
  let (_, _, methods) ← vm.asClass (vm.peek 0)
  check ((vm.pop 1).invokeFromClass methods name argCount)

/-- `OP_GET_SUPER`. -/
def getSuper (name : Name) (vm : VM N β) : Option (Outcome N β) := do
  let (_, _, methods) ← vm.asClass (vm.peek 0)
  check ((vm.pop 1).bindMethod methods name)

/-- The loop of `OP_CLOSURE`: `slots` and `enclosing` are those of the frame. -/
def captures (slots : ℕ) (enclosing : List (Option Addr)) :
    List Upvalue → VM N β → Option (List (Option Addr) × VM N β)
  | [], vm => some ([], vm)
  | u :: us, vm =>
    if u.isLocal then do
      let (a, vm) ← ops.captureUpvalue (slots + u.index.toNat) vm
      let (as, vm) ← captures slots enclosing us vm
      return (some a :: as, vm)
    else do
      let a ← enclosing[u.index.toNat]?
      let (as, vm) ← captures slots enclosing us vm
      return (a :: as, vm)

/-- `OP_CLOSURE`. -/
def makeClosure (slots : ℕ) (enclosing : List (Option Addr)) (function : ObjFunction N)
    (us : List Upvalue) (vm : VM N β) : Option (Outcome N β) := do
  let (a, vm) := vm.allocate (.closure function (List.replicate function.upvalueCount none))
  let (upvalues, vm) ← captures ops slots enclosing us (vm.push (.obj a))
  (vm.update a (.closure function upvalues)).goOn

/-- `OP_RETURN`. -/
def return_ (frame : CallFrame) (frames : List CallFrame) (vm : VM N β) :
    Option (Outcome N β) := do
  let result := vm.peek 0
  let vm ← ops.closeUpvalues frame.slots (vm.pop 1)
  let vm := { vm with frames := frames }
  if frames.isEmpty then return .finished .ok (vm.pop 1)
  else ((vm.truncate frame.slots).push result).goOn

/-- Move the instruction pointer of the current frame. -/
def jumpTo (ip : ℕ) (vm : VM N β) : VM N β :=
  { vm with frames := vm.frames.modifyHead fun frame => { frame with ip := ip } }

/-- `OP_GET_UPVALUE`. -/
def readUpvalue (slot : UInt8) (upvalues : List (Option Addr)) (vm : VM N β) :
    Option (Outcome N β) := do
  let a ← (upvalues[slot.toNat]?).join
  let value ← ops.getUpvalue a vm
  (vm.push value).goOn

/-- `OP_SET_UPVALUE`. -/
def writeUpvalue (slot : UInt8) (upvalues : List (Option Addr)) (vm : VM N β) :
    Option (Outcome N β) := do
  let a ← (upvalues[slot.toNat]?).join
  let vm ← ops.setUpvalue a (vm.peek 0) vm
  vm.goOn

end VM

open VM

/-- The body of the `switch` in `run`: `frame` is the current frame with the `ip` after the
instruction, `frames` are the frames below it, `function` and `upvalues` are those of its closure. -/
def execute (frame : CallFrame) (frames : List CallFrame) (function : ObjFunction N)
    (upvalues : List (Option Addr)) (vm : VM N β) : Instr → Option (Outcome N β)
  | .constant k => vm.constant k function
  | .nil => (vm.push .nil).goOn
  | .true_ => (vm.push (.bool true)).goOn
  | .false_ => (vm.push (.bool false)).goOn
  | .pop => (vm.pop 1).goOn
  | .getLocal slot => do
      let value ← ops.getLocal (frame.slots + slot.toNat) vm
      (vm.push value).goOn
  | .setLocal slot => do
      let vm ← ops.setLocal (frame.slots + slot.toNat) (vm.peek 0) vm
      vm.goOn
  | .getGlobal k => do
      let name ← stringAt function.constants k
      vm.getGlobal name
  | .defineGlobal k => do
      let name ← stringAt function.constants k
      ({ vm with globals := vm.globals.set name (vm.peek 0) }.pop 1).goOn
  | .setGlobal k => do
      let name ← stringAt function.constants k
      vm.setGlobal name
  | .getUpvalue slot => vm.readUpvalue ops slot upvalues
  | .setUpvalue slot => vm.writeUpvalue ops slot upvalues
  | .equal => ((vm.pop 2).push (.bool (valuesEqual (vm.peek 1) (vm.peek 0)))).goOn
  | .greater => vm.binaryOp fun a b => .bool (Double.lt b a)
  | .less => vm.binaryOp fun a b => .bool (Double.lt a b)
  | .add => vm.add
  | .subtract => vm.binaryOp fun a b => .number (Double.sub a b)
  | .multiply => vm.binaryOp fun a b => .number (Double.mul a b)
  | .divide => vm.binaryOp fun a b => .number (Double.div a b)
  | .not => ((vm.pop 1).push (.bool (isFalsey (vm.peek 0)))).goOn
  | .negate => vm.negate
  | .jump offset => (vm.jumpTo (frame.ip + offset)).goOn
  | .jumpIfFalse offset =>
      if isFalsey (vm.peek 0) then (vm.jumpTo (frame.ip + offset)).goOn else vm.goOn
  | .print => do
      let printed ← vm.printValue (vm.peek 0)
      ({ vm with stdout := vm.stdout ++ [printed] }.pop 1).goOn
  | .loop offset => if frame.ip < offset then none else (vm.jumpTo (frame.ip - offset)).goOn
  | .call argCount => check (vm.callValue (vm.peek argCount.toNat) argCount.toNat)
  | .method k => do
      let name ← stringAt function.constants k
      vm.defineMethod name
  | .closure k us => do
      let f ← functionAt function.constants k
      vm.makeClosure ops frame.slots upvalues f us
  | .closeUpvalue => do
      let vm ← ops.closeUpvalues (vm.stackTop - 1) vm
      (vm.pop 1).goOn
  | .getProperty k => do
      let name ← stringAt function.constants k
      vm.getProperty name
  | .setProperty k => do
      let name ← stringAt function.constants k
      vm.setProperty name
  | .inherit => vm.inherit_
  | .invoke k argCount => do
      let name ← stringAt function.constants k
      check (vm.invoke name argCount.toNat)
  | .class_ k => do
      let name ← stringAt function.constants k
      let (a, vm) := vm.allocate (.klass name Table.empty)
      (vm.push (.obj a)).goOn
  | .superInvoke k argCount => do
      let name ← stringAt function.constants k
      vm.superInvoke name argCount.toNat
  | .getSuper k => do
      let name ← stringAt function.constants k
      vm.getSuper name
  | .return_ => vm.return_ ops frame frames

/-- One turn of the loop in `run`: fetch an instruction and execute it. -/
def stepWith (vm : VM N β) : Option (Outcome N β) :=
  match vm.frames with
  | [] => none
  | frame :: frames => do
      let (function, upvalues) ← vm.asClosure frame.closure
      let i ← function.fetch frame.ip
      let frame := { frame with ip := frame.ip + i.size }
      if vm.stackTop < i.reads then none
      else execute ops frame frames function upvalues { vm with frames := frame :: frames } i

/-- `run`, for at most `n` instructions. -/
def runWith : ℕ → VM N β → Option (Outcome N β)
  | 0, vm => some (.running vm)
  | n + 1, vm =>
    match stepWith ops vm with
    | some (.running vm) => runWith n vm
    | outcome => outcome

/-- An instruction that is there and finds its operands is executed. -/
theorem stepWith_eq {vm : VM N β} {frame : CallFrame} {rest : List CallFrame}
    {function : ObjFunction N} {upvalues : List (Option Addr)} {i : Instr}
    (hframes : vm.frames = frame :: rest)
    (hclosure : vm.asClosure frame.closure = some (function, upvalues))
    (hfetch : function.fetch frame.ip = some i) (hreads : i.reads ≤ vm.stackTop) :
    stepWith ops vm = execute ops { frame with ip := frame.ip + i.size } rest function upvalues
      { vm with frames := { frame with ip := frame.ip + i.size } :: rest } i := by
  simp only [stepWith, hframes, hclosure, hfetch, Option.bind_eq_bind, Option.bind_some]
  exact if_neg (not_lt.2 hreads)

theorem runWith_succ {n : ℕ} {vm vm₁ : VM N β} (h : stepWith ops vm = some (.running vm₁)) :
    runWith ops (n + 1) vm = runWith ops n vm₁ := by
  simp [runWith, h]

theorem runWith_add {m n : ℕ} {vm vm₁ : VM N β} (h : runWith ops m vm = some (.running vm₁)) :
    runWith ops (m + n) vm = runWith ops n vm₁ := by
  induction m generalizing vm with
  | zero =>
    cases h
    rw [Nat.zero_add]
  | succ m ih =>
    rw [Nat.succ_add]
    unfold runWith at h
    split at h
    · rename_i vm' hstep
      rw [runWith_succ ops hstep]
      exact ih h
    · rename_i hfinal
      exact absurd h (hfinal vm₁)

/-- What every instruction preserves holds after a run. -/
theorem runWith_invariant {P : VM N β → Prop}
    (hstep : ∀ vm vm', P vm → stepWith ops vm = some (.running vm') → P vm') {n : ℕ} {vm vm' : VM N β}
    (hvm : P vm) (h : runWith ops n vm = some (.running vm')) : P vm' := by
  induction n generalizing vm with
  | zero =>
    cases h
    exact hvm
  | succ n ih =>
    unfold runWith at h
    split at h
    · rename_i vm₁ hvm₁
      exact ih (hstep vm vm₁ hvm hvm₁) h
    · rename_i hfinal
      exact absurd h (hfinal vm')

/-- `vm'` is reached from `vm` by instructions each of which is executed in a state that has the
property `P`. -/
inductive ReachesWhile (P : VM N β → Prop) (vm : VM N β) : VM N β → Prop where
  | refl : ReachesWhile P vm vm
  | step {vm₁ vm₂ : VM N β} (reaches : ReachesWhile P vm vm₁) (holds : P vm₁)
      (step : stepWith ops vm₁ = some (.running vm₂)) : ReachesWhile P vm vm₂

end Run

/-- The instruction that is fetched next, with the constants it refers to. -/
def VM.current (vm : VM N β) : Option (Instr × List (Constant N)) := do
  let frame ← vm.frames.head?
  let (function, _) ← vm.asClosure frame.closure
  let i ← function.fetch frame.ip
  return (i, function.constants)

/-- The state an instruction leaves. -/
def Outcome.vm : Outcome N β → VM N β
  | .running vm => vm
  | .finished _ vm => vm

/-- A machine as `initVM` leaves it: the only global is `clock`. -/
def VM.init [Tracking β] (clock : ℕ → N) : VM N β where
  frames := []
  stack _ := .nil
  stackTop := 0
  globals := Table.empty.set "clock".toList (.obj 0)
  upvalues := ∅
  objects := [.native]
  stdout := []
  stderr := []
  clock := clock
  ticks := 0

/-- What `interpret` does before `run`: the closure of the script is called. -/
def VM.start [Tracking β] (function : ObjFunction N) (vm : VM N β) : VM N β :=
  let (a, vm) := vm.allocate (.closure function (List.replicate function.upvalueCount none))
  let vm := vm.push (.obj a)
  match vm.call a 0 with
  | some (_, vm) => vm
  | none => vm

/-- One instruction of `vm.c`. -/
def step [Double N] (vm : VM N (List Addr)) : Option (Outcome N (List Addr)) :=
  stepWith openUpvalues vm

/-- `run` of `vm.c`, for at most `n` instructions. -/
def run [Double N] (n : ℕ) (vm : VM N (List Addr)) : Option (Outcome N (List Addr)) :=
  runWith openUpvalues n vm

end Lox.Clox
