import Lox.Clox.Memory.Collector
import Lox.Clox.TableInvariant

/-!
# Allocating memory

The functions of `object.c`, `table.c`, `chunk.c` and `value.c` that call `reallocate`, `initVM` and
`freeVM`.  Whether a growing call of `reallocate` collects garbage is a parameter: `VM.due` is the
test of the source, and with `DEBUG_STRESS_GC` every call collects.  The address of a new object is a
parameter, too; the allocator does not give out an address that is in use.

`Operation` are the ways in which `compiler.c` and `vm.c` use these functions, and `Step` is one of
them, after which the program may change the stack, the frames, the open upvalues and the compilers
as long as they refer to live objects.
-/

namespace Lox.Clox.Memory

open HashTable

variable {N : Type}

/-- The test of `reallocate`. -/
def VM.due (vm : VM N) : Bool := vm.nextGC < vm.ledger.bytesAllocated

/-- `hashString`. -/
def hashString (chars : Name) : UInt32 :=
  chars.foldl (fun hash c => (hash ^^^ (UInt8.ofNat c.toNat).toUInt32) * 16777619) 2166136261

/-- `initChunk`. -/
def Chunk.init : Chunk N := ⟨0, [], [], ⟨0, []⟩⟩

namespace VM

/-! ### The stack -/

/-- `push`. -/
def push (value : Value N) (vm : VM N) : VM N := { vm with stack := vm.stack ++ [value] }

/-- `pop`. -/
def pop (vm : VM N) : VM N := { vm with stack := vm.stack.dropLast }

/-! ### Fields of objects -/

/-- Write to an object. -/
def setData (a : Addr) (data : Data N) (vm : VM N) : Option (VM N) := do
  let o ← vm.heap a
  return { vm with heap := Function.update vm.heap a (some { o with data := data }) }

/-- The table behind a pointer. -/
def tableAt (table : TableRef) (vm : VM N) : Option (Table N) :=
  match table with
  | .globals => some vm.globals
  | .strings => some vm.strings
  | .methods a =>
    match vm.dataAt a with
    | some (.klass _ methods) => some methods
    | _ => none
  | .fields a =>
    match vm.dataAt a with
    | some (.inst _ fields) => some fields
    | _ => none

/-- Write to a table. -/
def setTable (table : TableRef) (t : Table N) (vm : VM N) : Option (VM N) :=
  match table with
  | .globals => some { vm with globals := t }
  | .strings => some { vm with strings := t }
  | .methods a =>
    match vm.dataAt a with
    | some (.klass name _) => vm.setData a (.klass name t)
    | _ => none
  | .fields a =>
    match vm.dataAt a with
    | some (.inst klass _) => vm.setData a (.inst klass t)
    | _ => none

/-- A block that a local variable points to goes to its owner. -/
def settle (block : Block) (vm : VM N) : VM N :=
  { vm with
    ledger := (vm.ledger.resize block (vm.ledger.blocks .scratch)).resize .scratch 0 }

section Growing

variable (gc : VM N → Bool) (size : Sizes) (n : ℕ)

/-- `reallocate` to a size that is not 0; the result is stored in `block`. -/
def reallocate (pointer : Option Block) (oldSize newSize : ℕ) (block : Block) (vm : VM N) :
    Option (VM N) := do
  let vm := { vm with ledger := vm.ledger.account pointer oldSize newSize }
  let vm ← if newSize > oldSize ∧ gc vm then vm.collectGarbage size n else some vm
  return { vm with ledger := vm.ledger.resize block newSize }

/-- `ALLOCATE`, for a local variable. -/
def allocate (newSize : ℕ) (vm : VM N) : Option (VM N) :=
  vm.reallocate gc size n none 0 newSize .scratch

/-! ### Objects -/

/-- `allocateObject`, with the fields that the caller sets. -/
def allocateObject (a : Addr) (data : Data N) (vm : VM N) : Option (VM N) := do
  let vm ← vm.reallocate gc size n none 0 (data.size size) (.object a)
  if (vm.heap a).isSome then none
  else return { vm with
    heap := Function.update vm.heap a (some ⟨false, vm.objects, data⟩)
    objects := some a }

/-- `newClosure`. -/
def newClosure (a function : Addr) (vm : VM N) : Option (VM N) :=
  match vm.dataAt function with
  | some (.function _ upvalueCount _ _) => do
    let vm ← vm.allocate gc size n (size.pointer * upvalueCount)
    let vm ← vm.allocateObject gc size n a (.closure function (List.replicate upvalueCount none))
    return vm.settle (.upvalues a)
  | _ => none

/-- `newClass`. -/
def newClass (a name : Addr) (vm : VM N) : Option (VM N) :=
  vm.allocateObject gc size n a (.klass name initTable)

/-- `newInstance`. -/
def newInstance (a klass : Addr) (vm : VM N) : Option (VM N) :=
  vm.allocateObject gc size n a (.inst klass initTable)

/-- `newBoundMethod`. -/
def newBoundMethod (a : Addr) (receiver : Value N) (method : Addr) (vm : VM N) : Option (VM N) :=
  vm.allocateObject gc size n a (.boundMethod receiver method)

/-- `newFunction`. -/
def newFunction (a : Addr) (vm : VM N) : Option (VM N) :=
  vm.allocateObject gc size n a (.function 0 0 Chunk.init none)

/-- `newNative`. -/
def newNative (a : Addr) (vm : VM N) : Option (VM N) := vm.allocateObject gc size n a .native

/-- `newUpvalue`. -/
def newUpvalue (a : Addr) (slot : ℕ) (vm : VM N) : Option (VM N) :=
  vm.allocateObject gc size n a (.upvalue (some slot) .nil)

/-! ### Tables -/

/-- `adjustCapacity`. -/
def adjustCapacity (table : TableRef) (capacity : ℕ) (vm : VM N) : Option (VM N) := do
  let vm ← vm.allocate gc size n (size.entry * capacity)
  let t ← vm.tableAt table
  let t' ← HashTable.adjustCapacity vm.hash capacity t
  let vm := { vm with ledger := vm.ledger.free (.entries table) (size.entry * t.capacity) }
  (vm.settle (.entries table)).setTable table t'

/-- `tableSet`.  Once there is room, `HashTable.tableSet` does not grow the table again. -/
def tableSet (table : TableRef) (key : Addr) (value : Value N) (vm : VM N) : Option (VM N) := do
  let t ← vm.tableAt table
  let vm ← if 4 * (t.count + 1) > 3 * t.capacity then
      vm.adjustCapacity gc size n table (growCapacity t.capacity)
    else some vm
  let t ← vm.tableAt table
  let (_, t) ← HashTable.tableSet vm.hash key value t
  vm.setTable table t

/-! ### Strings -/

/-- `allocateString`, with the characters in a block of their own. -/
def allocateString (a : Addr) (chars : Name) (hash : UInt32) (vm : VM N) : Option (VM N) := do
  let vm ← vm.allocateObject gc size n a (.string chars hash)
  let vm := vm.settle (.chars a)
  let vm := vm.push (.obj a)
  let vm ← vm.tableSet gc size n .strings a .nil
  return vm.pop

/-- `copyString`: the address of the string, and the machine. -/
def copyString (a : Addr) (chars : Name) (vm : VM N) : Option (Addr × VM N) := do
  let hash := hashString chars
  let interned ← tableFindString vm.hash vm.chars chars hash vm.strings
  match interned with
  | some string => return (string, vm)
  | none =>
    let vm ← vm.allocate gc size n (chars.length + 1)
    let vm ← vm.allocateString gc size n a chars hash
    return (a, vm)

/-- `takeString`, of characters in a block of their own. -/
def takeString (a : Addr) (chars : Name) (vm : VM N) : Option (Addr × VM N) := do
  let hash := hashString chars
  let interned ← tableFindString vm.hash vm.chars chars hash vm.strings
  match interned with
  | some string =>
    return (string, { vm with ledger := vm.ledger.free .scratch (chars.length + 1) })
  | none =>
    let vm ← vm.allocateString gc size n a chars hash
    return (a, vm)

/-- `concatenate`, of two strings. -/
def concatenate (a first second : Addr) (vm : VM N) : Option (Addr × VM N) := do
  let chars := vm.chars first ++ vm.chars second
  let vm ← vm.allocate gc size n (chars.length + 1)
  vm.takeString gc size n a chars

/-! ### Chunks -/

/-- Change the chunk of a function. -/
def setChunk (a : Addr) (f : Chunk N → Chunk N) (vm : VM N) : Option (VM N) :=
  match vm.dataAt a with
  | some (.function arity upvalueCount chunk name) =>
    vm.setData a (.function arity upvalueCount (f chunk) name)
  | _ => none

/-- `writeChunk`. -/
def writeChunk (a : Addr) (byte : UInt8) (line : ℕ) (vm : VM N) : Option (VM N) :=
  match vm.dataAt a with
  | some (.function _ _ chunk _) => do
    let vm ← if chunk.capacity < chunk.code.length + 1 then do
        let oldCapacity := chunk.capacity
        let capacity := growCapacity oldCapacity
        let vm ← vm.setChunk a fun chunk => { chunk with capacity := capacity }
        let vm ← vm.reallocate gc size n (some (.code a)) oldCapacity capacity (.code a)
        vm.reallocate gc size n (some (.lines a)) (size.int * oldCapacity) (size.int * capacity)
          (.lines a)
      else some vm
    vm.setChunk a fun chunk =>
      { chunk with code := chunk.code ++ [byte], lines := chunk.lines ++ [line] }
  | _ => none

/-- `writeValueArray`, for the constants of a function. -/
def writeValueArray (a : Addr) (value : Value N) (vm : VM N) : Option (VM N) :=
  match vm.dataAt a with
  | some (.function _ _ chunk _) => do
    let array := chunk.constants
    let vm ← if array.capacity < array.values.length + 1 then do
        let oldCapacity := array.capacity
        let capacity := growCapacity oldCapacity
        let vm ← vm.setChunk a fun chunk =>
          { chunk with constants := { chunk.constants with capacity := capacity } }
        vm.reallocate gc size n (some (.constants a)) (size.value * oldCapacity)
          (size.value * capacity) (.constants a)
      else some vm
    vm.setChunk a fun chunk => { chunk with
      constants := { chunk.constants with values := chunk.constants.values ++ [value] } }
  | _ => none

/-- `addConstant`. -/
def addConstant (a : Addr) (value : Value N) (vm : VM N) : Option (VM N) := do
  let vm ← (vm.push value).writeValueArray gc size n a value
  return vm.pop

/-! ### The life of the machine -/

/-- `freeTable`, for a table of the machine. -/
def freeTable (table : TableRef) (vm : VM N) : Option (VM N) := do
  let t ← vm.tableAt table
  { vm with ledger := vm.ledger.free (.entries table) (size.entry * t.capacity) }.setTable table
    initTable

/-- `vm`, as static storage is initialized. -/
def static : VM N where
  heap _ := none
  objects := none
  stack := []
  frames := []
  openUpvalues := []
  globals := initTable
  strings := initTable
  compilers := []
  initString := none
  grayStack := []
  nextGC := 0
  ledger := ⟨0, fun _ => 0, true⟩

/-- `defineNative`; `a` and `b` are the addresses of the name and of the function. -/
def defineNative (name : Name) (a b : Addr) (vm : VM N) : Option (VM N) := do
  let (string, vm) ← vm.copyString gc size n a name
  let vm := vm.push (.obj string)
  let vm ← vm.newNative gc size n b
  let vm := vm.push (.obj b)
  let vm ← vm.tableSet gc size n .globals string (.obj b)
  return vm.pop.pop

/-- `initVM`. -/
def initVM (a b c : Addr) (vm : VM N) : Option (VM N) := do
  let vm ← vm.freeTable size .globals
  let vm := { vm with stack := [], frames := [], openUpvalues := [] }
  let vm := { vm with objects := none, grayStack := [] }
  let vm := { vm with ledger := { vm.ledger with bytesAllocated := 0 }, nextGC := 1024 * 1024 }
  let vm := { vm with strings := initTable, initString := none }
  let (string, vm) ← vm.copyString gc size n a "init".toList
  let vm := { vm with initString := some string }
  vm.defineNative gc size n "clock".toList b c

end Growing

/-- `freeObjects`. -/
def freeObjects (size : Sizes) : ℕ → Option Addr → VM N → Option (VM N)
  | _, none, vm => some vm
  | 0, some _, _ => none
  | n + 1, some object, vm => do
    let o ← vm.heap object
    freeObjects size n o.next (vm.freeObject size object o.data)

/-- `freeVM`. -/
def freeVM (size : Sizes) (n : ℕ) (vm : VM N) : Option (VM N) := do
  let vm ← vm.freeTable size .strings
  let vm := { vm with initString := none }
  vm.freeObjects size n vm.objects

/-- An object that is a string. -/
def IsString (vm : VM N) (a : Addr) : Prop := ∃ chars hash, vm.dataAt a = some (.string chars hash)

/-- An object that is a function. -/
def IsFunction (vm : VM N) (a : Addr) : Prop :=
  ∃ arity upvalueCount chunk name, vm.dataAt a = some (.function arity upvalueCount chunk name)

end VM

/-! ### What a program does with memory -/

/-- The object a table belongs to. -/
def TableRef.owner : TableRef → Option Addr
  | .globals => none
  | .strings => none
  | .methods a => some a
  | .fields a => some a

/-- Writes to the fields of an object other than tables: captured variables of a closure, upvalues,
and what the compiler does to a function besides growing its chunk. -/
inductive Writes : Data N → Data N → Prop where
  | closure (function : Addr) {upvalues upvalues' : List (Option Addr)}
      (length : upvalues'.length = upvalues.length) :
      Writes (.closure function upvalues) (.closure function upvalues')
  | upvalue (location location' : Option ℕ) (closed closed' : Value N) :
      Writes (.upvalue location closed) (.upvalue location' closed')
  | function (arity arity' upvalueCount upvalueCount' : ℕ) {chunk chunk' : Chunk N}
      (name name' : Option Addr) (capacity : chunk'.capacity = chunk.capacity)
      (constants : chunk'.constants = chunk.constants) :
      Writes (.function arity upvalueCount chunk name) (.function arity' upvalueCount' chunk' name')

/-- A use of memory by the compiler or the machine; new objects have an address `a`. -/
inductive Operation (N : Type) where
  | collect
  | newClosure (a function : Addr)
  | newClass (a name : Addr)
  | newInstance (a klass : Addr)
  | newBoundMethod (a : Addr) (receiver : Value N) (method : Addr)
  | newFunction (a : Addr)
  | newNative (a : Addr)
  | newUpvalue (a : Addr) (slot : ℕ)
  | copyString (a : Addr) (chars : Name)
  | concatenate (a first second : Addr)
  | tableSet (table : TableRef) (key : Addr) (value : Value N)
  | tableDelete (key : Addr)
  | writeChunk (function : Addr) (byte : UInt8) (line : ℕ)
  | addConstant (function : Addr) (value : Value N)
  | assign (a : Addr) (data : Data N)

namespace Operation

/-- The operation, with the addresses it returns. -/
def run (gc : VM N → Bool) (size : Sizes) (n : ℕ) (vm : VM N) :
    Operation N → Option (List Addr × VM N)
  | collect => do return ([], ← vm.collectGarbage size n)
  | newClosure a function => do return ([a], ← vm.newClosure gc size n a function)
  | newClass a name => do return ([a], ← vm.newClass gc size n a name)
  | newInstance a klass => do return ([a], ← vm.newInstance gc size n a klass)
  | newBoundMethod a receiver method => do
      return ([a], ← vm.newBoundMethod gc size n a receiver method)
  | newFunction a => do return ([a], ← vm.newFunction gc size n a)
  | newNative a => do return ([a], ← vm.newNative gc size n a)
  | newUpvalue a slot => do return ([a], ← vm.newUpvalue gc size n a slot)
  | copyString a chars => do
      let (string, vm) ← vm.copyString gc size n a chars
      return ([string], vm)
  | concatenate a first second => do
      let (string, vm) ← vm.concatenate gc size n a first second
      return ([string], vm)
  | tableSet table key value => do return ([], ← vm.tableSet gc size n table key value)
  | tableDelete key => do
      let (_, globals) ← HashTable.tableDelete vm.hash key vm.globals
      return ([], { vm with globals := globals })
  | writeChunk function byte line => do
      return ([], ← vm.writeChunk gc size n function byte line)
  | addConstant function value => do return ([], ← vm.addConstant gc size n function value)
  | assign a data => do return ([], ← vm.setData a data)

/-- What the operation relies on: the objects it is given can be reached from the roots, and are of
the right type.  A constant need not be reachable, since `addConstant` pushes it. -/
def Enabled (vm : VM N) : Operation N → Prop
  | collect => True
  | newClosure _ function => vm.Reachable function ∧ vm.IsFunction function
  | newClass _ name => vm.Reachable name
  | newInstance _ klass => vm.Reachable klass
  | newBoundMethod _ receiver method => (∀ b ∈ receiver.refs, vm.Reachable b) ∧ vm.Reachable method
  | newFunction _ => True
  | newNative _ => True
  | newUpvalue _ _ => True
  | copyString _ _ => True
  | concatenate _ first second => vm.Reachable first ∧ vm.Reachable second
  | tableSet table key value =>
      table ≠ .strings ∧ (∀ a ∈ table.owner, vm.Reachable a) ∧ (vm.tableAt table).isSome ∧
        vm.Reachable key ∧ vm.IsString key ∧ ∀ b ∈ value.refs, vm.Reachable b
  | tableDelete _ => True
  | writeChunk function _ _ => vm.Reachable function ∧ vm.IsFunction function
  | addConstant function value =>
      vm.Reachable function ∧ vm.IsFunction function ∧ ∀ b ∈ value.refs, (vm.heap b).isSome
  | assign a data => (∃ old, vm.dataAt a = some old ∧ Writes old data) ∧ vm.Reachable a ∧
      ∀ b ∈ data.refs, vm.Reachable b

end Operation

/-- The roots that change while a program runs. -/
structure Roots (N : Type) where
  stack : List (Value N)
  frames : List Addr
  openUpvalues : List Addr
  compilers : List Addr

def Roots.addrs (roots : Roots N) : List Addr :=
  roots.stack.flatMap Value.refs ++ roots.frames ++ roots.openUpvalues ++ roots.compilers

def VM.withRoots (roots : Roots N) (vm : VM N) : VM N :=
  { vm with
    stack := roots.stack, frames := roots.frames, openUpvalues := roots.openUpvalues
    compilers := roots.compilers }

/-- One operation, with garbage collected at any of its calls of `reallocate`; afterwards the roots
are any objects that were reachable, or that the operation returned. -/
def Step (size : Sizes) (vm vm' : VM N) : Prop :=
  ∃ gc n op results vm₁ roots, Operation.Enabled vm op ∧
    Operation.run gc size n vm op = some (results, vm₁) ∧
    (∀ a ∈ roots.addrs, vm₁.Reachable a ∨ a ∈ results) ∧ vm' = vm₁.withRoots roots

/-- A state of the machine between `initVM` and `freeVM`. -/
inductive Session (size : Sizes) : VM N → Prop where
  | start {gc : VM N → Bool} {n : ℕ} {a b c : Addr} {vm : VM N}
      (h : VM.static.initVM gc size n a b c = some vm) : Session size vm
  | step {vm vm' : VM N} (h : Session size vm) (hstep : Step size vm vm') : Session size vm'

end Lox.Clox.Memory
