import Lox.Clox.HashTable

/-!
# The objects of clox in memory

Here an object is a block of memory with an address: it has a mark and a link to the next object,
strings are objects like others, and arrays have a capacity of their own.

* `Data` are the fields of the eight types of objects, `VM` the globals of `vm.c` that a collection
  of garbage reads or writes, with the functions of the active compilers.
* The stack and the frames are lists with the bottom first, and the open upvalues are a list.
* `Ledger` is what `reallocate` counts.  `bytesAllocated` is an integer here, so that it could become
  negative.  `blocks` and `sizesRight` are not in the source: `blocks` is what the allocator knows, the
  size of the block behind every pointer, 0 for `NULL`, and `sizesRight` says whether `reallocate` has
  always been told the right old size.
-/

namespace Lox.Clox.Memory

/-- `Value`, with strings among the objects. -/
inductive Value (N : Type) where
  | nil
  | bool (b : Bool)
  | number (n : N)
  | obj (a : Addr)
  deriving DecidableEq, Repr

instance (N : Type) : TableValue (Value N) where
  nil := .nil
  isNil
    | .nil => true
    | _ => false
  true_ := .bool true
  isNil_nil := rfl
  isNil_true := rfl

/-- `Table`. -/
abbrev Table (N : Type) := HashTable Addr (Value N)

/-- `ValueArray`; `count` is the length of `values`. -/
structure ValueArray (N : Type) where
  capacity : ℕ
  values : List (Value N)

/-- `Chunk`; `count` is the length of `code` and of `lines`. -/
structure Chunk (N : Type) where
  capacity : ℕ
  code : List UInt8
  lines : List ℕ
  constants : ValueArray N

/-- What the types of objects have besides the header. -/
inductive Data (N : Type) where
  | boundMethod (receiver : Value N) (method : Addr)
  | native
  | inst (klass : Addr) (fields : Table N)
  | klass (name : Addr) (methods : Table N)
  | function (arity upvalueCount : ℕ) (chunk : Chunk N) (name : Option Addr)
  | closure (function : Addr) (upvalues : List (Option Addr))
  | string (chars : Name) (hash : UInt32)
  | upvalue (location : Option ℕ) (closed : Value N)

/-- `Obj`. -/
structure Obj (N : Type) where
  isMarked : Bool
  next : Option Addr
  data : Data N

/-- A table of the machine or of an object. -/
inductive TableRef where
  | globals
  | strings
  | methods (a : Addr)
  | fields (a : Addr)
  deriving DecidableEq, Repr

/-- A pointer to memory from `reallocate`: an object, an array of one, the entries of a table, or a
local variable of the function that is running. -/
inductive Block where
  | object (a : Addr)
  | code (a : Addr)
  | lines (a : Addr)
  | constants (a : Addr)
  | upvalues (a : Addr)
  | chars (a : Addr)
  | entries (table : TableRef)
  | scratch
  deriving DecidableEq, Repr

/-- `sizeof`, of the types of objects and of what is in arrays. -/
structure Sizes where
  boundMethod : ℕ
  native : ℕ
  inst : ℕ
  klass : ℕ
  function : ℕ
  closure : ℕ
  string : ℕ
  upvalue : ℕ
  entry : ℕ
  value : ℕ
  pointer : ℕ
  int : ℕ
  entry_pos : 0 < entry

/-- The sizes on a machine with pointers of 8 bytes. -/
def lp64 : Sizes where
  boundMethod := 32
  native := 24
  inst := 40
  klass := 40
  function := 72
  closure := 40
  string := 40
  upvalue := 40
  entry := 16
  value := 8
  pointer := 8
  int := 4
  entry_pos := by decide

/-- `vm.bytesAllocated`, with what the allocator knows. -/
structure Ledger where
  bytesAllocated : ℤ
  blocks : Block → ℕ
  sizesRight : Bool

/-- The memory of the machine. -/
structure VM (N : Type) where
  heap : Addr → Option (Obj N)
  objects : Option Addr
  stack : List (Value N)
  frames : List Addr
  openUpvalues : List Addr
  globals : Table N
  strings : Table N
  compilers : List Addr
  initString : Option Addr
  grayStack : List Addr
  nextGC : ℤ
  ledger : Ledger

variable {N : Type}

/-! ### References -/

def Value.refs : Value N → List Addr
  | .obj a => [a]
  | _ => []

/-- The objects a table refers to. -/
def tableRefs (table : Table N) : List Addr :=
  table.entries.flatMap fun entry => entry.key.toList ++ entry.value.refs

/-- The objects an object refers to. -/
def Data.refs : Data N → List Addr
  | .boundMethod receiver method => receiver.refs ++ [method]
  | .inst of fields => of :: tableRefs fields
  | .klass name methods => name :: tableRefs methods
  | .closure code upvalues => code :: upvalues.flatMap Option.toList
  | .function _ _ chunk name => name.toList ++ chunk.constants.values.flatMap Value.refs
  | .upvalue _ closed => closed.refs
  | .native => []
  | .string _ _ => []

namespace VM

/-- The objects that `markRoots` starts from. -/
def roots (vm : VM N) : List Addr :=
  vm.stack.flatMap Value.refs ++ vm.frames ++ vm.openUpvalues ++ tableRefs vm.globals ++
    vm.compilers ++ vm.initString.toList

/-- The fields of the object at an address. -/
def dataAt (vm : VM N) (a : Addr) : Option (Data N) := (vm.heap a).map Obj.data

/-- The references of the object at an address. -/
def refs (vm : VM N) (a : Addr) : List Addr := ((vm.dataAt a).map Data.refs).getD []

/-- `string->hash`, of a string. -/
def hash (vm : VM N) (a : Addr) : UInt32 :=
  match vm.dataAt a with
  | some (.string _ hash) => hash
  | _ => 0

/-- `string->chars`, of a string. -/
def chars (vm : VM N) (a : Addr) : Name :=
  match vm.dataAt a with
  | some (.string chars _) => chars
  | _ => []

/-- `object->next`. -/
def link (vm : VM N) (a : Addr) : Option Addr := (vm.heap a).bind Obj.next

/-- `object->isMarked`. -/
def isMarked (vm : VM N) (a : Addr) : Bool := (vm.heap a).any Obj.isMarked

end VM

/-! ### Sizes -/

/-- The size of the object itself. -/
def Data.size (size : Sizes) : Data N → ℕ
  | .boundMethod _ _ => size.boundMethod
  | .native => size.native
  | .inst _ _ => size.inst
  | .klass _ _ => size.klass
  | .function _ _ _ _ => size.function
  | .closure _ _ => size.closure
  | .string _ _ => size.string
  | .upvalue _ _ => size.upvalue

/-- The arrays of an object, with their sizes. -/
def Data.arrays (size : Sizes) (a : Addr) : Data N → List (Block × ℕ)
  | .inst _ fields => [(.entries (.fields a), size.entry * fields.capacity)]
  | .klass _ methods => [(.entries (.methods a), size.entry * methods.capacity)]
  | .function _ _ chunk _ =>
    [(.code a, chunk.capacity), (.lines a, size.int * chunk.capacity),
      (.constants a, size.value * chunk.constants.capacity)]
  | .closure _ upvalues => [(.upvalues a, size.pointer * upvalues.length)]
  | .string chars _ => [(.chars a, chars.length + 1)]
  | .boundMethod _ _ => []
  | .native => []
  | .upvalue _ _ => []

/-- The blocks an object consists of: its arrays, in the order in which `freeObject` frees them, and
itself. -/
def Data.blocks (size : Sizes) (a : Addr) (data : Data N) : List (Block × ℕ) :=
  data.arrays size a ++ [(.object a, data.size size)]

/-! ### Freeing -/

/-- The first line of `reallocate`; the pointer may be `NULL`. -/
def Ledger.account (pointer : Option Block) (oldSize newSize : ℕ) (l : Ledger) : Ledger :=
  { l with
    bytesAllocated := l.bytesAllocated + (newSize - oldSize)
    sizesRight := l.sizesRight && (pointer.map l.blocks).getD 0 = oldSize }

/-- The block behind a pointer has a new size. -/
def Ledger.resize (block : Block) (newSize : ℕ) (l : Ledger) : Ledger :=
  { l with blocks := Function.update l.blocks block newSize }

/-- `reallocate` to the size 0. -/
def Ledger.free (block : Block) (oldSize : ℕ) (l : Ledger) : Ledger :=
  (l.account (some block) oldSize 0).resize block 0

/-- What `freeObject` frees. -/
def Ledger.freeObject (size : Sizes) (a : Addr) (data : Data N) (l : Ledger) : Ledger :=
  (data.blocks size a).foldl (fun l block => l.free block.1 block.2) l

/-- `freeObject`. -/
def VM.freeObject (size : Sizes) (a : Addr) (data : Data N) (vm : VM N) : VM N :=
  { vm with heap := Function.update vm.heap a none, ledger := vm.ledger.freeObject size a data }

end Lox.Clox.Memory
