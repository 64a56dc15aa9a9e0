import Lox.Clox.Token

/-!
# Bytecode: opcodes, constants, functions, instructions

* `OpCode` is the enumeration of `chunk.h`, in its order; `OpCode.byte` is the byte the
  compiler writes for it.
* `Double` is the interface to numbers; the development is generic in it.
* `Constant` and `ObjFunction` are what `compile` produces.  A function object is never
  changed once its compiler has ended, so it is kept as a tree: a constant that is a function
  holds the function itself.
* `Instr` is an instruction with its operands read; `Instr.encode` is its byte form and
  `ObjFunction.fetch` is what `run` reads at an instruction pointer with `READ_BYTE`,
  `READ_SHORT` and `READ_CONSTANT`.
-/

namespace Lox.Clox

/-- `OpCode` of `chunk.h`, in the order of the C enumeration. -/
inductive OpCode where
  | constant | nil | true_ | false_ | pop
  | getLocal | setLocal | getGlobal | defineGlobal
  | setProperty | getProperty
  | setGlobal | getUpvalue | setUpvalue
  | equal | greater | less | add | method | subtract | multiply | divide
  | not | negate | print
  | jump | jumpIfFalse | loop
  | call | closure | closeUpvalue | return_
  | class_ | invoke | inherit | getSuper | superInvoke
  deriving DecidableEq, Repr

/-- Every opcode, at the position its byte names. -/
def opCodes : List OpCode :=
  [.constant, .nil, .true_, .false_, .pop, .getLocal, .setLocal, .getGlobal, .defineGlobal,
   .setProperty, .getProperty, .setGlobal, .getUpvalue, .setUpvalue, .equal, .greater, .less,
   .add, .method, .subtract, .multiply, .divide, .not, .negate, .print, .jump, .jumpIfFalse,
   .loop, .call, .closure, .closeUpvalue, .return_, .class_, .invoke, .inherit, .getSuper,
   .superInvoke]

/-- The byte of an opcode. -/
def OpCode.byte (op : OpCode) : UInt8 := UInt8.ofNat (opCodes.idxOf op)

/-- The opcode of a byte, if it is one. -/
def OpCode.ofByte (b : UInt8) : Option OpCode := opCodes[b.toNat]?

@[simp] theorem OpCode.ofByte_byte (op : OpCode) : OpCode.ofByte op.byte = some op := by
  cases op <;> rfl

/-- The C type `double` as the interpreter uses it: literals, arithmetic and the two
comparisons.  Nothing is assumed of the operations here. -/
class Double (N : Type) where
  strtod : List Char → N
  add : N → N → N
  sub : N → N → N
  mul : N → N → N
  div : N → N → N
  neg : N → N
  lt : N → N → Bool
  eq : N → N → Bool

/-- Whole numbers, to run examples with. -/
instance : Double ℤ where
  strtod text := (text.takeWhile Char.isDigit).foldl (fun n c => 10 * n + ((c.toNat : ℤ) - 48)) 0
  add a b := a + b
  sub a b := a - b
  mul a b := a * b
  div a b := a / b
  neg a := -a
  lt a b := decide (a < b)
  eq a b := decide (a = b)

/-- `ObjFunction`, with the chunk's code and constant pool (`V` is the type of constants). -/
structure Function (V : Type) where
  arity : ℕ
  upvalueCount : ℕ
  code : List UInt8
  constants : List V
  name : Option Name

/-- A value the compiler puts into a constant pool. -/
inductive Constant (N : Type) where
  | number (n : N)
  | string (s : Name)
  | function (f : Function (Constant N))

/-- The function objects of a program over numbers `N`. -/
abbrev ObjFunction (N : Type) := Function (Constant N)

/-- `isLocal` and `index` of one captured variable. -/
structure Upvalue where
  index : UInt8
  isLocal : Bool
  deriving DecidableEq, Repr

/-- The two bytes `OP_CLOSURE` carries for one capture. -/
def Upvalue.bytes (u : Upvalue) : List UInt8 := [if u.isLocal then 1 else 0, u.index]

/-- An instruction with its operands.  Jump distances are the two operand bytes read as one
big-endian number. -/
inductive Instr where
  | constant (k : UInt8)
  | nil | true_ | false_ | pop
  | getLocal (slot : UInt8)
  | setLocal (slot : UInt8)
  | getGlobal (k : UInt8)
  | defineGlobal (k : UInt8)
  | setProperty (k : UInt8)
  | getProperty (k : UInt8)
  | setGlobal (k : UInt8)
  | getUpvalue (slot : UInt8)
  | setUpvalue (slot : UInt8)
  | equal | greater | less | add
  | method (k : UInt8)
  | subtract | multiply | divide | not | negate | print
  | jump (offset : ℕ)
  | jumpIfFalse (offset : ℕ)
  | loop (offset : ℕ)
  | call (argCount : UInt8)
  | closure (k : UInt8) (captures : List Upvalue)
  | closeUpvalue | return_
  | class_ (k : UInt8)
  | invoke (k : UInt8) (argCount : UInt8)
  | inherit
  | getSuper (k : UInt8)
  | superInvoke (k : UInt8) (argCount : UInt8)
  deriving DecidableEq, Repr

/-- The bytes of a two-byte operand, high byte first; a distance above 65535 loses its upper
bits, as `(jump >> 8) & 0xff` and `jump & 0xff` do. -/
def shortBytes (offset : ℕ) : List UInt8 := [UInt8.ofNat (offset / 256), UInt8.ofNat offset]

/-- `READ_SHORT` on the two bytes. -/
def readShort (hi lo : UInt8) : ℕ := hi.toNat * 256 + lo.toNat

/-- The bytes of an instruction as the compiler lays them out. -/
def Instr.encode : Instr → List UInt8
  | .constant k => [OpCode.constant.byte, k]
  | .nil => [OpCode.nil.byte]
  | .true_ => [OpCode.true_.byte]
  | .false_ => [OpCode.false_.byte]
  | .pop => [OpCode.pop.byte]
  | .getLocal slot => [OpCode.getLocal.byte, slot]
  | .setLocal slot => [OpCode.setLocal.byte, slot]
  | .getGlobal k => [OpCode.getGlobal.byte, k]
  | .defineGlobal k => [OpCode.defineGlobal.byte, k]
  | .setProperty k => [OpCode.setProperty.byte, k]
  | .getProperty k => [OpCode.getProperty.byte, k]
  | .setGlobal k => [OpCode.setGlobal.byte, k]
  | .getUpvalue slot => [OpCode.getUpvalue.byte, slot]
  | .setUpvalue slot => [OpCode.setUpvalue.byte, slot]
  | .equal => [OpCode.equal.byte]
  | .greater => [OpCode.greater.byte]
  | .less => [OpCode.less.byte]
  | .add => [OpCode.add.byte]
  | .method k => [OpCode.method.byte, k]
  | .subtract => [OpCode.subtract.byte]
  | .multiply => [OpCode.multiply.byte]
  | .divide => [OpCode.divide.byte]
  | .not => [OpCode.not.byte]
  | .negate => [OpCode.negate.byte]
  | .print => [OpCode.print.byte]
  | .jump offset => OpCode.jump.byte :: shortBytes offset
  | .jumpIfFalse offset => OpCode.jumpIfFalse.byte :: shortBytes offset
  | .loop offset => OpCode.loop.byte :: shortBytes offset
  | .call argCount => [OpCode.call.byte, argCount]
  | .closure k captures => OpCode.closure.byte :: k :: captures.flatMap Upvalue.bytes
  | .closeUpvalue => [OpCode.closeUpvalue.byte]
  | .return_ => [OpCode.return_.byte]
  | .class_ k => [OpCode.class_.byte, k]
  | .invoke k argCount => [OpCode.invoke.byte, k, argCount]
  | .inherit => [OpCode.inherit.byte]
  | .getSuper k => [OpCode.getSuper.byte, k]
  | .superInvoke k argCount => [OpCode.superInvoke.byte, k, argCount]

/-- The number of bytes of an instruction. -/
def Instr.size (i : Instr) : ℕ := i.encode.length

/-- The bytes of a sequence of instructions. -/
def encodeAll (is : List Instr) : List UInt8 := is.flatMap Instr.encode

/-- The number of bytes of a sequence of instructions. -/
def codeSize (is : List Instr) : ℕ := (encodeAll is).length

/-- The capture pairs `OP_CLOSURE` reads after its constant: `isLocal`, then `index`. -/
def readCaptures : ℕ → List UInt8 → Option (List Upvalue)
  | 0, _ => some []
  | n + 1, isLocal :: index :: rest => do
      let us ← readCaptures n rest
      return ⟨index, isLocal != 0⟩ :: us
  | _ + 1, _ => none

variable {N : Type}

/-- The function a constant index names, as `AS_FUNCTION(READ_CONSTANT())` takes it. -/
def functionAt (constants : List (Constant N)) (k : UInt8) : Option (ObjFunction N) :=
  match constants[k.toNat]? with
  | some (.function f) => some f
  | _ => none

/-- The string a constant index names, as `READ_STRING` takes it. -/
def stringAt (constants : List (Constant N)) (k : UInt8) : Option Name :=
  match constants[k.toNat]? with
  | some (.string s) => some s
  | _ => none

/-- The instruction at the head of a byte sequence. -/
def decode (constants : List (Constant N)) : List UInt8 → Option Instr
  | [] => none
  | b :: rest =>
    match OpCode.ofByte b, rest with
    | some .constant, k :: _ => some (.constant k)
    | some .nil, _ => some .nil
    | some .true_, _ => some .true_
    | some .false_, _ => some .false_
    | some .pop, _ => some .pop
    | some .getLocal, slot :: _ => some (.getLocal slot)
    | some .setLocal, slot :: _ => some (.setLocal slot)
    | some .getGlobal, k :: _ => some (.getGlobal k)
    | some .defineGlobal, k :: _ => some (.defineGlobal k)
    | some .setProperty, k :: _ => some (.setProperty k)
    | some .getProperty, k :: _ => some (.getProperty k)
    | some .setGlobal, k :: _ => some (.setGlobal k)
    | some .getUpvalue, slot :: _ => some (.getUpvalue slot)
    | some .setUpvalue, slot :: _ => some (.setUpvalue slot)
    | some .equal, _ => some .equal
    | some .greater, _ => some .greater
    | some .less, _ => some .less
    | some .add, _ => some .add
    | some .method, k :: _ => some (.method k)
    | some .subtract, _ => some .subtract
    | some .multiply, _ => some .multiply
    | some .divide, _ => some .divide
    | some .not, _ => some .not
    | some .negate, _ => some .negate
    | some .print, _ => some .print
    | some .jump, hi :: lo :: _ => some (.jump (readShort hi lo))
    | some .jumpIfFalse, hi :: lo :: _ => some (.jumpIfFalse (readShort hi lo))
    | some .loop, hi :: lo :: _ => some (.loop (readShort hi lo))
    | some .call, argCount :: _ => some (.call argCount)
    | some .closure, k :: rest =>
        match functionAt constants k with
        | some f => (readCaptures f.upvalueCount rest).map (.closure k)
        | none => none
    | some .closeUpvalue, _ => some .closeUpvalue
    | some .return_, _ => some .return_
    | some .class_, k :: _ => some (.class_ k)
    | some .invoke, k :: argCount :: _ => some (.invoke k argCount)
    | some .inherit, _ => some .inherit
    | some .getSuper, k :: _ => some (.getSuper k)
    | some .superInvoke, k :: argCount :: _ => some (.superInvoke k argCount)
    | _, _ => none

/-- The instruction `run` reads at `ip`. -/
def Function.fetch (f : ObjFunction N) (ip : ℕ) : Option Instr :=
  decode f.constants (f.code.drop ip)

/-! ### Stack effects -/

/-- How many values an instruction takes off the stack; a call takes the callee and its
arguments. -/
def Instr.pops : Instr → ℕ
  | .pop | .print | .defineGlobal _ | .getProperty _ | .not | .negate | .closeUpvalue | .method _
  | .inherit | .return_ => 1
  | .setProperty _ | .equal | .greater | .less | .add | .subtract | .multiply | .divide
  | .getSuper _ => 2
  | .call argCount | .invoke _ argCount => argCount.toNat + 1
  | .superInvoke _ argCount => argCount.toNat + 2
  | _ => 0

/-- How many values an instruction puts on the stack; a call puts the result there. -/
def Instr.pushes : Instr → ℕ
  | .constant _ | .nil | .true_ | .false_ | .getLocal _ | .getGlobal _ | .getUpvalue _
  | .getProperty _ | .setProperty _ | .equal | .greater | .less | .add | .subtract | .multiply
  | .divide | .not | .negate | .call _ | .invoke _ _ | .superInvoke _ _ | .getSuper _
  | .closure _ _ | .class_ _ => 1
  | _ => 0

/-- How many values on top of the stack an instruction looks at, those it pops included. -/
def Instr.reads (i : Instr) : ℕ :=
  match i with
  | .setLocal _ | .setGlobal _ | .setUpvalue _ | .jumpIfFalse _ => 1
  | .method _ | .inherit => 2
  | i => i.pops

/-! ### Sizes and operands -/

theorem Instr.encode_pop : Instr.pop.encode = [OpCode.pop.byte] := rfl

theorem Instr.encode_inherit : Instr.inherit.encode = [OpCode.inherit.byte] := rfl

theorem Instr.size_pos (i : Instr) : 0 < i.size := by
  cases i <;> simp [Instr.size, Instr.encode]

theorem readShort_ofNat {offset : ℕ} (h : offset ≤ 65535) :
    readShort (UInt8.ofNat (offset / 256)) (UInt8.ofNat offset) = offset := by
  simp only [readShort, UInt8.toNat_ofNat']
  omega

end Lox.Clox
