import Lox.Clox.Codegen
import Lox.Clox.VM
import Lox.Jlox.Value

/-!
# Comparison operators in the two implementations

clox compiles `>=` and `<=` to a negated `<` and `>`, and compares numbers with `==`; jlox compares
with the operators themselves, and `isEqual` compares boxed numbers.  `Differs` are the operands on
which that makes a difference.
-/

namespace Lox

open Clox (BinaryOp Instr VM Outcome CallFrame ObjFunction Addr Double)
open Binary64 (Bits isNaN oppositeZeros)

/-- The operators that compare. -/
inductive Comparison where
  | equalEqual | bangEqual | less | lessEqual | greater | greaterEqual
  deriving DecidableEq, Repr

namespace Comparison

/-- The operator in clox. -/
def clox : Comparison → BinaryOp
  | equalEqual => .equalEqual
  | bangEqual => .bangEqual
  | less => .less
  | lessEqual => .lessEqual
  | greater => .greater
  | greaterEqual => .greaterEqual

/-- The token of the operator in jlox. -/
def jlox {N : Type} (line : ℕ) : Comparison → Jlox.Token N
  | equalEqual => ⟨.equalEqual, "==".toList, .nil, line⟩
  | bangEqual => ⟨.bangEqual, "!=".toList, .nil, line⟩
  | less => ⟨.less, "<".toList, .nil, line⟩
  | lessEqual => ⟨.lessEqual, "<=".toList, .nil, line⟩
  | greater => ⟨.greater, ">".toList, .nil, line⟩
  | greaterEqual => ⟨.greaterEqual, ">=".toList, .nil, line⟩

/-- The two implementations give different answers for these operands. -/
def Differs (op : Comparison) (a b : Clox.Value Bits) : Prop :=
  match op, a, b with
  | equalEqual, .number x, .number y | bangEqual, .number x, .number y =>
      (isNaN x = true ∧ isNaN y = true) ∨ oppositeZeros x y
  | lessEqual, .number x, .number y | greaterEqual, .number x, .number y =>
      isNaN x = true ∨ isNaN y = true
  | _, _, _ => False

end Comparison

/-- The value of clox in jlox; `ρ` says which object is which. -/
def Clox.Value.toJlox {N : Type} (ρ : Addr ↪ Jlox.Ref) : Clox.Value N → Jlox.Value N
  | .nil => .nil
  | .bool b => .bool b
  | .number n => .number n
  | .string s => .string s
  | .obj a => .obj (ρ a)

namespace Clox

variable {N : Type} [Double N] {β : Type} [Tracking β] (ops : Variables N β)

/-- Instructions, executed one after the other. -/
def executeAll (frame : CallFrame) (frames : List CallFrame) (function : ObjFunction N)
    (upvalues : List (Option Addr)) : List Instr → VM N β → Option (Outcome N β)
  | [], vm => some (.running vm)
  | i :: is, vm =>
    match execute ops frame frames function upvalues vm i with
    | some (.running vm) => executeAll frame frames function upvalues is vm
    | outcome => outcome

/-- The outcome of a comparison: the answer is on the stack, or an error was reported. -/
def Answers (vm : VM N β) : Option Bool → Option (Outcome N β) → Prop
  | none, outcome => ∃ vm', outcome = some (.finished .runtimeError vm')
  | some r, outcome => ∃ vm', outcome = some (.running vm') ∧
      vm'.stackTop = vm.stackTop + 1 ∧ vm'.peek 0 = .bool r

variable {ops}

omit [Double N] in
theorem Answers.push {vm vm₁ : VM N β} {r : Bool} (h : vm₁.stackTop = vm.stackTop + 2) :
    Answers vm (some r) ((vm₁.pop 2).push (.bool r)).goOn := by
  refine ⟨_, rfl, ?_, VM.peek_push_zero _ _⟩
  simp only [VM.push, VM.pop, VM.truncate]
  omega

theorem executeAll_singleton (frame : CallFrame) (frames : List CallFrame)
    (function : ObjFunction N) (upvalues : List (Option Addr)) (i : Instr) (vm : VM N β) :
    executeAll ops frame frames function upvalues [i] vm =
      execute ops frame frames function upvalues vm i := by
  unfold executeAll
  split
  · rename_i h
    rw [h]
    rfl
  · rfl

/-- `OP_NOT` negates the answer. -/
theorem Answers.not {frame : CallFrame} {frames : List CallFrame} {function : ObjFunction N}
    {upvalues : List (Option Addr)} {i : Instr} {vm vm₁ : VM N β} {answer : Option Bool}
    (h : Answers vm answer (execute ops frame frames function upvalues vm₁ i)) :
    Answers vm (answer.map Bool.not)
      (executeAll ops frame frames function upvalues [i, .not] vm₁) := by
  cases answer with
  | none =>
    obtain ⟨vm', h⟩ := h
    exact ⟨vm', by simp only [executeAll, h]⟩
  | some r =>
    obtain ⟨vm', h, htop, hpeek⟩ := h
    refine ⟨(vm'.pop 1).push (.bool !r), ?_, ?_, VM.peek_push_zero _ _⟩
    · rw [executeAll, h]
      simp only [executeAll_singleton, execute, hpeek, isFalsey, VM.goOn]
    · simp only [VM.push, VM.pop, VM.truncate]
      omega

/-- What `BINARY_OP` makes of an operator on numbers. -/
def onNumbers (f : N → N → Bool) : Value N → Value N → Option Bool
  | .number x, .number y => some (f x y)
  | _, _ => none

omit [Double N] in
theorem answers_binaryOp (f : N → N → Bool) (a b : Value N) (vm : VM N β) :
    Answers vm (onNumbers f a b)
      (((vm.push a).push b).binaryOp fun x y => .bool (f x y)) := by
  have hpeek : ((vm.push a).push b).peek 1 = a := by
    rw [VM.peek_push_succ b (by simp [VM.push]) 0, VM.peek_push_zero]
  unfold VM.binaryOp onNumbers
  rw [hpeek, VM.peek_push_zero]
  cases a <;> cases b <;> simp only <;> first | exact ⟨_, rfl⟩ | exact Answers.push rfl

/-- The answer of clox, an error if there is none. -/
def answer (op : Comparison) (a b : Value N) : Option Bool :=
  match op with
  | .equalEqual => some (valuesEqual a b)
  | .bangEqual => some !valuesEqual a b
  | .less => onNumbers Double.lt a b
  | .lessEqual => (onNumbers (fun x y => Double.lt y x) a b).map Bool.not
  | .greater => onNumbers (fun x y => Double.lt y x) a b
  | .greaterEqual => (onNumbers Double.lt a b).map Bool.not

theorem answers_equal (frame : CallFrame) (frames : List CallFrame) (function : ObjFunction N)
    (upvalues : List (Option Addr)) (a b : Value N) (vm : VM N β) :
    Answers vm (some (valuesEqual a b))
      (execute ops frame frames function upvalues ((vm.push a).push b) .equal) := by
  have hpeek : ((vm.push a).push b).peek 1 = a := by
    rw [VM.peek_push_succ b (by simp [VM.push]) 0, VM.peek_push_zero]
  simp only [execute, hpeek, VM.peek_push_zero]
  exact Answers.push rfl

variable (ops) in
/-- The code of a comparison leaves its answer. -/
theorem answers_code (op : Comparison) (frame : CallFrame) (frames : List CallFrame)
    (function : ObjFunction N) (upvalues : List (Option Addr)) (a b : Value N) (vm : VM N β) :
    Answers vm (answer op a b)
      (executeAll ops frame frames function upvalues op.clox.code ((vm.push a).push b)) := by
  cases op with
  | equalEqual =>
    simp only [Comparison.clox, BinaryOp.code, executeAll_singleton]
    exact answers_equal frame frames function upvalues a b vm
  | bangEqual => exact (answers_equal frame frames function upvalues a b vm).not
  | less =>
    simp only [Comparison.clox, BinaryOp.code, executeAll_singleton]
    exact answers_binaryOp Double.lt a b vm
  | lessEqual => exact Answers.not (answers_binaryOp (fun x y => Double.lt y x) a b vm)
  | greater =>
    simp only [Comparison.clox, BinaryOp.code, executeAll_singleton]
    exact answers_binaryOp (fun x y => Double.lt y x) a b vm
  | greaterEqual => exact Answers.not (answers_binaryOp Double.lt a b vm)

end Clox

/-! ### The two answers -/

namespace Jlox

variable {N : Type} [Boxed N]

/-- The answer of jlox, an error if there is none. -/
def answer (op : Comparison) (a b : Value N) : Option Bool :=
  match op with
  | .equalEqual => some (isEqual a b)
  | .bangEqual => some !isEqual a b
  | .less => onNumbers Double.lt a b
  | .lessEqual => onNumbers Boxed.le a b
  | .greater => onNumbers (fun x y => Double.lt y x) a b
  | .greaterEqual => onNumbers (fun x y => Boxed.le y x) a b
where
  /-- What is done with two numbers. -/
  onNumbers (f : N → N → Bool) : Value N → Value N → Option Bool
    | .number x, .number y => some (f x y)
    | _, _ => none

omit [Boxed N] in
theorem numberOperands_eq (operator : Token N) (f : N → N → Bool) (a b : Value N) :
    numberOperands operator a b (fun x y => .bool (f x y)) =
      match answer.onNumbers f a b with
      | none => .error ⟨operator, "Operands must be numbers."⟩
      | some r => .ok (.bool r) := by
  cases a <;> cases b <;> rfl

theorem visitBinary_eq (op : Comparison) (line : ℕ) (a b : Value N) :
    visitBinary (op.jlox line) a b =
      match answer op a b with
      | none => .error ⟨op.jlox line, "Operands must be numbers."⟩
      | some r => .ok (.bool r) := by
  cases op with
  | equalEqual => rfl
  | bangEqual => rfl
  | less => exact numberOperands_eq _ Double.lt a b
  | lessEqual => exact numberOperands_eq _ Boxed.le a b
  | greater => exact numberOperands_eq _ (fun x y => Double.lt y x) a b
  | greaterEqual => exact numberOperands_eq _ (fun x y => Boxed.le y x) a b

end Jlox

section Doubles

variable [Jlox.Arithmetic]

theorem isEqual_toJlox (ρ : Addr ↪ Jlox.Ref) (a b : Clox.Value Bits) :
    Clox.valuesEqual a b = Jlox.isEqual (a.toJlox ρ) (b.toJlox ρ) ↔
      ¬ Comparison.equalEqual.Differs a b := by
  cases a <;> cases b <;>
    simp only [Clox.valuesEqual, Jlox.isEqual, Jlox.Value.equals, Clox.Value.toJlox,
      Comparison.Differs, not_false_eq_true, EmbeddingLike.apply_eq_iff_eq]
  exact Binary64.eq_equals

/-- Both fail, or both answer, with the same answer unless the operands are those of `Differs`. -/
theorem answer_toJlox (ρ : Addr ↪ Jlox.Ref) (op : Comparison) (a b : Clox.Value Bits) :
    (Clox.answer op a b = none ∧ Jlox.answer op (a.toJlox ρ) (b.toJlox ρ) = none) ∨
    ∃ x y, Clox.answer op a b = some x ∧ Jlox.answer op (a.toJlox ρ) (b.toJlox ρ) = some y ∧
      (x = y ↔ ¬ op.Differs a b) := by
  cases op with
  | equalEqual => exact .inr ⟨_, _, rfl, rfl, isEqual_toJlox ρ a b⟩
  | bangEqual =>
    refine .inr ⟨_, _, rfl, rfl, ?_⟩
    have hdiffers : Comparison.bangEqual.Differs a b ↔ Comparison.equalEqual.Differs a b := by
      cases a <;> cases b <;> rfl
    rw [Bool.not_inj_iff, hdiffers]
    exact isEqual_toJlox ρ a b
  | less =>
    cases a <;> cases b <;> first
      | exact .inl ⟨rfl, rfl⟩
      | exact .inr ⟨_, _, rfl, rfl, by simp [Comparison.Differs]⟩
  | lessEqual =>
    cases a <;> cases b <;> first
      | exact .inl ⟨rfl, rfl⟩
      | refine .inr ⟨_, _, rfl, rfl, ?_⟩
    rw [eq_comm]
    refine Binary64.le_eq_not_lt.trans ?_
    simp [Comparison.Differs]
  | greater =>
    cases a <;> cases b <;> first
      | exact .inl ⟨rfl, rfl⟩
      | exact .inr ⟨_, _, rfl, rfl, by simp [Comparison.Differs]⟩
  | greaterEqual =>
    cases a <;> cases b <;> first
      | exact .inl ⟨rfl, rfl⟩
      | refine .inr ⟨_, _, rfl, rfl, ?_⟩
    rw [eq_comm]
    refine Binary64.le_eq_not_lt.trans ?_
    simp [Comparison.Differs, and_comm]

end Doubles

end Lox
