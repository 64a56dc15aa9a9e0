import Mathlib.Data.BitVec
import Mathlib.Tactic

/-!
# Comparing binary64 numbers

A double is its 64 bits.  Up to the sign, numbers are ordered as their other bits are; what lies
above infinity is not a number.  IEEE comparisons are false as soon as one operand is not a number,
and the two zeros are equal.  `equals` is the comparison of boxed numbers in Java: it compares the
bits, with all NaNs taken to be the same one.
-/

namespace Lox.Binary64

/-- The bits of a double. -/
abbrev Bits := BitVec 64

/-- Everything but the sign bit. -/
def magnitude (x : Bits) : ℕ := x.toNat % 2 ^ 63

/-- The sign bit. -/
def negative (x : Bits) : Bool := x.msb

/-- The magnitude of infinity. -/
def infinity : ℕ := 0x7ff0000000000000

/-- The value is not a number. -/
def isNaN (x : Bits) : Bool := infinity < magnitude x

/-- A number with the order of the doubles. -/
def key (x : Bits) : ℤ := if negative x then -(magnitude x : ℤ) else magnitude x

/-- `<`. -/
def lt (x y : Bits) : Bool := !isNaN x && !isNaN y && key x < key y

/-- `<=`. -/
def le (x y : Bits) : Bool := !isNaN x && !isNaN y && key x ≤ key y

/-- `==`. -/
def eq (x y : Bits) : Bool := !isNaN x && !isNaN y && key x = key y

/-- `Double.doubleToLongBits`. -/
def longBits (x : Bits) : Bits := if isNaN x then 0x7ff8000000000000#64 else x

/-- `Double.equals`. -/
def equals (x y : Bits) : Bool := longBits x = longBits y

/-- Both are zeros, with different signs. -/
def oppositeZeros (x y : Bits) : Prop :=
  magnitude x = 0 ∧ magnitude y = 0 ∧ negative x ≠ negative y

theorem toNat_eq (x : Bits) : x.toNat = magnitude x + (negative x).toNat * 2 ^ 63 := by
  have hlt := x.isLt
  unfold magnitude negative
  rw [BitVec.msb_eq_decide]
  by_cases h : 2 ^ 63 ≤ x.toNat
  · simp only [h, decide_true, Bool.toNat_true]
    omega
  · simp only [h, decide_false, Bool.toNat_false]
    omega

/-- A double is its sign and its magnitude. -/
theorem ext {x y : Bits} (hm : magnitude x = magnitude y) (hn : negative x = negative y) :
    x = y := by
  apply BitVec.eq_of_toNat_eq
  rw [toNat_eq x, toNat_eq y, hm, hn]

/-- Numbers of the same key are the same, or the two zeros. -/
theorem key_eq {x y : Bits} : key x = key y ↔ x = y ∨ oppositeZeros x y := by
  constructor
  · intro h
    by_cases hn : negative x = negative y
    · refine .inl (ext ?_ hn)
      unfold key at h
      rw [hn] at h
      split at h <;> omega
    · refine .inr ⟨?_, ?_, hn⟩
      · unfold key at h
        cases hx : negative x <;> cases hy : negative y <;> simp_all
      · unfold key at h
        cases hx : negative x <;> cases hy : negative y <;> simp_all
  · rintro (rfl | ⟨hx, hy, -⟩)
    · rfl
    · simp [key, hx, hy]

theorem not_isNaN_of_zero {x : Bits} (h : magnitude x = 0) : isNaN x = false := by
  simp [isNaN, h]

theorem equals_of_isNaN {x y : Bits} (h : isNaN x = true ∨ isNaN y = true) :
    equals x y = (isNaN x && isNaN y) := by
  have hcanonical : isNaN 0x7ff8000000000000#64 = true := by decide
  unfold equals longBits
  cases hx : isNaN x <;> cases hy : isNaN y
  · simp [hx, hy] at h
  · simp only [Bool.false_eq_true, if_false, if_true, Bool.false_and, decide_eq_false_iff_not]
    rintro rfl
    rw [hcanonical] at hx
    cases hx
  · simp only [Bool.false_eq_true, if_false, if_true, Bool.and_false, decide_eq_false_iff_not]
    rintro rfl
    rw [hcanonical] at hy
    cases hy
  · simp

theorem not_isNaN_of_oppositeZeros {x y : Bits} (h : oppositeZeros x y) :
    isNaN x = false ∧ isNaN y = false :=
  ⟨not_isNaN_of_zero h.1, not_isNaN_of_zero h.2.1⟩

/-- Where the two equalities agree: not on two NaNs, and not on the two zeros. -/
theorem eq_equals {x y : Bits} :
    eq x y = equals x y ↔ ¬ ((isNaN x = true ∧ isNaN y = true) ∨ oppositeZeros x y) := by
  by_cases hnan : isNaN x = true ∨ isNaN y = true
  · have heq : eq x y = false := by
      rcases hnan with h | h <;> simp [eq, h]
    have hzeros : ¬ oppositeZeros x y := by
      intro h
      obtain ⟨hx, hy⟩ := not_isNaN_of_oppositeZeros h
      rcases hnan with h | h
      · rw [hx] at h
        cases h
      · rw [hy] at h
        cases h
    rw [heq, equals_of_isNaN hnan]
    cases hx : isNaN x <;> cases hy : isNaN y <;> simp [hzeros]
  · simp only [not_or, Bool.not_eq_true] at hnan
    obtain ⟨hx, hy⟩ := hnan
    have heq : eq x y = true ↔ x = y ∨ oppositeZeros x y := by
      simp [eq, hx, hy, key_eq]
    have hequals : equals x y = true ↔ x = y := by
      simp [equals, longBits, hx, hy]
    have hne : oppositeZeros x y → x ≠ y := by
      rintro ⟨-, -, hsign⟩ rfl
      exact hsign rfl
    rw [Bool.eq_iff_iff, heq, hequals]
    simp only [hx, Bool.false_eq_true, false_and, false_or]
    tauto

/-- `<=` is the negation of `>` on numbers only. -/
theorem le_eq_not_lt {x y : Bits} : le x y = !lt y x ↔ isNaN x = false ∧ isNaN y = false := by
  cases hx : isNaN x <;> cases hy : isNaN y <;> simp [le, lt, hx, hy]
  rw [Bool.eq_iff_iff]
  simp

end Lox.Binary64
