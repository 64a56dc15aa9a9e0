import Lox.Lib.Binary64

/-!
# NaN boxing

`value.h` has two definitions of `Value`: a `uint64_t` in which doubles share the space of bit
patterns with everything else, and, for `#else`, a union with a tag.  `Abstract` are the values both
stand for: a double that is not one of the patterns taken for the others, and an object whose address
fits in 48 bits.  `box` and `tag` make the two representations with the macros of `value.h`, and all
that can be asked of a value has the same answer in both.
-/

namespace Lox.Clox.NanBoxing

open Binary64 (Bits)

/-! ### The boxed values -/

/-- `QUAN`. -/
def quan : BitVec 64 := 0x7ffc000000000000#64

/-- `SIGN_BIT`. -/
def signBit : BitVec 64 := 0x8000000000000000#64

/-- `TAG_NIL`. -/
def tagNil : BitVec 64 := 1#64

/-- `TAG_FALSE`. -/
def tagFalse : BitVec 64 := 2#64

/-- `TAG_TRUE`. -/
def tagTrue : BitVec 64 := 3#64

/-- `NIL_VAL`. -/
def nilVal : BitVec 64 := quan ||| tagNil

/-- `FALSE_VAL`. -/
def falseVal : BitVec 64 := quan ||| tagFalse

/-- `TRUE_VAL`. -/
def trueVal : BitVec 64 := quan ||| tagTrue

/-- `BOOL_VAL`. -/
def boolVal (b : Bool) : BitVec 64 := if b then trueVal else falseVal

/-- `NUMBER_VAL`: the bits are copied. -/
def numberVal (num : Bits) : BitVec 64 := num

/-- `OBJ_VAL`. -/
def objVal (obj : BitVec 64) : BitVec 64 := signBit ||| quan ||| obj

/-- `IS_NUMBER`. -/
def isNumber (value : BitVec 64) : Bool := value &&& quan != quan

/-- `IS_NIL`. -/
def isNil (value : BitVec 64) : Bool := value == nilVal

/-- `IS_BOOL`. -/
def isBool (value : BitVec 64) : Bool := value ||| 1#64 == trueVal

/-- `IS_OBJ`. -/
def isObj (value : BitVec 64) : Bool := value &&& (quan ||| signBit) == quan ||| signBit

/-- `AS_NUMBER`. -/
def asNumber (value : BitVec 64) : Bits := value

/-- `AS_BOOL`. -/
def asBool (value : BitVec 64) : Bool := value == trueVal

/-- `AS_OBJ`. -/
def asObj (value : BitVec 64) : BitVec 64 := value &&& ~~~(signBit ||| quan)

/-- `valuesEqual`; `eq` is `==` of doubles. -/
def valuesEqual (eq : Bits → Bits → Bool) (a b : BitVec 64) : Bool :=
  if isNumber a && isNumber b then eq (asNumber a) (asNumber b) else a == b

/-- `isFalsey`. -/
def isFalsey (value : BitVec 64) : Bool := isNil value || (isBool value && !asBool value)

/-! ### The tagged values -/

/-- `ValueType`. -/
inductive ValueType where
  | bool | nil | number | obj
  deriving DecidableEq, Repr

/-- The union `as`: the member that was written last. -/
inductive As where
  | boolean (b : Bool)
  | number (num : Bits)
  | obj (obj : BitVec 64)
  deriving DecidableEq, Repr

/-- `Value`, as it is defined without `NAN_BOXING`. -/
structure Tagged where
  type : ValueType
  as : As
  deriving DecidableEq, Repr

namespace Tagged

/-- `BOOL_VAL`. -/
def boolVal (b : Bool) : Tagged := ⟨.bool, .boolean b⟩

/-- `NIL_VAL`. -/
def nilVal : Tagged := ⟨.nil, .number 0#64⟩

/-- `NUMBER_VAL`. -/
def numberVal (num : Bits) : Tagged := ⟨.number, .number num⟩

/-- `OBJ_VAL`. -/
def objVal (obj : BitVec 64) : Tagged := ⟨.obj, .obj obj⟩

/-- `AS_BOOL`; another member of the union is never read. -/
def asBool (value : Tagged) : Bool :=
  match value.as with
  | .boolean b => b
  | _ => false

/-- `AS_NUMBER`. -/
def asNumber (value : Tagged) : Bits :=
  match value.as with
  | .number num => num
  | _ => 0#64

/-- `AS_OBJ`. -/
def asObj (value : Tagged) : BitVec 64 :=
  match value.as with
  | .obj obj => obj
  | _ => 0#64

/-- `valuesEqual`. -/
def valuesEqual (eq : Bits → Bits → Bool) (a b : Tagged) : Bool :=
  if a.type ≠ b.type then false
  else
    match a.type with
    | .bool => a.asBool == b.asBool
    | .nil => true
    | .number => eq a.asNumber b.asNumber
    | .obj => a.asObj == b.asObj

/-- `isFalsey`. -/
def isFalsey (value : Tagged) : Bool :=
  value.type = .nil || (value.type = .bool && !value.asBool)

end Tagged

/-! ### The values both stand for -/

/-- A value of the language. -/
inductive Abstract where
  | nil
  | bool (b : Bool)
  | number (num : { num : Bits // num &&& quan ≠ quan })
  | obj (obj : { obj : BitVec 64 // obj.toNat < 2 ^ 48 })

namespace Abstract

/-- What kind of value it is. -/
def type : Abstract → ValueType
  | nil => .nil
  | bool _ => .bool
  | number _ => .number
  | obj _ => .obj

/-- The value in 64 bits. -/
def box : Abstract → BitVec 64
  | nil => nilVal
  | bool b => boolVal b
  | number num => numberVal num
  | obj o => objVal o

/-- The value with a tag. -/
def tag : Abstract → Tagged
  | nil => Tagged.nilVal
  | bool b => Tagged.boolVal b
  | number num => Tagged.numberVal num
  | obj o => Tagged.objVal o

end Abstract

/-! ### Masks -/

theorem or_and_distrib (x y m : BitVec 64) : (x ||| y) &&& m = x &&& m ||| y &&& m := by
  ext i
  simp [Bool.and_or_distrib_right]

theorem or_and_self (x m : BitVec 64) : (m ||| x) &&& m = m := by
  ext i
  simp only [BitVec.getElem_and, BitVec.getElem_or]
  cases m[i] <;> simp

/-- An address has none of the bits of the masks. -/
theorem and_masks {obj : BitVec 64} (h : obj.toNat < 2 ^ 48) :
    obj &&& (signBit ||| quan) = 0#64 := by
  have hmasks : signBit ||| quan = BitVec.allOnes 64 <<< 50 := by decide
  rw [hmasks]
  ext i hi
  simp only [BitVec.getElem_and, BitVec.getElem_shiftLeft, BitVec.getElem_allOnes, Bool.and_true,
    BitVec.getElem_zero, Bool.and_eq_false_iff, Bool.not_eq_false', decide_eq_true_eq]
  by_cases hlow : i < 50
  · exact .inr hlow
  · refine .inl ?_
    rw [BitVec.getElem_eq_testBit_toNat]
    exact Nat.testBit_lt_two_pow (h.trans_le (Nat.pow_le_pow_right (by decide) (by omega)))

theorem quan_or_signBit : quan ||| signBit = signBit ||| quan := by decide

/-! ### One kind for each value -/

theorem isNumber_box (v : Abstract) : isNumber v.box = decide (v.type = .number) := by
  cases v with
  | nil => decide
  | bool b => cases b <;> decide
  | number num => simpa [isNumber, Abstract.box, numberVal, Abstract.type] using num.2
  | obj o =>
    have hquan : (signBit ||| quan ||| o.1) &&& quan = quan := by
      rw [BitVec.or_comm signBit quan, BitVec.or_assoc, or_and_self]
    simp [isNumber, Abstract.box, objVal, Abstract.type, hquan]

/-- A value with all the bits of `QUAN` is not a number. -/
theorem ne_of_quan (num : { num : Bits // num &&& quan ≠ quan }) {v : BitVec 64}
    (h : v &&& quan = quan) : num.1 ≠ v := by
  rintro rfl
  exact num.2 h

theorem signBit_objVal (obj : BitVec 64) : objVal obj &&& signBit = signBit := by
  rw [objVal, BitVec.or_assoc, or_and_self]

/-- A value without the sign bit is not an object. -/
theorem objVal_ne {obj v : BitVec 64} (h : v &&& signBit ≠ signBit) : objVal obj ≠ v := by
  rintro rfl
  exact h (signBit_objVal obj)

theorem isNil_box (v : Abstract) : isNil v.box = decide (v.type = .nil) := by
  cases v with
  | nil => decide
  | bool b => cases b <;> decide
  | number num =>
    have hne := ne_of_quan num (show nilVal &&& quan = quan by decide)
    simpa [isNil, Abstract.box, numberVal, Abstract.type] using hne
  | obj o =>
    have hne : objVal o.1 ≠ nilVal := objVal_ne (by decide)
    simpa [isNil, Abstract.box, Abstract.type] using hne

theorem isBool_box (v : Abstract) : isBool v.box = decide (v.type = .bool) := by
  cases v with
  | nil => decide
  | bool b => cases b <;> decide
  | number num =>
    have hne : num.1 ||| 1#64 ≠ trueVal := by
      intro heq
      have hquan := congrArg (· &&& quan) heq
      simp only [or_and_distrib, show 1#64 &&& quan = 0#64 by decide, BitVec.or_zero,
        show trueVal &&& quan = quan by decide] at hquan
      exact num.2 hquan
    simpa [isBool, Abstract.box, numberVal, Abstract.type] using hne
  | obj o =>
    have hne : objVal o.1 ||| 1#64 ≠ trueVal := by
      intro heq
      have hsign := congrArg (· &&& signBit) heq
      simp only [or_and_distrib, signBit_objVal] at hsign
      exact absurd hsign (by decide)
    simpa [isBool, Abstract.box, Abstract.type] using hne

theorem isObj_box (v : Abstract) : isObj v.box = decide (v.type = .obj) := by
  cases v with
  | nil => decide
  | bool b => cases b <;> decide
  | number num =>
    have hne : num.1 &&& (quan ||| signBit) ≠ quan ||| signBit := by
      intro heq
      have hquan := congrArg (· &&& quan) heq
      simp only [BitVec.and_assoc, or_and_self] at hquan
      exact num.2 hquan
    simpa [isObj, Abstract.box, numberVal, Abstract.type] using hne
  | obj o => simp [isObj, Abstract.box, objVal, Abstract.type, quan_or_signBit, or_and_self]

/-! ### Payloads -/

theorem asBool_boolVal (b : Bool) : asBool (boolVal b) = b := by cases b <;> decide

theorem asObj_objVal {obj : BitVec 64} (h : obj.toNat < 2 ^ 48) : asObj (objVal obj) = obj := by
  have hmask := and_masks h
  rw [asObj, objVal]
  ext i hi
  have hbit := congrArg (fun x => x.getLsbD i) hmask
  simp only [BitVec.getLsbD_eq_getElem hi] at hbit
  simp only [BitVec.getElem_and, BitVec.getElem_not, BitVec.getElem_or] at hbit ⊢
  revert hbit
  cases obj[i] <;> cases (signBit)[i] <;> cases (quan)[i] <;> simp

/-! ### Both representations -/

theorem type_eq_of_box_eq {v w : Abstract} (h : v.box = w.box) : v.type = w.type := by
  cases htype : w.type with
  | number => simpa [htype, isNumber_box] using congrArg isNumber h
  | nil => simpa [htype, isNil_box] using congrArg isNil h
  | bool => simpa [htype, isBool_box] using congrArg isBool h
  | obj => simpa [htype, isObj_box] using congrArg isObj h

theorem objVal_inj {o o' : { obj : BitVec 64 // obj.toNat < 2 ^ 48 }}
    (h : objVal o.1 = objVal o'.1) : o = o' := by
  have hobj := congrArg asObj h
  rw [asObj_objVal o.2, asObj_objVal o'.2] at hobj
  exact Subtype.ext hobj

theorem boolVal_inj {b b' : Bool} (h : boolVal b = boolVal b') : b = b' := by
  have hbool := congrArg asBool h
  rwa [asBool_boolVal, asBool_boolVal] at hbool

theorem box_injective : Function.Injective Abstract.box := by
  intro v w h
  have htype := type_eq_of_box_eq h
  match v, w with
  | .nil, .nil => rfl
  | .bool b, .bool b' => rw [boolVal_inj h]
  | .number num, .number num' => rw [Subtype.ext (show num.1 = num'.1 from h)]
  | .obj o, .obj o' => rw [objVal_inj h]

theorem valuesEqual_box (eq : Bits → Bits → Bool) (v w : Abstract) :
    valuesEqual eq v.box w.box = Tagged.valuesEqual eq v.tag w.tag := by
  unfold valuesEqual
  rw [isNumber_box, isNumber_box]
  by_cases htype : v.type = w.type
  · match v, w with
    | .nil, .nil => rfl
    | .bool b, .bool b' => cases b <;> cases b' <;> rfl
    | .number num, .number num' => rfl
    | .obj o, .obj o' =>
      change (objVal o.1 == objVal o'.1) = (o.1 == o'.1)
      by_cases heq : o = o'
      · simp [heq]
      · have hne : objVal o.1 ≠ objVal o'.1 := fun h => heq (objVal_inj h)
        have hne' : o.1 ≠ o'.1 := fun h => heq (Subtype.ext h)
        rw [beq_false_of_ne hne, beq_false_of_ne hne']
  · -- Values of different kinds are different in both representations.
    have hbox : v.box ≠ w.box := fun h => htype (type_eq_of_box_eq h)
    have htag : v.tag.type ≠ w.tag.type := by
      cases v <;> cases w <;> exact htype
    have hnumber : (decide (v.type = .number) && decide (w.type = .number)) = false := by
      by_contra hboth
      simp only [Bool.not_eq_false, Bool.and_eq_true, decide_eq_true_eq] at hboth
      exact htype (hboth.1.trans hboth.2.symm)
    rw [hnumber, Tagged.valuesEqual, if_pos htag]
    simpa using hbox

theorem isFalsey_box (v : Abstract) : isFalsey v.box = Tagged.isFalsey v.tag := by
  unfold isFalsey
  rw [isNil_box, isBool_box]
  cases v with
  | nil => rfl
  | bool b => cases b <;> rfl
  | number num => rfl
  | obj o => rfl

/-- Each boxed value is of one kind, and of the right one; its payload comes back; different values
have different boxes; and `valuesEqual` and `isFalsey` give the answers of the tagged values. -/
theorem nanBoxing_faithful :
    (∀ v : Abstract, isNumber v.box = decide (v.type = .number) ∧
      isNil v.box = decide (v.type = .nil) ∧ isBool v.box = decide (v.type = .bool) ∧
      isObj v.box = decide (v.type = .obj)) ∧
    ((∀ num, asNumber (Abstract.box (.number num)) = num) ∧
      (∀ b, asBool (Abstract.box (.bool b)) = b) ∧
      ∀ o, asObj (Abstract.box (.obj o)) = o) ∧
    Function.Injective Abstract.box ∧
    (∀ (eq : Bits → Bits → Bool) (v w : Abstract),
      valuesEqual eq v.box w.box = Tagged.valuesEqual eq v.tag w.tag) ∧
    ∀ v : Abstract, isFalsey v.box = Tagged.isFalsey v.tag :=
  ⟨fun v => ⟨isNumber_box v, isNil_box v, isBool_box v, isObj_box v⟩,
    ⟨fun _ => rfl, asBool_boolVal, fun o => asObj_objVal o.2⟩, box_injective, valuesEqual_box,
    isFalsey_box⟩

end Lox.Clox.NanBoxing
