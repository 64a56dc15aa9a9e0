import Lox.Clox.VM

/-!
# Classes while the machine runs

`OP_INHERIT` and `OP_METHOD` are the only instructions that change a class: whatever else is
executed, the classes that were there stay as they are (`step_keeps`).
-/

namespace Lox.Clox

variable {N : Type} {β : Type}

/-- Objects were added or changed, but no class was changed. -/
structure Keeps (objects objects' : List (Obj N)) : Prop where
  length : objects.length ≤ objects'.length
  klass : ∀ (a : Addr) name methods, objects[a]? = some (.klass name methods) →
    objects'[a]? = some (.klass name methods)

theorem Keeps.append (objects : List (Obj N)) (object : Obj N) :
    Keeps objects (objects ++ [object]) := by
  refine ⟨by simp, fun a name methods h => ?_⟩
  obtain ⟨hlt, -⟩ := List.getElem?_eq_some_iff.1 h
  rw [List.getElem?_append_left hlt, h]

/-- No class was changed, and new classes have no methods. -/
structure KeepsClasses (objects objects' : List (Obj N)) : Prop extends Keeps objects objects' where
  made : ∀ (a : Addr) name methods, objects'[a]? = some (.klass name methods) →
    objects[a]? = some (.klass name methods) ∨ methods = Table.empty

namespace KeepsClasses

theorem refl (objects : List (Obj N)) : KeepsClasses objects objects :=
  ⟨⟨le_refl _, fun _ _ _ h => h⟩, fun _ _ _ h => .inl h⟩

theorem trans {objects objects₁ objects₂ : List (Obj N)} (h₁ : KeepsClasses objects objects₁)
    (h₂ : KeepsClasses objects₁ objects₂) : KeepsClasses objects objects₂ := by
  refine ⟨⟨h₁.length.trans h₂.length, fun a _ _ h => h₂.klass a _ _ (h₁.klass a _ _ h)⟩,
    fun a name methods h => ?_⟩
  rcases h₂.made a name methods h with h | h
  · exact h₁.made a name methods h
  · exact .inr h

theorem append (objects : List (Obj N)) (object : Obj N)
    (h : ∀ name methods, object = .klass name methods → methods = Table.empty) :
    KeepsClasses objects (objects ++ [object]) := by
  refine ⟨.append objects object, fun a name methods ha => ?_⟩
  rcases Nat.lt_or_ge a objects.length with hlt | hge
  · rw [List.getElem?_append_left hlt] at ha
    exact .inl ha
  · rw [List.getElem?_append_right hge] at ha
    exact .inr (h name methods (List.mem_singleton.1 (List.mem_of_getElem? ha)).symm)

/-- An object that is not a class may be changed. -/
theorem set {objects : List (Obj N)} {a : Addr} {old : Obj N} (object : Obj N)
    (h : objects[a]? = some old) (hold : ∀ name methods, old ≠ .klass name methods)
    (hnew : ∀ name methods, object ≠ .klass name methods) :
    KeepsClasses objects (objects.set a object) := by
  refine ⟨⟨by simp, fun b name methods hb => ?_⟩, fun b name methods hb => ?_⟩
  · have hne : a ≠ b := by
      rintro rfl
      rw [h] at hb
      exact hold name methods (Option.some.inj hb)
    rw [List.getElem?_set_ne hne, hb]
  · by_cases hab : a = b
    · subst hab
      rw [List.getElem?_set_self (List.getElem?_eq_some_iff.1 h).1] at hb
      exact absurd (Option.some.inj hb) (hnew name methods)
    · rw [List.getElem?_set_ne hab] at hb
      exact .inl hb

end KeepsClasses

/-! ### Calls -/

section Calls

variable [Tracking β] {vm : VM N β} {argCount : ℕ} {ok : Bool} {vm' : VM N β}

theorem call_keeps {closure : Addr} (h : vm.call closure argCount = some (ok, vm')) :
    KeepsClasses vm.objects vm'.objects := by
  simp only [VM.call, Option.bind_eq_bind, Option.bind_eq_some_iff, Prod.exists] at h
  obtain ⟨function, upvalues, -, h⟩ := h
  split at h
  · obtain ⟨-, rfl⟩ := Prod.mk.inj (Option.some.inj h)
    exact .refl _
  · split at h <;> (obtain ⟨-, rfl⟩ := Prod.mk.inj (Option.some.inj h); exact .refl _)

theorem callClass_keeps {klass : Addr} {methods : Table N}
    (h : vm.callClass klass methods argCount = some (ok, vm')) :
    KeepsClasses vm.objects vm'.objects := by
  have happend := KeepsClasses.append vm.objects (.inst klass Table.empty) (by simp)
  unfold VM.callClass at h
  simp only at h
  split at h
  · simp only [Option.bind_eq_bind, Option.bind_eq_some_iff] at h
    obtain ⟨method, -, h⟩ := h
    exact happend.trans (call_keeps h)
  · split at h <;> (obtain ⟨-, rfl⟩ := Prod.mk.inj (Option.some.inj h); exact happend)

theorem callValue_keeps {callee : Value N} (h : vm.callValue callee argCount = some (ok, vm')) :
    KeepsClasses vm.objects vm'.objects := by
  unfold VM.callValue at h
  split at h
  · split at h
    · have hpoked := call_keeps h
      exact hpoked
    · exact callClass_keeps h
    · obtain ⟨-, rfl⟩ := Prod.mk.inj (Option.some.inj h)
      exact .refl _
    · exact call_keeps h
    · obtain ⟨-, rfl⟩ := Prod.mk.inj (Option.some.inj h)
      exact .refl _
    · cases h
  · obtain ⟨-, rfl⟩ := Prod.mk.inj (Option.some.inj h)
    exact .refl _

theorem invokeFromClass_keeps {methods : Table N} {name : Name}
    (h : vm.invokeFromClass methods name argCount = some (ok, vm')) :
    KeepsClasses vm.objects vm'.objects := by
  unfold VM.invokeFromClass at h
  split at h
  · obtain ⟨-, rfl⟩ := Prod.mk.inj (Option.some.inj h)
    exact .refl _
  · simp only [Option.bind_eq_bind, Option.bind_eq_some_iff] at h
    obtain ⟨method, -, h⟩ := h
    exact call_keeps h

theorem invoke_keeps {name : Name} (h : vm.invoke name argCount = some (ok, vm')) :
    KeepsClasses vm.objects vm'.objects := by
  unfold VM.invoke at h
  split at h
  · obtain ⟨-, rfl⟩ := Prod.mk.inj (Option.some.inj h)
    exact .refl _
  · split at h
    · have hpoked := callValue_keeps h
      exact hpoked
    · simp only [Option.bind_eq_bind, Option.bind_eq_some_iff, Prod.exists] at h
      obtain ⟨_, _, methods, -, h⟩ := h
      exact invokeFromClass_keeps h

theorem bindMethod_keeps {methods : Table N} {name : Name}
    (h : vm.bindMethod methods name = some (ok, vm')) : KeepsClasses vm.objects vm'.objects := by
  unfold VM.bindMethod at h
  split at h
  · obtain ⟨-, rfl⟩ := Prod.mk.inj (Option.some.inj h)
    exact .refl _
  · simp only [Option.bind_eq_bind, Option.bind_eq_some_iff] at h
    obtain ⟨method, -, h⟩ := h
    obtain ⟨-, rfl⟩ := Prod.mk.inj (Option.some.inj h)
    exact .append _ _ (by simp)

end Calls

/-! ### Captured variables -/

theorem captureUpvalue_keeps {slot : ℕ} {a : Addr} {vm vm' : VM N (List Addr)}
    (h : captureUpvalue slot vm = some (a, vm')) : KeepsClasses vm.objects vm'.objects := by
  simp only [captureUpvalue, Option.bind_eq_bind, Option.bind_eq_some_iff, Prod.exists] at h
  obtain ⟨above, rest, -, h⟩ := h
  split at h
  · obtain ⟨-, rfl⟩ := Prod.mk.inj (Option.some.inj h)
    exact .refl _
  · obtain ⟨-, rfl⟩ := Prod.mk.inj (Option.some.inj h)
    exact .append _ _ (by simp)

theorem closeLoop_keeps {stack : ℕ → Value N} {last : ℕ} :
    ∀ {upvalues rest : List Addr} {objects objects' : List (Obj N)},
      closeLoop stack last upvalues objects = some (rest, objects') → KeepsClasses objects objects'
  | [], rest, objects, objects', h => by
    obtain ⟨-, rfl⟩ := Prod.mk.inj (Option.some.inj h)
    exact .refl _
  | a :: as, rest, objects, objects', h => by
    unfold closeLoop at h
    split at h
    · rename_i location closed ha
      split at h
      · have hset := KeepsClasses.set (.upvalue none (stack location)) ha (by simp) (by simp)
        exact hset.trans (closeLoop_keeps h)
      · obtain ⟨-, rfl⟩ := Prod.mk.inj (Option.some.inj h)
        exact .refl _
    · cases h

theorem closeUpvalues_keeps {last : ℕ} {vm vm' : VM N (List Addr)}
    (h : closeUpvalues last vm = some vm') : KeepsClasses vm.objects vm'.objects := by
  simp only [closeUpvalues, Option.bind_eq_bind, Option.bind_eq_some_iff, Prod.exists] at h
  obtain ⟨upvalues, objects, hloop, h⟩ := h
  obtain rfl := Option.some.inj h
  exact closeLoop_keeps hloop

theorem setUpvalue_keeps {a : Addr} {value : Value N} {vm vm' : VM N (List Addr)}
    (h : setUpvalue a value vm = some vm') : KeepsClasses vm.objects vm'.objects := by
  unfold setUpvalue at h
  split at h
  · obtain rfl := Option.some.inj h
    exact .refl _
  · rename_i ha
    obtain rfl := Option.some.inj h
    exact KeepsClasses.set _ ha (by simp) (by simp)
  · cases h

theorem captures_keeps {slots : ℕ} {enclosing : List (Option Addr)} :
    ∀ {us : List Upvalue} {vm vm' : VM N (List Addr)} {upvalues : List (Option Addr)},
      VM.captures openUpvalues slots enclosing us vm = some (upvalues, vm') →
        KeepsClasses vm.objects vm'.objects
  | [], vm, vm', upvalues, h => by
    obtain ⟨-, rfl⟩ := Prod.mk.inj (Option.some.inj h)
    exact .refl _
  | u :: us, vm, vm', upvalues, h => by
    unfold VM.captures at h
    split at h
    · simp only [Option.bind_eq_bind, Option.bind_eq_some_iff, Prod.exists] at h
      obtain ⟨a, vm₁, hcapture, as, vm₂, hrest, h⟩ := h
      obtain ⟨-, rfl⟩ := Prod.mk.inj (Option.some.inj h)
      exact (captureUpvalue_keeps hcapture).trans (captures_keeps hrest)
    · simp only [Option.bind_eq_bind, Option.bind_eq_some_iff, Prod.exists] at h
      obtain ⟨a, -, as, vm₂, hrest, h⟩ := h
      obtain ⟨-, rfl⟩ := Prod.mk.inj (Option.some.inj h)
      exact captures_keeps hrest

theorem makeClosure_keeps {slots : ℕ} {enclosing : List (Option Addr)} {function : ObjFunction N}
    {us : List Upvalue} {vm : VM N (List Addr)} {o : Outcome N (List Addr)}
    (h : vm.makeClosure openUpvalues slots enclosing function us = some o) :
    KeepsClasses vm.objects o.vm.objects := by
  simp only [VM.makeClosure, Option.bind_eq_bind, Option.bind_eq_some_iff, Prod.exists] at h
  obtain ⟨upvalues, vm', hcaptures, h⟩ := h
  obtain rfl := Option.some.inj h
  have hkeeps := (KeepsClasses.append vm.objects
    (.closure function (List.replicate function.upvalueCount none)) (by simp)).trans
    (captures_keeps hcaptures)
  refine ⟨⟨?_, fun a name methods ha => ?_⟩, fun a name methods ha => ?_⟩
  · simp only [Outcome.vm, VM.update, List.length_set]
    exact hkeeps.length
  · -- the closure itself is new, so no class is overwritten
    obtain ⟨hlt, -⟩ := List.getElem?_eq_some_iff.1 ha
    have hne : vm.objects.length ≠ a := by omega
    simp only [Outcome.vm, VM.update, VM.allocate]
    rw [List.getElem?_set_ne hne]
    exact hkeeps.klass a name methods ha
  · simp only [Outcome.vm, VM.update, VM.allocate] at ha
    by_cases hne : vm.objects.length = a
    · subst hne
      rw [List.getElem?_set] at ha
      simp only [if_true] at ha
      split at ha <;> cases ha
    · rw [List.getElem?_set_ne hne] at ha
      exact hkeeps.made a name methods ha

theorem captureUpvalue_stack {slot : ℕ} {a : Addr} {vm vm' : VM N (List Addr)}
    (h : captureUpvalue slot vm = some (a, vm')) :
    vm'.stack = vm.stack ∧ vm'.stackTop = vm.stackTop := by
  simp only [captureUpvalue, Option.bind_eq_bind, Option.bind_eq_some_iff, Prod.exists] at h
  obtain ⟨above, rest, -, h⟩ := h
  split at h <;> (obtain ⟨-, rfl⟩ := Prod.mk.inj (Option.some.inj h); exact ⟨rfl, rfl⟩)

theorem captures_stack {slots : ℕ} {enclosing : List (Option Addr)} :
    ∀ {us : List Upvalue} {vm vm' : VM N (List Addr)} {upvalues : List (Option Addr)},
      VM.captures openUpvalues slots enclosing us vm = some (upvalues, vm') →
        vm'.stack = vm.stack ∧ vm'.stackTop = vm.stackTop
  | [], vm, vm', upvalues, h => by
    obtain ⟨-, rfl⟩ := Prod.mk.inj (Option.some.inj h)
    exact ⟨rfl, rfl⟩
  | u :: us, vm, vm', upvalues, h => by
    unfold VM.captures at h
    split at h
    · simp only [Option.bind_eq_bind, Option.bind_eq_some_iff, Prod.exists] at h
      obtain ⟨a, vm₁, hcapture, as, vm₂, hrest, h⟩ := h
      obtain ⟨-, rfl⟩ := Prod.mk.inj (Option.some.inj h)
      obtain ⟨hstack, htop⟩ := captureUpvalue_stack hcapture
      obtain ⟨hstack₂, htop₂⟩ := captures_stack hrest
      exact ⟨hstack₂.trans hstack, htop₂.trans htop⟩
    · simp only [Option.bind_eq_bind, Option.bind_eq_some_iff, Prod.exists] at h
      obtain ⟨a, -, as, vm₂, hrest, h⟩ := h
      obtain ⟨-, rfl⟩ := Prod.mk.inj (Option.some.inj h)
      exact captures_stack hrest

/-! ### Instructions -/

/-- The instruction changes a class. -/
def Instr.changesClass : Instr → Bool
  | .inherit | .method _ => true
  | _ => false

/-- The outcome keeps the classes. -/
def KeepsAs (objects : List (Obj N)) (r : Option (Outcome N β)) : Prop :=
  ∀ o, r = some o → KeepsClasses objects o.vm.objects

theorem keepsAs_bind {α : Type} {objects : List (Obj N)} {x : Option α}
    {k : α → Option (Outcome N β)} (h : ∀ a, x = some a → KeepsAs objects (k a)) :
    KeepsAs objects (x >>= k) := by
  intro o ho
  obtain ⟨a, ha, hk⟩ := Option.bind_eq_some_iff.1 ho
  exact h a ha o hk

theorem keepsAs_goOn {objects : List (Obj N)} {vm : VM N β} (h : KeepsClasses objects vm.objects) :
    KeepsAs objects vm.goOn := by
  rintro o ho
  obtain rfl := Option.some.inj ho
  exact h

theorem keepsAs_fail [Tracking β] (vm : VM N β) (message : String) :
    KeepsAs vm.objects (vm.fail message) := by
  rintro o ho
  obtain rfl := Option.some.inj ho
  exact .refl _

theorem keepsAs_check {objects : List (Obj N)} {r : Option (Bool × VM N β)}
    (h : ∀ ok vm', r = some (ok, vm') → KeepsClasses objects vm'.objects) :
    KeepsAs objects (VM.check r) := by
  intro o ho
  match r, ho with
  | some (true, vm'), ho =>
    obtain rfl := Option.some.inj ho
    exact h _ _ rfl
  | some (false, vm'), ho =>
    obtain rfl := Option.some.inj ho
    exact h _ _ rfl

theorem binaryOp_keeps [Tracking β] (op : N → N → Value N) (vm : VM N β) :
    KeepsAs vm.objects (vm.binaryOp op) := by
  unfold VM.binaryOp
  split
  · exact keepsAs_goOn (.refl _)
  · exact keepsAs_fail _ _

theorem execute_keeps [Double N] {frame : CallFrame} {frames : List CallFrame}
    {function : ObjFunction N} {upvalues : List (Option Addr)} {vm : VM N (List Addr)} {i : Instr}
    (hi : i.changesClass = false) :
    KeepsAs vm.objects (execute openUpvalues frame frames function upvalues vm i) := by
  cases i with
  | inherit => cases hi
  | method k => cases hi
  | nil | true_ | false_ | pop | equal | not | jump =>
    exact keepsAs_goOn (.refl _)
  | constant k =>
    simp only [execute, VM.constant]
    split
    · exact keepsAs_goOn (.refl _)
    · exact keepsAs_goOn (.refl _)
    · intro o ho
      cases ho
  | getLocal slot => exact keepsAs_bind fun value _ => keepsAs_goOn (.refl _)
  | setLocal slot =>
    refine keepsAs_bind fun vm' h => keepsAs_goOn ?_
    obtain rfl := Option.some.inj h
    exact .refl _
  | getGlobal k =>
    refine keepsAs_bind fun name _ => ?_
    unfold VM.getGlobal
    split
    · exact keepsAs_goOn (.refl _)
    · exact keepsAs_fail _ _
  | defineGlobal k => exact keepsAs_bind fun name _ => keepsAs_goOn (.refl _)
  | setGlobal k =>
    refine keepsAs_bind fun name _ => ?_
    unfold VM.setGlobal
    split
    · exact keepsAs_goOn (.refl _)
    · exact keepsAs_fail _ _
  | getUpvalue slot =>
    exact keepsAs_bind fun a _ => keepsAs_bind fun value _ => keepsAs_goOn (.refl _)
  | setUpvalue slot =>
    exact keepsAs_bind fun a _ => keepsAs_bind fun vm' h => keepsAs_goOn (setUpvalue_keeps h)
  | greater | less | subtract | multiply | divide => exact binaryOp_keeps _ _
  | add =>
    simp only [execute, VM.add]
    split
    · exact keepsAs_goOn (.refl _)
    · exact keepsAs_goOn (.refl _)
    · exact keepsAs_fail _ _
  | negate =>
    simp only [execute, VM.negate]
    split
    · exact keepsAs_goOn (.refl _)
    · exact keepsAs_fail _ _
  | jumpIfFalse offset =>
    simp only [execute]
    split <;> exact keepsAs_goOn (.refl _)
  | loop offset =>
    simp only [execute]
    split
    · intro o ho
      cases ho
    · exact keepsAs_goOn (.refl _)
  | print => exact keepsAs_bind fun printed _ => keepsAs_goOn (.refl _)
  | call argCount => exact keepsAs_check fun ok vm' h => callValue_keeps h
  | closure k us => exact keepsAs_bind fun f _ o h => makeClosure_keeps h
  | closeUpvalue =>
    refine keepsAs_bind fun vm' h => keepsAs_goOn ?_
    have hkeeps := closeUpvalues_keeps h
    exact hkeeps
  | getProperty k =>
    refine keepsAs_bind fun name _ => ?_
    unfold VM.getProperty
    split
    · exact keepsAs_fail _ _
    · split
      · exact keepsAs_goOn (.refl _)
      · exact keepsAs_bind fun r _ => keepsAs_check fun ok vm' h => bindMethod_keeps h
  | setProperty k =>
    refine keepsAs_bind fun name _ => ?_
    unfold VM.setProperty
    split
    · exact keepsAs_fail _ _
    · rename_i hinst
      obtain ⟨-, ha⟩ := VM.asInstance_eq_some.1 hinst
      exact keepsAs_goOn (KeepsClasses.set _ ha (by simp) (by simp))
  | invoke k argCount =>
    exact keepsAs_bind fun name _ => keepsAs_check fun ok vm' h => invoke_keeps h
  | class_ k => exact keepsAs_bind fun name _ => keepsAs_goOn (KeepsClasses.append _ _ fun _ _ h => (Obj.klass.inj h).2.symm)
  | superInvoke k argCount =>
    refine keepsAs_bind fun name _ => keepsAs_bind fun r _ => keepsAs_check fun ok vm' h => ?_
    have hpopped := invokeFromClass_keeps h
    exact hpopped
  | getSuper k =>
    refine keepsAs_bind fun name _ => keepsAs_bind fun r _ => keepsAs_check fun ok vm' h => ?_
    have hpopped := bindMethod_keeps h
    exact hpopped
  | return_ =>
    refine keepsAs_bind fun vm' h => ?_
    have hkeeps := closeUpvalues_keeps h
    simp only
    split
    · intro o ho
      obtain rfl := Option.some.inj ho
      exact hkeeps
    · exact keepsAs_goOn hkeeps

/-- One turn of the loop keeps the classes, unless the instruction is `OP_INHERIT` or
`OP_METHOD`. -/
theorem step_keeps [Double N] {vm : VM N (List Addr)} {i : Instr} {constants : List (Constant N)}
    {o : Outcome N (List Addr)} (hcurrent : vm.current = some (i, constants))
    (hi : i.changesClass = false) (h : step vm = some o) : KeepsClasses vm.objects o.vm.objects := by
  unfold step stepWith at h
  cases hframes : vm.frames with
  | nil => simp [hframes] at h
  | cons frame rest =>
    simp only [hframes, Option.bind_eq_bind, Option.bind_eq_some_iff, Prod.exists] at h
    obtain ⟨function, upvalues, hclosure, j, hfetch, h⟩ := h
    simp only [VM.current, hframes, hclosure, hfetch, List.head?_cons, Option.bind_eq_bind,
      Option.bind_some, Option.pure_def, Option.some.injEq, Prod.mk.injEq] at hcurrent
    obtain ⟨rfl, -⟩ := hcurrent
    split at h
    · cases h
    · have hkeeps := execute_keeps hi o h
      exact hkeeps

end Lox.Clox
