import Lox.Clox.Frames
import Lox.Clox.Verifiable

/-!
# The height of each frame

A certificate gives the height of the frame at every instruction.  `Leveled` says that the frames of
the machine have these heights: the innermost frame up to the top of the stack, any other one up to
the callee of the next frame, where the result of the call will be.  Every instruction keeps it
(`step_leveled`), whatever the values on the stack are; so it also holds in runs on a machine that
an earlier error has left with upvalues that point into its stack.
-/

namespace Lox.Clox

variable {N : Type}

/-! ### Closures -/

/-- The closures are still there, and new ones are of functions with the property `P`. -/
structure KeepsClosures (P : ObjFunction N → Prop) (objects objects' : List (Obj N)) : Prop where
  kept : ∀ (a : Addr) f us, objects[a]? = some (.closure f us) →
    ∃ us', objects'[a]? = some (.closure f us')
  made : ∀ (a : Addr) f us, objects'[a]? = some (.closure f us) →
    (∃ us', objects[a]? = some (.closure f us')) ∨ P f

namespace KeepsClosures

variable {P : ObjFunction N → Prop} {objects objects₁ objects₂ : List (Obj N)}

theorem refl (P : ObjFunction N → Prop) (objects : List (Obj N)) : KeepsClosures P objects objects :=
  ⟨fun _ _ us h => ⟨us, h⟩, fun _ _ us h => .inl ⟨us, h⟩⟩

theorem trans (h₁ : KeepsClosures P objects objects₁) (h₂ : KeepsClosures P objects₁ objects₂) :
    KeepsClosures P objects objects₂ where
  kept a f us h := by
    obtain ⟨us₁, h₁⟩ := h₁.kept a f us h
    exact h₂.kept a f us₁ h₁
  made a f us h := by
    rcases h₂.made a f us h with ⟨us₁, h⟩ | h
    · exact h₁.made a f us₁ h
    · exact .inr h

/-- An object is allocated: a closure of a function with the property, or something else. -/
theorem append (object : Obj N) (h : ∀ f us, object = .closure f us → P f) :
    KeepsClosures P objects (objects ++ [object]) where
  kept a f us ha := by
    refine ⟨us, ?_⟩
    rw [List.getElem?_append_left (List.getElem?_eq_some_iff.1 ha).1, ha]
  made a f us ha := by
    rcases Nat.lt_or_ge a objects.length with hlt | hge
    · rw [List.getElem?_append_left hlt] at ha
      exact .inl ⟨us, ha⟩
    · rw [List.getElem?_append_right hge] at ha
      have hmem := List.mem_of_getElem? ha
      exact .inr (h f us (List.mem_singleton.1 hmem).symm)

/-- An object that is not a closure is changed, or the upvalues of a closure are. -/
theorem set {a : Addr} {old object : Obj N} (hold : objects[a]? = some old)
    (h : ∀ f, (∃ us, old = .closure f us) ↔ ∃ us, object = .closure f us) :
    KeepsClosures P objects (objects.set a object) := by
  have hlt := (List.getElem?_eq_some_iff.1 hold).1
  refine ⟨fun b f us hb => ?_, fun b f us hb => ?_⟩
  · by_cases hab : a = b
    · subst hab
      rw [hold] at hb
      obtain ⟨us', rfl⟩ := (h f).1 ⟨us, Option.some.inj hb⟩
      exact ⟨us', List.getElem?_set_self hlt⟩
    · exact ⟨us, by rw [List.getElem?_set_ne hab, hb]⟩
  · by_cases hab : a = b
    · subst hab
      rw [List.getElem?_set_self hlt] at hb
      obtain ⟨us', rfl⟩ := (h f).2 ⟨us, Option.some.inj hb⟩
      exact .inl ⟨us', hold⟩
    · rw [List.getElem?_set_ne hab] at hb
      exact .inl ⟨us, hb⟩

/-- No closure is changed when another object is. -/
theorem set_other {a : Addr} {old object : Obj N} (hold : objects[a]? = some old)
    (h : ∀ f us, old ≠ .closure f us) (h' : ∀ f us, object ≠ .closure f us) :
    KeepsClosures P objects (objects.set a object) :=
  set hold fun f => ⟨fun ⟨us, heq⟩ => absurd heq (h f us), fun ⟨us, heq⟩ => absurd heq (h' f us)⟩

end KeepsClosures

/-! ### Captured variables -/

section Variables

variable {P : ObjFunction N → Prop} {vm vm' : VM N (List Addr)}

theorem setUpvalue_closures {a : Addr} {value : Value N} (h : setUpvalue a value vm = some vm') :
    KeepsClosures P vm.objects vm'.objects := by
  unfold setUpvalue at h
  split at h
  · obtain rfl := Option.some.inj h
    exact .refl P _
  · rename_i ho
    obtain rfl := Option.some.inj h
    exact .set_other ho (by simp) (by simp)
  · cases h

theorem captureUpvalue_closures {slot : ℕ} {a : Addr} (h : captureUpvalue slot vm = some (a, vm')) :
    KeepsClosures P vm.objects vm'.objects := by
  simp only [captureUpvalue, Option.bind_eq_bind, Option.bind_eq_some_iff, Prod.exists] at h
  obtain ⟨above, rest, -, h⟩ := h
  split at h
  · obtain ⟨-, rfl⟩ := Prod.mk.inj (Option.some.inj h)
    exact .refl P _
  · obtain ⟨-, rfl⟩ := Prod.mk.inj (Option.some.inj h)
    exact .append _ (by simp)

theorem closeLoop_closures {stack : ℕ → Value N} {last : ℕ} : ∀ {as as' : List Addr}
    {objects objects' : List (Obj N)}, closeLoop stack last as objects = some (as', objects') →
    KeepsClosures P objects objects' := by
  intro as
  induction as with
  | nil =>
    intro as' objects objects' h
    obtain ⟨-, rfl⟩ := Prod.mk.inj (Option.some.inj h)
    exact .refl P _
  | cons a as ih =>
    intro as' objects objects' h
    simp only [closeLoop] at h
    split at h
    · rename_i ho
      split at h
      · exact (KeepsClosures.set_other ho (by simp) (by simp)).trans (ih h)
      · obtain ⟨-, rfl⟩ := Prod.mk.inj (Option.some.inj h)
        exact .refl P _
    · cases h

theorem closeUpvalues_closures {last : ℕ} (h : closeUpvalues last vm = some vm') :
    KeepsClosures P vm.objects vm'.objects := by
  simp only [closeUpvalues, Option.bind_eq_bind, Option.bind_eq_some_iff, Prod.exists] at h
  obtain ⟨upvalues, objects, hloop, h⟩ := h
  obtain rfl := Option.some.inj h
  exact closeLoop_closures hloop

theorem captures_closures {slots : ℕ} {enclosing : List (Option Addr)} : ∀ {us : List Upvalue}
    {vm vm' : VM N (List Addr)} {as : List (Option Addr)},
    VM.captures openUpvalues slots enclosing us vm = some (as, vm') →
    KeepsClosures P vm.objects vm'.objects := by
  intro us
  induction us with
  | nil =>
    intro vm vm' as h
    obtain ⟨-, rfl⟩ := Prod.mk.inj (Option.some.inj h)
    exact .refl P _
  | cons u us ih =>
    intro vm vm' as h
    simp only [VM.captures, Option.bind_eq_bind] at h
    split at h
    · simp only [Option.bind_eq_some_iff, Prod.exists] at h
      obtain ⟨a, vm₁, h₁, as, vm₂, h₂, h⟩ := h
      obtain ⟨-, rfl⟩ := Prod.mk.inj (Option.some.inj h)
      exact (captureUpvalue_closures h₁).trans (ih h₂)
    · simp only [Option.bind_eq_some_iff, Prod.exists] at h
      obtain ⟨a, -, as, vm₂, h₂, h⟩ := h
      obtain ⟨-, rfl⟩ := Prod.mk.inj (Option.some.inj h)
      exact ih h₂

/-- Closing everything leaves no open upvalue. -/
theorem closeLoop_zero {stack : ℕ → Value N} : ∀ {as as' : List Addr}
    {objects objects' : List (Obj N)}, closeLoop stack 0 as objects = some (as', objects') →
    as' = [] := by
  intro as
  induction as with
  | nil =>
    intro as' objects objects' h
    obtain ⟨rfl, -⟩ := Prod.mk.inj (Option.some.inj h)
    rfl
  | cons a as ih =>
    intro as' objects objects' h
    simp only [closeLoop] at h
    split at h
    · rw [if_pos (Nat.zero_le _)] at h
      exact ih h
    · cases h

theorem closeUpvalues_zero {last : ℕ} (hlast : last = 0) (h : closeUpvalues last vm = some vm') :
    vm'.upvalues = [] := by
  subst hlast
  simp only [closeUpvalues, Option.bind_eq_bind, Option.bind_eq_some_iff, Prod.exists] at h
  obtain ⟨upvalues, objects, hloop, h⟩ := h
  obtain rfl := Option.some.inj h
  exact closeLoop_zero hloop

/-- The new closure gets its upvalues at last. -/
theorem makeClosure_closures {f : ObjFunction N} (hf : P f) {slots : ℕ}
    {enclosing as : List (Option Addr)} {us : List Upvalue}
    (h : VM.captures openUpvalues slots enclosing us ((vm.allocate (.closure f
      (List.replicate f.upvalueCount none))).2.push (.obj vm.objects.length)) = some (as, vm')) :
    KeepsClosures P vm.objects (vm'.update vm.objects.length (.closure f as)).objects := by
  have hnew : KeepsClosures P vm.objects
      (vm.objects ++ [.closure f (List.replicate f.upvalueCount none)]) := by
    refine .append _ fun g us' heq => ?_
    cases heq
    exact hf
  have hcaptures := captures_closures (P := P) h
  obtain ⟨us', hus'⟩ := hcaptures.kept vm.objects.length f _ List.getElem?_concat_length
  refine (hnew.trans hcaptures).trans (.set hus' fun g => ?_)
  constructor
  · rintro ⟨us₁, heq⟩
    cases heq
    exact ⟨as, rfl⟩
  · rintro ⟨us₁, heq⟩
    cases heq
    exact ⟨us', rfl⟩

theorem asClass_keeps {value : Value N} {a : Addr} {name : Name} {methods methods' : Table N}
    (h : vm.asClass value = some (a, name, methods)) :
    KeepsClosures P vm.objects (vm.update a (.klass name methods')).objects := by
  unfold VM.asClass at h
  split at h
  · split at h
    · rename_i ho
      obtain ⟨rfl, rfl, rfl⟩ : _ ∧ _ ∧ _ := by simpa using h
      exact .set_other ho (by simp) (by simp)
    · cases h
  · cases h

theorem asInstance_keeps {value : Value N} {a klass : Addr} {fields fields' : Table N}
    (h : vm.asInstance value = some (a, klass, fields)) :
    KeepsClosures P vm.objects (vm.update a (.inst klass fields')).objects := by
  unfold VM.asInstance at h
  split at h
  · split at h
    · rename_i ho
      obtain ⟨rfl, rfl, rfl⟩ : _ ∧ _ ∧ _ := by simpa using h
      exact .set_other ho (by simp) (by simp)
    · cases h
  · cases h

end Variables

/-! ### Calls -/

/-- What a call with `argCount` arguments does to the frames and to the height of the stack. -/
inductive CalledExactly (argCount : ℕ) (vm : VM N (List Addr)) : Bool → VM N (List Addr) → Prop where
  | frame {vm' : VM N (List Addr)} (closure : Addr) (function : ObjFunction N)
      (upvalues : List (Option Addr))
      (frames : vm'.frames = ⟨closure, 0, vm.stackTop - argCount - 1⟩ :: vm.frames)
      (code : vm'.objects[closure]? = some (.closure function upvalues))
      (arity : function.arity = argCount) (stackTop : vm'.stackTop = vm.stackTop) :
      CalledExactly argCount vm true vm'
  | value {vm' : VM N (List Addr)} (frames : vm'.frames = vm.frames)
      (stackTop : vm'.stackTop = vm.stackTop - argCount) : CalledExactly argCount vm true vm'
  | reset {ok : Bool} {vm' : VM N (List Addr)} (reset : vm.Reset vm') :
      CalledExactly argCount vm ok vm'

/-- Every result of a call is as `CalledExactly` says, and the closures are still there. -/
def CallsExactly (P : ObjFunction N → Prop) (argCount : ℕ) (vm : VM N (List Addr))
    (r : Option (Bool × VM N (List Addr))) : Prop :=
  ∀ ok vm', r = some (ok, vm') →
    CalledExactly argCount vm ok vm' ∧ KeepsClosures P vm.objects vm'.objects

section Calls

variable {P : ObjFunction N → Prop} {vm vm₁ : VM N (List Addr)} {argCount : ℕ}

theorem callsExactly_some {ok : Bool} {vm' : VM N (List Addr)} (h : CalledExactly argCount vm ok vm')
    (hkeeps : KeepsClosures P vm.objects vm'.objects) :
    CallsExactly P argCount vm (some (ok, vm')) := by
  intro ok' vm'' heq
  obtain ⟨rfl, rfl⟩ := Prod.mk.inj (Option.some.inj heq)
  exact ⟨h, hkeeps⟩

theorem callsExactly_bind {α : Type} {x : Option α} {k : α → Option (Bool × VM N (List Addr))}
    (h : ∀ a, x = some a → CallsExactly P argCount vm (k a)) :
    CallsExactly P argCount vm (x >>= k) := by
  intro ok vm' hk
  obtain ⟨a, ha, hk⟩ := Option.bind_eq_some_iff.1 hk
  exact h a ha ok vm' hk

theorem callsExactly_error (ok : Bool) (message : String) :
    CallsExactly P argCount vm (some (ok, vm.runtimeError message)) :=
  callsExactly_some (.reset ⟨rfl, rfl, rfl, _, rfl⟩) (.refl P _)

/-- Other values on the stack and a new object make no difference. -/
theorem CallsExactly.of_same {r : Option (Bool × VM N (List Addr))}
    (h : CallsExactly P argCount vm₁ r) (same : vm.SameFrames vm₁)
    (hkeeps : KeepsClosures P vm.objects vm₁.objects) : CallsExactly P argCount vm r := by
  intro ok vm' hr
  obtain ⟨hcalled, hkeeps₁⟩ := h ok vm' hr
  refine ⟨?_, hkeeps.trans hkeeps₁⟩
  cases hcalled with
  | frame closure function upvalues frames code arity stackTop =>
    rw [same.stackTop, same.frames] at frames
    exact .frame closure function upvalues frames code arity (stackTop.trans same.stackTop)
  | value frames stackTop =>
    rw [same.stackTop] at stackTop
    exact .value (frames.trans same.frames) stackTop
  | reset reset =>
    obtain ⟨e, he⟩ := reset.stderr
    exact .reset ⟨reset.frames, reset.stackTop, reset.upvalues, e, by rw [he, same.stderr]⟩

theorem call_exactly (closure : Addr) : CallsExactly P argCount vm (vm.call closure argCount) := by
  refine callsExactly_bind fun r hr => ?_
  obtain ⟨function, upvalues⟩ := r
  simp only
  split
  · exact callsExactly_error _ _
  · rename_i harity
    split
    · exact callsExactly_error _ _
    · exact callsExactly_some (.frame closure function upvalues rfl
        (VM.asClosure_eq_some.1 hr) (not_not.1 harity).symm rfl) (.refl P _)

theorem callClass_exactly {klass : Addr} {methods : Table N} :
    CallsExactly P argCount vm (vm.callClass klass methods argCount) := by
  have hkeeps : KeepsClosures P vm.objects (vm.objects ++ [.inst klass Table.empty]) :=
    .append _ (by simp)
  unfold VM.callClass
  simp only
  split
  · exact callsExactly_bind fun method _ => (call_exactly method).of_same ⟨rfl, rfl, rfl⟩ hkeeps
  · split
    · exact (callsExactly_error _ _).of_same ⟨rfl, rfl, rfl⟩ hkeeps
    · rename_i hargs
      refine callsExactly_some (.value rfl ?_) hkeeps
      rw [not_not.1 hargs]
      rfl

theorem callValue_exactly {callee : Value N} (hargs : argCount < vm.stackTop) :
    CallsExactly P argCount vm (vm.callValue callee argCount) := by
  cases callee with
  | obj a =>
    simp only [VM.callValue]
    cases ho : vm.objects[a]? with
    | none =>
      intro ok vm' hr
      cases hr
    | some o =>
      cases o with
      | boundMethod receiver method =>
        exact (call_exactly method).of_same ⟨rfl, rfl, rfl⟩ (.refl P _)
      | klass name methods => exact callClass_exactly
      | native =>
        refine callsExactly_some (.value rfl ?_) (.refl P _)
        change vm.stackTop - (argCount + 1) + 1 = vm.stackTop - argCount
        omega
      | closure f upvalues => exact call_exactly a
      | upvalue location closed => exact callsExactly_error _ _
      | inst klass fields => exact callsExactly_error _ _
  | nil | bool b | number n | string s => exact callsExactly_error _ _

theorem invokeFromClass_exactly {methods : Table N} {name : Name} :
    CallsExactly P argCount vm (vm.invokeFromClass methods name argCount) := by
  unfold VM.invokeFromClass
  split
  · exact callsExactly_error _ _
  · exact callsExactly_bind fun method _ => call_exactly method

theorem invoke_exactly {name : Name} (hargs : argCount < vm.stackTop) :
    CallsExactly P argCount vm (vm.invoke name argCount) := by
  unfold VM.invoke
  split
  · exact callsExactly_error _ _
  · split
    · rename_i value _
      have hpoked : argCount < (vm.poke argCount value).stackTop := hargs
      exact (callValue_exactly hpoked).of_same ⟨rfl, rfl, rfl⟩ (.refl P _)
    · exact callsExactly_bind fun _ _ => invokeFromClass_exactly

theorem bindMethod_exactly {methods : Table N} {name : Name} (hreads : 0 < vm.stackTop) :
    CallsExactly P 0 vm (vm.bindMethod methods name) := by
  unfold VM.bindMethod
  split
  · exact callsExactly_error _ _
  · refine callsExactly_bind fun method _ => callsExactly_some (.value rfl ?_) (.append _ (by simp))
    change vm.stackTop - 1 + 1 = vm.stackTop - 0
    omega

end Calls

/-! ### Instructions -/

/-- What an instruction does to the frames and to the height of the stack, when the frame `frame` has
the height `h`. -/
inductive MovesExactly (i : Instr) (frame : CallFrame) (rest : List CallFrame) (h : ℕ)
    (vm : VM N (List Addr)) : Outcome N (List Addr) → Prop where
  | stay {vm' : VM N (List Addr)} (ip h' : ℕ) (edge : (ip, h') ∈ i.next frame.ip h)
      (frames : vm'.frames = { frame with ip := ip } :: rest)
      (stackTop : vm'.stackTop = frame.slots + h') : MovesExactly i frame rest h vm (.running vm')
  | call {vm' : VM N (List Addr)} (closure : Addr) (function : ObjFunction N)
      (upvalues : List (Option Addr)) (ip h' : ℕ) (edge : (ip, h' + 1) ∈ i.next frame.ip h)
      (frames : vm'.frames = ⟨closure, 0, frame.slots + h'⟩ :: { frame with ip := ip } :: rest)
      (code : vm'.objects[closure]? = some (.closure function upvalues))
      (stackTop : vm'.stackTop = frame.slots + h' + (function.arity + 1)) :
      MovesExactly i frame rest h vm (.running vm')
  | return_ {vm' : VM N (List Addr)} (return_ : i = .return_) (frames : vm'.frames = rest)
      (below : rest ≠ []) (stackTop : vm'.stackTop = frame.slots + 1) : MovesExactly i frame rest h vm (.running vm')
  | finish {vm' : VM N (List Addr)} (return_ : i = .return_) (last : rest = [])
      (frames : vm'.frames = []) (stackTop : vm'.stackTop = vm.stackTop - 2)
      (upvalues : frame.slots = 0 → vm'.upvalues = []) :
      MovesExactly i frame rest h vm (.finished .ok vm')
  | failed {vm' : VM N (List Addr)} (reset : vm.Reset vm') :
      MovesExactly i frame rest h vm (.finished .runtimeError vm')
  | bare {vm' : VM N (List Addr)} (reset : vm.Reset vm') :
      MovesExactly i frame rest h vm (.running vm')

/-- Every outcome of an instruction is as `MovesExactly` says, and the closures are still there. -/
def ExactAs (P : ObjFunction N → Prop) (i : Instr) (frame : CallFrame) (rest : List CallFrame)
    (h : ℕ) (vm : VM N (List Addr)) (r : Option (Outcome N (List Addr))) : Prop :=
  ∀ o, r = some o → MovesExactly i frame rest h vm o ∧ KeepsClosures P vm.objects o.vm.objects

section Rules

variable {P : ObjFunction N → Prop} {i : Instr} {frame : CallFrame} {rest : List CallFrame} {h : ℕ}
  {vm vm' : VM N (List Addr)}

theorem exactAs_none : ExactAs P i frame rest h vm none := by
  intro o ho
  cases ho

theorem exactAs_bind {α : Type} {x : Option α} {k : α → Option (Outcome N (List Addr))}
    (hk : ∀ a, x = some a → ExactAs P i frame rest h vm (k a)) :
    ExactAs P i frame rest h vm (x >>= k) := by
  intro o ho
  obtain ⟨a, ha, ho⟩ := Option.bind_eq_some_iff.1 ho
  exact hk a ha o ho

theorem exactAs_fail (message : String) : ExactAs P i frame rest h vm (vm.fail message) := by
  intro o ho
  obtain rfl := Option.some.inj ho
  exact ⟨.failed ⟨rfl, rfl, rfl, _, rfl⟩, .refl P _⟩

theorem exactAs_edge {ip h' : ℕ} (edge : (ip, h') ∈ i.next frame.ip h)
    (frames : vm'.frames = { frame with ip := ip } :: rest)
    (stackTop : vm'.stackTop = frame.slots + h') (keeps : KeepsClosures P vm.objects vm'.objects) :
    ExactAs P i frame rest h vm vm'.goOn := by
  intro o ho
  obtain rfl := Option.some.inj ho
  exact ⟨.stay ip h' edge frames stackTop, keeps⟩

section Top

variable (htop : vm.stackTop = frame.slots + h) (hpops : i.pops ≤ h)
  (hnext : i.next frame.ip h = [(frame.ip + i.size, h - i.pops + i.pushes)])

include htop hpops hnext

/-- An instruction that goes on to the next one. -/
theorem exactAs_goOn (frames : vm'.frames = { frame with ip := frame.ip + i.size } :: rest)
    (stackTop : vm'.stackTop = vm.stackTop - i.pops + i.pushes)
    (keeps : KeepsClosures P vm.objects vm'.objects) : ExactAs P i frame rest h vm vm'.goOn := by
  have hedge : (frame.ip + i.size, h - i.pops + i.pushes) ∈ i.next frame.ip h := by
    rw [hnext]
    exact List.mem_singleton_self _
  exact exactAs_edge hedge frames (by omega) keeps

/-- An instruction that calls, after it has taken the values above the arguments off the stack. -/
theorem exactAs_check (vm₁ : VM N (List Addr)) {argCount : ℕ}
    {r : Option (Bool × VM N (List Addr))} (hpushes : i.pushes = 1)
    (hframes : vm₁.frames = { frame with ip := frame.ip + i.size } :: rest)
    (hstderr : vm₁.stderr = vm.stderr) (hobjects : vm₁.objects = vm.objects)
    (htop₁ : vm₁.stackTop = vm.stackTop - i.pops + argCount + 1)
    (hcalls : CallsExactly P argCount vm₁ r) : ExactAs P i frame rest h vm (VM.check r) := by
  have hedge : (frame.ip + i.size, h - i.pops + 1) ∈ i.next frame.ip h := by
    rw [hnext, hpushes]
    exact List.mem_singleton_self _
  intro o ho
  cases r with
  | none => cases ho
  | some r =>
    obtain ⟨ok, vm'⟩ := r
    obtain ⟨hcalled, hkeeps⟩ := hcalls ok vm' rfl
    rw [hobjects] at hkeeps
    cases hcalled with
    | frame closure function upvalues frames code arity stackTop =>
      obtain rfl := Option.some.inj ho
      have hslots : vm₁.stackTop - argCount - 1 = frame.slots + (h - i.pops) := by omega
      rw [hframes, hslots] at frames
      exact ⟨.call closure function upvalues _ _ hedge frames code (by omega), hkeeps⟩
    | value frames stackTop =>
      obtain rfl := Option.some.inj ho
      exact ⟨.stay _ _ hedge (frames.trans hframes) (by omega), hkeeps⟩
    | reset reset =>
      obtain ⟨e, he⟩ := reset.stderr
      have hreset : vm.Reset vm' :=
        ⟨reset.frames, reset.stackTop, reset.upvalues, e, by rw [he, hstderr]⟩
      cases ok with
      | true =>
        obtain rfl := Option.some.inj ho
        exact ⟨.bare hreset, hkeeps⟩
      | false =>
        obtain rfl := Option.some.inj ho
        exact ⟨.failed hreset, hkeeps⟩

end Top

end Rules

section Instructions

variable [Double N] {frame : CallFrame} {rest : List CallFrame} {h : ℕ} {vm : VM N (List Addr)}
  {function : ObjFunction N} {upvalues : List (Option Addr)}

omit [Double N] in
/-- The function of a new closure is one of the constants. -/
theorem functionAt_mem {constants : List (Constant N)} {k : UInt8} {f : ObjFunction N}
    (hf : functionAt constants k = some f) : Constant.function f ∈ constants :=
  List.mem_of_getElem? (functionAt_some hf)

omit [Double N] in
/-- A binary operator. -/
theorem binaryOp_exactly {P : ObjFunction N → Prop} {i : Instr} (op : N → N → Value N)
    (hgoes : ∀ value, ExactAs P i frame rest h vm ((vm.pop 2).push value).goOn) :
    ExactAs P i frame rest h vm (vm.binaryOp op) := by
  unfold VM.binaryOp
  split
  · exact hgoes _
  · exact exactAs_fail _

theorem execute_exactly {i : Instr}
    (hframes : vm.frames = { frame with ip := frame.ip + i.size } :: rest)
    (htop : vm.stackTop = frame.slots + h) (hpops : i.pops ≤ h) (hreads : i.reads ≤ h) :
    ExactAs (fun f => Constant.function f ∈ function.constants) i frame rest h vm
      (execute openUpvalues { frame with ip := frame.ip + i.size } rest function upvalues vm i) := by
  have hkept : KeepsClosures (fun f => Constant.function f ∈ function.constants) vm.objects
      vm.objects := .refl _ _
  cases i with
  | nil | true_ | false_ | pop | equal | not =>
    exact exactAs_goOn htop hpops rfl hframes rfl hkept
  | greater | less | subtract | multiply | divide =>
    exact binaryOp_exactly _ fun value => exactAs_goOn htop hpops rfl hframes rfl hkept
  | constant k =>
    simp only [execute, VM.constant]
    split
    · exact exactAs_goOn htop hpops rfl hframes rfl hkept
    · exact exactAs_goOn htop hpops rfl hframes rfl hkept
    · exact exactAs_none
  | getLocal slot =>
    exact exactAs_bind fun value _ => exactAs_goOn htop hpops rfl hframes rfl hkept
  | setLocal slot =>
    refine exactAs_bind fun vm' hset => ?_
    obtain rfl := Option.some.inj hset
    exact exactAs_goOn htop hpops rfl hframes rfl hkept
  | getGlobal k =>
    refine exactAs_bind fun name _ => ?_
    unfold VM.getGlobal
    split
    · exact exactAs_goOn htop hpops rfl hframes rfl hkept
    · exact exactAs_fail _
  | defineGlobal k =>
    exact exactAs_bind fun name _ => exactAs_goOn htop hpops rfl hframes rfl hkept
  | setGlobal k =>
    refine exactAs_bind fun name _ => ?_
    unfold VM.setGlobal
    split
    · exact exactAs_goOn htop hpops rfl hframes rfl hkept
    · exact exactAs_fail _
  | getUpvalue slot =>
    refine exactAs_bind fun a _ => exactAs_bind fun value _ => ?_
    exact exactAs_goOn htop hpops rfl hframes rfl hkept
  | setUpvalue slot =>
    refine exactAs_bind fun a _ => exactAs_bind fun vm' hset => ?_
    have hsame := setUpvalue_same hset
    exact exactAs_goOn htop hpops rfl (hsame.frames.trans hframes) hsame.stackTop
      (setUpvalue_closures hset)
  | add =>
    simp only [execute, VM.add]
    split
    · exact exactAs_goOn htop hpops rfl hframes rfl hkept
    · exact exactAs_goOn htop hpops rfl hframes rfl hkept
    · exact exactAs_fail _
  | negate =>
    simp only [execute, VM.negate]
    split
    · exact exactAs_goOn htop hpops rfl hframes rfl hkept
    · exact exactAs_fail _
  | jump offset =>
    refine exactAs_edge (List.mem_singleton_self _) ?_ htop hkept
    simp [VM.jumpTo, hframes, Instr.size, Instr.encode, shortBytes]
  | jumpIfFalse offset =>
    simp only [execute]
    split
    · refine exactAs_edge (List.mem_cons_of_mem _ (List.mem_singleton_self _)) ?_ htop hkept
      simp [VM.jumpTo, hframes, Instr.size, Instr.encode, shortBytes]
    · exact exactAs_edge (List.mem_cons_self ..) hframes htop hkept
  | loop offset =>
    simp only [execute]
    split
    · exact exactAs_none
    · refine exactAs_edge (List.mem_singleton_self _) ?_ htop hkept
      simp [VM.jumpTo, hframes, Instr.size, Instr.encode, shortBytes]
  | print => exact exactAs_bind fun printed _ => exactAs_goOn htop hpops rfl hframes rfl hkept
  | call argCount =>
    have hargs : argCount.toNat + 1 ≤ h := hpops
    refine exactAs_check htop hpops rfl vm rfl hframes rfl rfl ?_ (callValue_exactly (by omega))
    change vm.stackTop = vm.stackTop - (argCount.toNat + 1) + argCount.toNat + 1
    omega
  | method k =>
    refine exactAs_bind fun name _ => exactAs_bind fun r hr => ?_
    obtain ⟨a, className, methods⟩ := r
    exact exactAs_goOn htop hpops rfl hframes rfl (asClass_keeps hr)
  | closure k us =>
    refine exactAs_bind fun f hf => exactAs_bind fun r hr => ?_
    obtain ⟨as, vm'⟩ := r
    have hsame := captures_same openUpvalues_local hr
    refine exactAs_goOn htop hpops rfl (hsame.frames.trans hframes) hsame.stackTop ?_
    exact makeClosure_closures (functionAt_mem hf) hr
  | closeUpvalue =>
    refine exactAs_bind fun vm' hclose => ?_
    have hsame := closeUpvalues_same hclose
    have hclosed : KeepsClosures (fun f => Constant.function f ∈ function.constants) vm.objects
        vm'.objects := closeUpvalues_closures hclose
    refine exactAs_goOn htop hpops rfl (hsame.frames.trans hframes) ?_ hclosed
    change vm'.stackTop - 1 = vm.stackTop - 1
    rw [hsame.stackTop]
  | getProperty k =>
    refine exactAs_bind fun name _ => ?_
    unfold VM.getProperty
    split
    · exact exactAs_fail _
    · split
      · exact exactAs_goOn htop hpops rfl hframes rfl hkept
      · have hone : 1 ≤ h := hpops
        refine exactAs_bind fun r _ => ?_
        refine exactAs_check htop hpops rfl vm rfl hframes rfl rfl ?_ (bindMethod_exactly (by omega))
        change vm.stackTop = vm.stackTop - 1 + 0 + 1
        omega
  | setProperty k =>
    refine exactAs_bind fun name _ => ?_
    unfold VM.setProperty
    split
    · exact exactAs_fail _
    · rename_i hinst
      exact exactAs_goOn htop hpops rfl hframes rfl (asInstance_keeps hinst)
  | inherit =>
    simp only [execute, VM.inherit_]
    split
    · exact exactAs_fail _
    · refine exactAs_bind fun r hr => ?_
      obtain ⟨a, className, methods⟩ := r
      exact exactAs_goOn htop hpops rfl hframes rfl (asClass_keeps hr)
  | invoke k argCount =>
    have hargs : argCount.toNat + 1 ≤ h := hpops
    refine exactAs_bind fun name _ => ?_
    refine exactAs_check htop hpops rfl vm rfl hframes rfl rfl ?_ (invoke_exactly (by omega))
    change vm.stackTop = vm.stackTop - (argCount.toNat + 1) + argCount.toNat + 1
    omega
  | class_ k =>
    refine exactAs_bind fun name _ => ?_
    exact exactAs_goOn htop hpops rfl hframes rfl (.append _ (by simp))
  | superInvoke k argCount =>
    have hargs : argCount.toNat + 2 ≤ h := hpops
    refine exactAs_bind fun name _ => exactAs_bind fun r _ => ?_
    refine exactAs_check htop hpops rfl (vm.pop 1) rfl hframes rfl rfl ?_ invokeFromClass_exactly
    change vm.stackTop - 1 = vm.stackTop - (argCount.toNat + 2) + argCount.toNat + 1
    omega
  | getSuper k =>
    have htwo : 2 ≤ h := hpops
    refine exactAs_bind fun name _ => exactAs_bind fun r _ => ?_
    have hone : 0 < (vm.pop 1).stackTop := by
      change 0 < vm.stackTop - 1
      omega
    refine exactAs_check htop hpops rfl (vm.pop 1) rfl hframes rfl rfl ?_ (bindMethod_exactly hone)
    change vm.stackTop - 1 = vm.stackTop - 2 + 0 + 1
    omega
  | return_ =>
    refine exactAs_bind fun vm' hclose => ?_
    have hsame := closeUpvalues_same hclose
    have hclosed : KeepsClosures (fun f => Constant.function f ∈ function.constants)
        (vm.pop 1).objects vm'.objects := closeUpvalues_closures hclose
    simp only
    split
    · rename_i hlast
      intro o ho
      obtain rfl := Option.some.inj ho
      refine ⟨.finish rfl (List.isEmpty_iff.1 hlast) (List.isEmpty_iff.1 hlast) ?_ fun hslots => ?_,
        hclosed⟩
      · change vm'.stackTop - 1 = vm.stackTop - 2
        rw [hsame.stackTop]
        exact Nat.sub_sub _ 1 1
      · have hopen : vm'.upvalues = [] := closeUpvalues_zero hslots hclose
        exact hopen
    · rename_i hbelow
      intro o ho
      obtain rfl := Option.some.inj ho
      exact ⟨.return_ rfl rfl (fun hnil => hbelow (List.isEmpty_iff.2 hnil)) rfl, hclosed⟩

end Instructions

/-! ### Levels -/

/-- Every closure is of a function that has a certificate. -/
def ClosuresOk (objects : List (Obj N)) : Prop :=
  ∀ (a : Addr) f us, objects[a]? = some (.closure f us) → ∃ sig, WellTyped f sig

/-- The code returns with nothing but the result above slot 0, as that of a script does. -/
def Code.ReturnsBare (cs : Code) : Prop := ∀ o n, cs.At o n .return_ → n.shape.slots.length = 2

/-- The frame is at an instruction whose height is `h`.  The frame at the bottom is that of a
script. -/
def FrameAt (objects : List (Obj N)) (bottom : Prop) (frame : CallFrame) (h : ℕ) : Prop :=
  ∃ f us sig cs n i, objects[frame.closure]? = some (.closure f us) ∧ Annotated f sig cs ∧
    (∀ g, Constant.function g ∈ f.constants → ∃ t, WellTyped g t) ∧
    cs.At frame.ip n i ∧ n.shape.slots.length = h ∧ (bottom → cs.ReturnsBare)

/-- The frames below a call whose callee is at `top`. -/
def Suspended (objects : List (Obj N)) : List CallFrame → ℕ → Prop
  | [], top => top = 0
  | frame :: rest, top => ∃ h, top = frame.slots + h ∧
      FrameAt objects (rest = []) frame (h + 1) ∧ Suspended objects rest frame.slots

/-- All frames have the heights their code has. -/
def Leveled (vm : VM N (List Addr)) : Prop :=
  ClosuresOk vm.objects ∧
    match vm.frames with
    | [] => True
    | frame :: rest => ∃ h, vm.stackTop = frame.slots + h ∧
        FrameAt vm.objects (rest = []) frame h ∧ Suspended vm.objects rest frame.slots

section Levels

variable {objects objects' : List (Obj N)} {P : ObjFunction N → Prop}

theorem FrameAt.keeps {bottom : Prop} {frame : CallFrame} {h : ℕ}
    (hframe : FrameAt objects bottom frame h) (hkeeps : KeepsClosures P objects objects') :
    FrameAt objects' bottom frame h := by
  obtain ⟨f, us, sig, cs, n, i, ho, hrest⟩ := hframe
  obtain ⟨us', ho'⟩ := hkeeps.kept _ f us ho
  exact ⟨f, us', sig, cs, n, i, ho', hrest⟩

theorem Suspended.keeps (hkeeps : KeepsClosures P objects objects') :
    ∀ {frames : List CallFrame} {top : ℕ}, Suspended objects frames top →
      Suspended objects' frames top := by
  intro frames
  induction frames with
  | nil =>
    intro top h
    exact h
  | cons frame rest ih =>
    intro top hsuspended
    obtain ⟨h, htop, hframe, hrest⟩ := hsuspended
    exact ⟨h, htop, hframe.keeps hkeeps, ih hrest⟩

theorem ClosuresOk.keeps (hclosures : ClosuresOk objects) (hkeeps : KeepsClosures P objects objects')
    (hP : ∀ f, P f → ∃ sig, WellTyped f sig) : ClosuresOk objects' := by
  intro a f us h
  rcases hkeeps.made a f us h with ⟨us', h'⟩ | h'
  · exact hclosures a f us' h'
  · exact hP f h'

/-- The machine between two calls of `interpret`. -/
structure VM.Idle (vm : VM N (List Addr)) : Prop where
  frames : vm.frames = []
  stackTop : vm.stackTop = 0
  upvalues : vm.upvalues = []

/-- What an instruction leaves: frames with the right heights, or a machine that is done. -/
def Outcome.Leveled : Outcome N (List Addr) → Prop
  | .running vm => Lox.Clox.Leveled vm
  | .finished result vm => result ≠ .compileError ∧ ClosuresOk vm.objects ∧ vm.Idle

theorem step_leveled [Double N] {vm : VM N (List Addr)} {o : Outcome N (List Addr)}
    (hlevel : Leveled vm) (hstep : step vm = some o) : o.Leveled := by
  obtain ⟨hclosures, hlevel⟩ := hlevel
  unfold step stepWith at hstep
  cases hframes : vm.frames with
  | nil => simp [hframes] at hstep
  | cons frame rest =>
    rw [hframes] at hlevel
    obtain ⟨h, htop, ⟨f, us, sig, cs, n, i, ho, hannotated, hfunctions, hat, rfl, hbottom⟩,
      hrest⟩ := hlevel
    simp only [hframes, Option.bind_eq_bind, Option.bind_eq_some_iff, Prod.exists] at hstep
    obtain ⟨function, upvalues, hclosure, j, hfetch, hstep⟩ := hstep
    rw [VM.asClosure_eq_some, ho] at hclosure
    cases hclosure
    rw [hannotated.fetch hat] at hfetch
    cases hfetch
    split at hstep
    · cases hstep
    have hreads := hannotated.reads hat
    have hpops : i.pops ≤ n.shape.slots.length := by
      by_cases hi : i = .return_
      · rw [hi] at hreads ⊢
        exact hreads
      · exact (hannotated.pops hat hi).le
    have htop₁ : { vm with frames := { frame with ip := frame.ip + i.size } :: rest }.stackTop
        = frame.slots + n.shape.slots.length := htop
    obtain ⟨hmoves, hkeeps⟩ := execute_exactly rfl htop₁ hpops hreads o hstep
    have hclosures' : ClosuresOk o.vm.objects := hclosures.keeps hkeeps hfunctions
    have hrest' : Suspended o.vm.objects rest frame.slots := hrest.keeps hkeeps
    have hframe : ∀ {ip h' : ℕ}, (ip, h') ∈ i.next frame.ip n.shape.slots.length →
        FrameAt o.vm.objects (rest = []) { frame with ip := ip } h' := by
      intro ip h' edge
      obtain ⟨n', i', hat', hlength⟩ := hannotated.next hat edge
      obtain ⟨us', ho'⟩ := hkeeps.kept _ f us ho
      exact ⟨f, us', sig, cs, n', i', ho', hannotated, hfunctions, hat', hlength, hbottom⟩
    cases hmoves with
    | stay ip h' edge frames stackTop =>
      refine ⟨hclosures', ?_⟩
      rw [frames]
      exact ⟨h', stackTop, hframe edge, hrest'⟩
    | call closure g us' ip h' edge frames code stackTop =>
      refine ⟨hclosures', ?_⟩
      rw [frames]
      obtain ⟨t, ht⟩ := hclosures' closure g us' code
      obtain ⟨cs', hannotated'⟩ := ht.annotated
      obtain ⟨n', i', hat', hlength⟩ := hannotated'.goes_entry.length
      refine ⟨g.arity + 1, stackTop, ⟨g, us', t, cs', n', i', code, hannotated',
        ht.certified.functions, hat', ?_, fun hnil => by cases hnil⟩, h', rfl, hframe edge, hrest'⟩
      simpa [entryShape] using hlength
    | return_ return_ frames below stackTop =>
      refine ⟨hclosures', ?_⟩
      rw [frames]
      cases rest with
      | nil => exact absurd rfl below
      | cons caller rest =>
        obtain ⟨h', hslots, hcaller, hbelow⟩ := hrest'
        exact ⟨h' + 1, by rw [stackTop, hslots]; omega, hcaller, hbelow⟩
    | finish return_ last frames stackTop upvalues =>
      subst return_ last
      have hslots : frame.slots = 0 := hrest
      have hbare := hbottom rfl _ n hat
      exact ⟨by simp, hclosures', frames, by omega, upvalues hslots⟩
    | failed reset => exact ⟨by simp, hclosures', reset.frames, reset.stackTop, reset.upvalues⟩
    | bare reset =>
      refine ⟨hclosures', ?_⟩
      rw [reset.frames]
      trivial

/-- However long it runs. -/
theorem run_leveled [Double N] (n : ℕ) : ∀ {vm : VM N (List Addr)} {o : Outcome N (List Addr)},
    Leveled vm → run n vm = some o → o.Leveled := by
  induction n with
  | zero =>
    intro vm o hlevel hrun
    obtain rfl := Option.some.inj hrun
    exact hlevel
  | succ n ih =>
    intro vm o hlevel hrun
    unfold run runWith at hrun
    split at hrun
    · rename_i vm' hstep
      exact ih (step_leveled hlevel hstep) hrun
    · exact step_leveled hlevel hrun

end Levels

end Lox.Clox
