import Lox.Clox.Errors
import Lox.Clox.Initializers

/-!
# Construction

A call of a class with an initializer evaluates to the new instance, and the call of `init` on an
instance evaluates to that instance (`construction_yields_instance`).  While the initializer runs,
whatever it calls, slot 0 of its frame holds the instance (`InCall.step`); when its frame is gone, the
instance is left in the place of the callee (`InCall.returns`).
-/

namespace Lox.Clox

variable {N : Type}

/-! ### Calls that have not returned -/

/-- The next instruction assigns the variable in the stack slot `j`, as a local variable or as one
that is captured. -/
def VM.WritesSlot (vm : VM N (List Addr)) (j : ℕ) : Prop :=
  ∃ frame rest f us, vm.frames = frame :: rest ∧
    vm.objects[frame.closure]? = some (.closure f us) ∧
    ((∃ k, f.fetch frame.ip = some (.setLocal k) ∧ frame.slots + k.toNat = j) ∨
      ∃ k a, f.fetch frame.ip = some (.setUpvalue k) ∧ us[k.toNat]? = some (some a) ∧
        OpenAt vm.objects a j)

/-- A call of the closure `m` that has not returned: its frame is above those of the callers, and its
slot 0 holds `this`. -/
structure InCall (m : Addr) (base : ℕ) (callers : List CallFrame) (this : Value N)
    (vm : VM N (List Addr)) : Prop where
  frames : ∃ inner ip, vm.frames = inner ++ ⟨m, ip, base⟩ :: callers
  this : vm.stack base = this

section Calls

variable [Double N] {S : List (Ty N)} {vm vm' : VM N (List Addr)} {frame : CallFrame}
  {rest : List CallFrame} {f : ObjFunction N} {us : List (Option Addr)} {sig : Signature} {cs : Code}
  {n : Note} {i : Instr} {below : List Slot}

/-- Slot 0 of a method that has not returned. -/
theorem Next.receiver (h : Next S vm frame rest f us sig cs n i below) {g : CallFrame}
    {f' : ObjFunction N} {sig' : Signature} (hmem : g ∈ frame :: rest)
    (hg : S[g.closure]? = some (.closure f' sig')) (hmethod : sig'.method = true) :
    (∃ s, slotAt g.slots (n.shape.slots ++ below) = some s ∧ s.kind = .inst) ∧
      g.slots ≤ frame.slots ∧ (g ∈ rest → g.slots < frame.slots) := by
  have hinst : sig'.bottom = .inst := by simp [Signature.bottom, hmethod]
  have hcallers : g ∈ rest → (∃ s, slotAt g.slots (n.shape.slots ++ below) = some s ∧ s.kind = .inst) ∧
      g.slots < frame.slots := by
    intro hrest
    obtain ⟨f₁, sig₁, s, hclosure, hs, hk⟩ := h.running.waiting.bottom hrest
    rw [hg] at hclosure
    cases hclosure
    have hlt := slotAt_lt hs
    refine ⟨⟨s, by rw [slotAt_append _ hlt]; exact hs, hk.trans hinst⟩, ?_⟩
    rw [h.running.base]
    exact hlt
  rcases List.mem_cons.1 hmem with rfl | hrest
  · refine ⟨?_, le_rfl, fun hrest => (hcallers hrest).2⟩
    have hclosure := h.running.frame_ok.closure
    rw [hg] at hclosure
    cases hclosure
    obtain ⟨s, hs, hk⟩ := slotAt_bottom h.running.bottom below
    exact ⟨s, by rw [h.running.base]; exact hs, hk.trans hinst⟩
  · obtain ⟨hs, hlt⟩ := hcallers hrest
    exact ⟨hs, hlt.le, fun _ => hlt⟩

/-- `OP_RETURN` leaves the value on top in the place of the callee. -/
theorem Next.result (h : Next S vm frame rest f us sig cs n .return_ below) (hne : rest ≠ [])
    (hstep : Lox.Clox.step vm = some (.running vm')) : vm'.stack frame.slots = vm.peek 0 := by
  rw [h.step] at hstep
  simp only [execute, VM.return_, Option.bind_eq_bind, Option.bind_eq_some_iff] at hstep
  obtain ⟨vm₁, -, hstep⟩ := hstep
  rw [if_neg (by simpa using hne)] at hstep
  obtain rfl := Outcome.running.inj (Option.some.inj hstep)
  exact Function.update_self _ _ _

section Methods

variable {m : Addr} {base : ℕ} {callers : List CallFrame} {this : Value N} {g : ObjFunction N}
  {t : Signature} (hm : S[m]? = some (.closure g t)) (hmethod : t.method = true)

include hm hmethod

/-- Slot 0 of a method is never assigned. -/
theorem InCall.not_writes (h : InCall m base callers this vm) (htyped : Typed S vm) :
    ¬ vm.WritesSlot base := by
  obtain ⟨inner, ip, hframes⟩ := h.frames
  obtain ⟨S', frame, rest, f, us, sig, cs, n, i, below, hS, hnext⟩ := htyped.next
  have hmem : (⟨m, ip, base⟩ : CallFrame) ∈ frame :: rest := by
    rw [← hnext.running.frames, hframes]
    simp
  obtain ⟨⟨s, hs, hk⟩, -⟩ := hnext.receiver hmem (prefix_getElem? hS hm) hmethod
  obtain ⟨hlocal, hupvalue⟩ := hnext.not_assigned hs hk
  rintro ⟨frame', rest', f', us', hframes', hclosure, hwrites⟩
  rw [hnext.running.frames] at hframes'
  obtain ⟨rfl, rfl⟩ := List.cons.inj hframes'
  rw [hnext.closure] at hclosure
  cases hclosure
  rw [hnext.annotated.fetch hnext.at_] at hwrites
  rcases hwrites with ⟨k, hi, hslot⟩ | ⟨k, a, hi, ha, hopen⟩
  · exact hlocal k (Option.some.inj hi) hslot.symm
  · exact hupvalue k a (Option.some.inj hi) ha hopen

/-- The method goes on. -/
theorem InCall.step (h : InCall m base callers this vm) (htyped : Typed S vm)
    (hstep : Lox.Clox.step vm = some (.running vm')) (hmore : callers.length < vm'.frames.length) :
    InCall m base callers this vm' := by
  obtain ⟨inner, ip, hframes⟩ := h.frames
  obtain ⟨S', frame, rest, f, us, sig, cs, n, i, below, hS, hnext⟩ := htyped.next
  obtain ⟨hmoves, -⟩ := hnext.moves hstep
  have hsplit : frame :: rest = inner ++ ⟨m, ip, base⟩ :: callers := by
    rw [← hnext.running.frames, hframes]
  have hmem : (⟨m, ip, base⟩ : CallFrame) ∈ frame :: rest := by
    rw [hsplit]
    simp
  obtain ⟨⟨s, hs, hk⟩, hle, hlt⟩ := hnext.receiver hmem (prefix_getElem? hS hm) hmethod
  have hstack : (i = .return_ → base < frame.slots) → vm'.stack base = this := by
    intro hreturn
    have hkept := execute_stack (hnext.spares hs hk hle hreturn) (.running vm') (by
      rw [← hnext.step]
      exact hstep)
    exact hkept.trans h.this
  cases inner with
  | nil =>
    obtain ⟨rfl, rfl⟩ := List.cons.inj hsplit
    cases hmoves with
    | stay ip' h' edge frames stackTop =>
      refine ⟨⟨[], ip', frames⟩, hstack ?_⟩
      rintro rfl
      cases edge
    | call closure function upvalues ip' h' edge frames code stackTop =>
      refine ⟨⟨[_], ip', frames⟩, hstack ?_⟩
      rintro rfl
      cases edge
    | return_ return_ frames below stackTop =>
      rw [frames] at hmore
      exact absurd hmore (lt_irrefl _)
    | bare reset =>
      rw [reset.frames] at hmore
      exact absurd hmore (Nat.not_lt_zero _)
  | cons first inner =>
    obtain ⟨rfl, rfl⟩ := List.cons.inj hsplit
    have hthis : vm'.stack base = this := hstack fun _ => hlt (by simp)
    cases hmoves with
    | stay ip' h' edge frames stackTop => exact ⟨⟨_ :: inner, ip, frames⟩, hthis⟩
    | call closure function upvalues ip' h' edge frames code stackTop =>
      exact ⟨⟨_ :: _ :: inner, ip, frames⟩, hthis⟩
    | return_ return_ frames below stackTop => exact ⟨⟨inner, ip, frames⟩, hthis⟩
    | bare reset =>
      rw [reset.frames] at hmore
      exact absurd hmore (Nat.not_lt_zero _)

omit hmethod

/-- The initializer returns. -/
theorem InCall.returns {program : ObjFunction N} (h : InCall m base callers this vm)
    (htyped : Typed S vm) (hprimed : Primed program vm)
    (hinit : InitCode g) (hstep : Lox.Clox.step vm = some (.running vm')) (hne : callers ≠ [])
    (hdone : vm'.frames.length = callers.length) :
    vm'.frames = callers ∧ vm'.stackTop = base + 1 ∧ vm'.stack base = this := by
  obtain ⟨inner, ip, hframes⟩ := h.frames
  obtain ⟨S', frame, rest, f, us, sig, cs, n, i, below, hS, hnext⟩ := htyped.next
  obtain ⟨hmoves, -⟩ := hnext.moves hstep
  have hsplit : frame :: rest = inner ++ ⟨m, ip, base⟩ :: callers := by
    rw [← hnext.running.frames, hframes]
  have hlength := congrArg List.length hsplit
  simp only [List.length_cons, List.length_append] at hlength
  have hpos := List.length_pos_iff.2 hne
  cases hmoves with
  | stay ip' h' edge frames stackTop =>
    rw [frames, List.length_cons] at hdone
    omega
  | call closure function upvalues ip' h' edge frames code stackTop =>
    rw [frames, List.length_cons, List.length_cons] at hdone
    omega
  | bare reset =>
    rw [reset.frames, List.length_nil] at hdone
    omega
  | return_ return_ frames below stackTop =>
    rw [frames] at hdone
    obtain rfl : inner = [] := List.length_eq_zero_iff.1 (by omega)
    obtain ⟨rfl, rfl⟩ := List.cons.inj hsplit
    subst return_
    refine ⟨frames, stackTop, ?_⟩
    have hready := hprimed.ready _ (by rw [hnext.running.frames]; rfl) f us hnext.closure
    have hclosure := hnext.running.frame_ok.closure
    rw [prefix_getElem? hS hm] at hclosure
    cases hclosure
    have hpeek := hready.1 hinit (hnext.annotated.fetch hnext.at_)
    exact (hnext.result hne hstep).trans (hpeek.trans h.this)

include hmethod

/-- A call of an initializer, while it runs and when it has returned. -/
theorem InCall.runs {program : ObjFunction N}
    (hgen : ∀ f, program.Contains f → ∃ is, Generated f is) (hinit : InitCode g)
    (h : InCall m base callers this vm) (htyped : Typed S vm) (hprimed : Primed program vm)
    (hne : callers ≠ []) {vm₂ : VM N (List Addr)}
    (hreach : ReachesWhile openUpvalues (fun v => callers.length < v.frames.length) vm vm₂) :
    (callers.length < vm₂.frames.length →
      Typed S vm₂ ∧ Primed program vm₂ ∧ InCall m base callers this vm₂) ∧
    (vm₂.frames.length = callers.length →
      vm₂.frames = callers ∧ vm₂.stackTop = base + 1 ∧ vm₂.stack base = this) := by
  induction hreach with
  | refl =>
    refine ⟨fun _ => ⟨htyped, hprimed, h⟩, fun hdone => ?_⟩
    obtain ⟨inner, ip, hframes⟩ := h.frames
    rw [hframes, List.length_append, List.length_cons] at hdone
    omega
  | @step vm₁ vm₂ reaches holds hstep ih =>
    obtain ⟨htyped₁, hprimed₁, hcall⟩ := ih.1 holds
    refine ⟨fun hmore => ⟨?_, ?_, ?_⟩, fun hdone => ?_⟩
    · exact step_stays htyped₁ hstep (List.length_pos_iff.1 (by omega))
    · exact step_primed hgen htyped₁ hprimed₁ hstep
    · exact hcall.step hm hmethod htyped₁ hstep hmore
    · exact hcall.returns hm htyped₁ hprimed₁ hinit hstep hne hdone

end Methods

end Calls

/-! ### Calls of initializers -/

/-- The next instruction calls the value `callee` with `argCount` arguments. -/
inductive VM.CallsValue (vm : VM N (List Addr)) : Value N → ℕ → Prop where
  | call {argCount : UInt8} {constants : List (Constant N)}
      (current : vm.current = some (.call argCount, constants)) :
      vm.CallsValue (vm.peek argCount.toNat) argCount.toNat
  | field {k argCount : UInt8} {constants : List (Constant N)} {name : Name} {a klass : Addr}
      {fields : Table N} {callee : Value N}
      (current : vm.current = some (.invoke k argCount, constants))
      (constant : stringAt constants k = some name)
      (receiver : vm.asInstance (vm.peek argCount.toNat) = some (a, klass, fields))
      (value : fields name = some callee) : vm.CallsValue callee argCount.toNat

/-- The next instruction calls the initializer `init`, which finds `this` in its slot 0, the stack
slot `base`, and starts with the given objects. -/
inductive VM.CallsInit (vm : VM N (List Addr)) :
    Value N → Value N → ℕ → ℕ → List (Obj N) → Prop where
  /-- A class is called: a new instance is put in the place of the callee. -/
  | klass {argCount : ℕ} {a : Addr} {name : Name} {methods : Table N} {init : Value N}
      (calls : vm.CallsValue (.obj a) argCount)
      (object : vm.objects[a]? = some (.klass name methods))
      (method : methods "init".toList = some init) :
      vm.CallsInit (.obj vm.objects.length) init argCount (vm.stackTop - argCount - 1)
        (vm.objects ++ [.inst a Table.empty])
  /-- A bound method is called. -/
  | bound {argCount : ℕ} {a c m : Addr} {receiver : Value N} {name : Name} {methods : Table N}
      (calls : vm.CallsValue (.obj a) argCount)
      (object : vm.objects[a]? = some (.boundMethod receiver m))
      (klass : vm.objects[c]? = some (.klass name methods))
      (method : methods "init".toList = some (.obj m)) :
      vm.CallsInit receiver (.obj m) argCount (vm.stackTop - argCount - 1) vm.objects
  /-- `init` is invoked on an instance. -/
  | invoke {k argCount : UInt8} {constants : List (Constant N)} {a c : Addr} {name : Name}
      {fields methods : Table N} {init : Value N}
      (current : vm.current = some (.invoke k argCount, constants))
      (constant : stringAt constants k = some "init".toList)
      (receiver : vm.asInstance (vm.peek argCount.toNat) = some (a, c, fields))
      (field : fields "init".toList = none)
      (klass : vm.objects[c]? = some (.klass name methods))
      (method : methods "init".toList = some init) :
      vm.CallsInit (.obj a) init argCount.toNat (vm.stackTop - argCount.toNat - 1) vm.objects
  /-- `init` of the superclass is invoked on `this`. -/
  | superInvoke {k argCount : UInt8} {constants : List (Constant N)} {a : Addr} {name : Name}
      {methods : Table N} {init : Value N}
      (current : vm.current = some (.superInvoke k argCount, constants))
      (constant : stringAt constants k = some "init".toList)
      (klass : vm.asClass (vm.peek 0) = some (a, name, methods))
      (method : methods "init".toList = some init) :
      vm.CallsInit (vm.peek (argCount.toNat + 1)) init argCount.toNat
        (vm.stackTop - argCount.toNat - 2) vm.objects

/-- The initializer is the `init` of a class. -/
theorem VM.CallsInit.of_class {vm : VM N (List Addr)} {this init : Value N} {argCount base : ℕ}
    {objects : List (Obj N)} (h : vm.CallsInit this init argCount base objects) :
    ∃ (c : Addr) (name : Name) (methods : Table N), vm.objects[c]? = some (.klass name methods) ∧
      methods "init".toList = some init := by
  cases h with
  | klass calls object method => exact ⟨_, _, _, object, method⟩
  | bound calls object klass method => exact ⟨_, _, _, klass, method⟩
  | invoke current constant receiver field klass method => exact ⟨_, _, _, klass, method⟩
  | superInvoke current constant klass method =>
    exact ⟨_, _, _, (VM.asClass_eq_some.1 klass).2, method⟩

/-- There is a next instruction. -/
theorem VM.CallsInit.frames {vm : VM N (List Addr)} {this init : Value N} {argCount base : ℕ}
    {objects : List (Obj N)} (h : vm.CallsInit this init argCount base objects) : vm.frames ≠ [] := by
  have hcurrent : ∀ {j}, vm.current = some j → vm.frames ≠ [] := by
    intro j hj hframes
    simp [VM.current, hframes] at hj
  have hvalue : ∀ {callee argCount}, vm.CallsValue callee argCount → vm.frames ≠ [] := by
    intro callee argCount hcalls
    cases hcalls with
    | call current => exact hcurrent current
    | field current constant receiver value => exact hcurrent current
  cases h with
  | klass calls object method => exact hvalue calls
  | bound calls object klass method => exact hvalue calls
  | invoke current constant receiver field klass method => exact hcurrent current
  | superInvoke current constant klass method => exact hcurrent current

/-- A closure is called, and its frame is pushed. -/
theorem check_call {vm₀ : VM N (List Addr)} {m : Addr} {g : ObjFunction N}
    {us' : List (Option Addr)} (hm : vm₀.objects[m]? = some (.closure g us'))
    (hroom : vm₀.frames.length ≠ framesMax) :
    ∃ vm₁, VM.check (vm₀.call m g.arity) = some (.running vm₁) ∧
      vm₁.frames = ⟨m, 0, vm₀.stackTop - g.arity - 1⟩ :: vm₀.frames ∧
      vm₁.stack (vm₀.stackTop - g.arity - 1) = vm₀.peek g.arity ∧ vm₁.objects = vm₀.objects := by
  rw [VM.call_eq (VM.asClosure_eq_some.2 hm) hroom]
  refine ⟨_, rfl, rfl, ?_, rfl⟩
  change vm₀.stack _ = vm₀.stack _
  rw [Nat.sub_right_comm]

theorem peek_poke {vm₀ : VM N (List Addr)} (d : ℕ) (v : Value N) : (vm₀.poke d v).peek d = v :=
  Function.update_self _ _ _

theorem invokeFromClass_call {vm₀ : VM N (List Addr)} {methods : Table N} {name : Name} {m : Addr}
    (hmethod : methods name = some (.obj m)) (argCount : ℕ) :
    vm₀.invokeFromClass methods name argCount = vm₀.call m argCount := by
  simp only [VM.invokeFromClass, hmethod]
  rfl

theorem invoke_call {vm₀ : VM N (List Addr)} {a c m : Addr} {className name : Name}
    {fields methods : Table N} {argCount : ℕ}
    (hreceiver : vm₀.asInstance (vm₀.peek argCount) = some (a, c, fields))
    (hfield : fields name = none) (hclass : vm₀.objects[c]? = some (.klass className methods))
    (hmethod : methods name = some (.obj m)) : vm₀.invoke name argCount = vm₀.call m argCount := by
  simp only [VM.invoke, hreceiver, hfield, VM.asClass_eq_some.2 ⟨rfl, hclass⟩, Option.bind_eq_bind,
    Option.bind_some]
  exact invokeFromClass_call hmethod argCount

section CallSites

variable [Double N] {S : List (Ty N)} {vm : VM N (List Addr)} {frame : CallFrame}
  {rest : List CallFrame} {f : ObjFunction N} {us : List (Option Addr)} {sig : Signature} {cs : Code}
  {n : Note} {i : Instr} {below : List Slot}

/-- The methods of classes are closures of methods. -/
theorem Next.method (h : Next S vm frame rest f us sig cs n i below) {c m : Addr} {name key : Name}
    {methods : Table N} (hclass : vm.objects[c]? = some (.klass name methods))
    (hmethod : methods key = some (.obj m)) {g : ObjFunction N} {us' : List (Option Addr)}
    (hm : vm.objects[m]? = some (.closure g us')) :
    ∃ t, S[m]? = some (.closure g t) ∧ t.method = true := by
  obtain ⟨T, hT, hok⟩ := h.running.memory.heap.type_of hclass
  cases T with
  | klass =>
    obtain ⟨m', g', t, hv, hS, ht⟩ := HasKind.meth_iff.1 (hok _ _ hmethod)
    cases hv
    obtain ⟨us'', hclosure, -⟩ := h.running.memory.heap.closure hS
    rw [hm] at hclosure
    cases hclosure
    exact ⟨t, hS, ht⟩
  | _ => exact hok.elim

/-- The value is called with the frames and the stack as they are, up to the place of the callee. -/
theorem VM.CallsValue.step {callee : Value N} {argCount : ℕ} (hcalls : vm.CallsValue callee argCount)
    (h : Next S vm frame rest f us sig cs n i below) :
    ∃ vm₀ : VM N (List Addr), Lox.Clox.step vm = VM.check (vm₀.callValue callee argCount) ∧
      vm₀.objects = vm.objects ∧ vm₀.frames = { frame with ip := frame.ip + i.size } :: rest ∧
      vm₀.stackTop = vm.stackTop := by
  cases hcalls with
  | call current =>
    obtain ⟨rfl, -⟩ := h.current_eq current
    exact ⟨_, h.step, rfl, rfl, rfl⟩
  | @field k argCount constants name a klass fields callee current constant receiver value =>
    obtain ⟨rfl, rfl⟩ := h.current_eq current
    have hreceiver : { vm with frames := { frame with
        ip := frame.ip + (Instr.invoke k argCount).size } :: rest }.asInstance
          (vm.peek argCount.toNat) = some (a, klass, fields) := receiver
    refine ⟨({ vm with frames := { frame with ip := frame.ip + (Instr.invoke k argCount).size } :: rest }
      : VM N (List Addr)).poke argCount.toNat callee, ?_, rfl, rfl, rfl⟩
    rw [h.step]
    simp only [execute, constant, Option.bind_eq_bind, Option.bind_some, VM.invoke]
    have hpeek : { vm with frames := { frame with
        ip := frame.ip + (Instr.invoke k argCount).size } :: rest }.peek argCount.toNat
          = vm.peek argCount.toNat := rfl
    rw [hpeek, hreceiver]
    simp only [value]

/-- The initializer is called. -/
theorem VM.CallsInit.step {this init : Value N} {argCount base : ℕ} {objects : List (Obj N)}
    (hcalls : vm.CallsInit this init argCount base objects) (h : Next S vm frame rest f us sig cs n i below)
    {m : Addr} (hinit : init = .obj m) {g : ObjFunction N} {us' : List (Option Addr)}
    (hm : vm.objects[m]? = some (.closure g us')) (harity : argCount = g.arity)
    (hroom : vm.frames.length < framesMax) :
    ∃ vm₁, Lox.Clox.step vm = some (.running vm₁) ∧
      vm₁.frames = ⟨m, 0, base⟩ :: { frame with ip := frame.ip + i.size } :: rest ∧
      vm₁.stack base = this ∧ vm₁.objects = objects := by
  have hlength : ({ frame with ip := frame.ip + i.size } :: rest).length ≠ framesMax := by
    rw [h.running.frames] at hroom
    exact hroom.ne
  subst hinit
  cases hcalls with
  | @klass _ a name methods _ calls object method =>
    obtain ⟨vm₀, hstep, hobjects, hframes, htop⟩ := calls.step h
    subst harity
    have hclass : vm₀.callValue (.obj a) g.arity
        = ((vm₀.allocate (.inst a Table.empty)).2.poke g.arity (.obj vm₀.objects.length)).call m
          g.arity := by
      have hobject : vm₀.objects[a]? = some (.klass name methods) := by rw [hobjects, object]
      simp only [VM.callValue, hobject, VM.callClass, method]
      rfl
    have hnew : ((vm₀.allocate (.inst a Table.empty)).2.poke g.arity
        (.obj vm₀.objects.length)).objects[m]? = some (.closure g us') := by
      change (vm₀.objects ++ [_])[m]? = _
      rw [hobjects, List.getElem?_append_left (List.getElem?_eq_some_iff.1 hm).1, hm]
    obtain ⟨vm₁, hcheck, hframes₁, hstack₁, hobjects₁⟩ :=
      check_call hnew (by rw [← hframes] at hlength; exact hlength)
    rw [peek_poke, hobjects] at hstack₁
    refine ⟨vm₁, by rw [hstep, hclass, hcheck], ?_, ?_, ?_⟩
    · rw [← htop, ← hframes]
      exact hframes₁
    · rw [← htop]
      exact hstack₁
    · rw [← hobjects]
      exact hobjects₁
  | @bound _ a c _ _ name methods calls object klass method =>
    obtain ⟨vm₀, hstep, hobjects, hframes, htop⟩ := calls.step h
    subst harity
    have hbound : vm₀.callValue (.obj a) g.arity = (vm₀.poke g.arity this).call m g.arity := by
      simp only [VM.callValue, hobjects, object]
    have hnew : (vm₀.poke g.arity this).objects[m]? = some (.closure g us') := by
      change vm₀.objects[m]? = _
      rw [hobjects, hm]
    obtain ⟨vm₁, hcheck, hframes₁, hstack₁, hobjects₁⟩ :=
      check_call hnew (by rw [← hframes] at hlength; exact hlength)
    rw [peek_poke] at hstack₁
    refine ⟨vm₁, by rw [hstep, hbound, hcheck], ?_, ?_, ?_⟩
    · rw [← htop, ← hframes]
      exact hframes₁
    · rw [← htop]
      exact hstack₁
    · rw [← hobjects]
      exact hobjects₁
  | @invoke k argCount constants a c name fields methods _ current constant receiver field klass method =>
    obtain ⟨rfl, rfl⟩ := h.current_eq current
    have hstep := h.step
    simp only [execute, constant, Option.bind_eq_bind, Option.bind_some] at hstep
    have hinvoke := hstep.trans (congrArg VM.check (invoke_call receiver field klass method))
    have hclosure : { vm with frames := { frame with
        ip := frame.ip + (Instr.invoke k argCount).size } :: rest }.objects[m]?
          = some (.closure g us') := hm
    obtain ⟨vm₁, hcheck, hframes₁, hstack₁, hobjects₁⟩ := check_call hclosure hlength
    rw [harity] at hinvoke receiver ⊢
    exact ⟨vm₁, hinvoke.trans hcheck, hframes₁, hstack₁.trans (VM.asInstance_eq_some.1 receiver).1,
      hobjects₁⟩
  | @superInvoke k argCount constants a name methods _ current constant klass method =>
    obtain ⟨rfl, rfl⟩ := h.current_eq current
    have hclass : { vm with frames := { frame with
        ip := frame.ip + (Instr.superInvoke k argCount).size } :: rest }.asClass (vm.peek 0)
          = some (a, name, methods) := klass
    have hstep := h.step
    simp only [execute, constant, Option.bind_eq_bind, Option.bind_some, VM.superInvoke] at hstep
    have hpeek : { vm with frames := { frame with
        ip := frame.ip + (Instr.superInvoke k argCount).size } :: rest }.peek 0 = vm.peek 0 := rfl
    rw [hpeek, hclass, Option.bind_some] at hstep
    have hinvoke := hstep.trans (congrArg VM.check (invokeFromClass_call method argCount.toNat))
    have hclosure : ({ vm with frames := { frame with
        ip := frame.ip + (Instr.superInvoke k argCount).size } :: rest }.pop 1).objects[m]?
          = some (.closure g us') := hm
    obtain ⟨vm₁, hcheck, hframes₁, hstack₁, hobjects₁⟩ := check_call hclosure hlength
    have hplace : vm.stackTop - g.arity - 2 = vm.stackTop - 1 - g.arity - 1 := by omega
    rw [harity] at hinvoke ⊢
    rw [hplace]
    refine ⟨vm₁, hinvoke.trans hcheck, hframes₁, hstack₁.trans ?_, hobjects₁⟩
    change vm.stack (vm.stackTop - 1 - 1 - g.arity) = vm.stack (vm.stackTop - 1 - (g.arity + 1))
    congr 1
    omega

end CallSites

/-! ### Runs -/

section Runs

variable [Double N] {source : List Char} {f : ObjFunction N}

/-- The script is about to run. -/
theorem start_primed (haccepts : Accepts (scanAll source) f) (clock : ℕ → N) :
    Typed [.native] ((VM.init clock).start f) ∧ Primed f ((VM.init clock).start f) := by
  have harity := accepts_arity haccepts
  have htyped := start_typed (init_memory clock) rfl harity (compile_wellTyped haccepts)
  have hobjects : ((VM.init clock : VM N (List Addr)).start f).objects
      = [.native] ++ [.closure f (List.replicate f.upvalueCount none)] := by
    simp [VM.start, VM.init, VM.call, VM.asClosure, VM.allocate, VM.push, harity, framesMax]
  have hframes : ((VM.init clock : VM N (List Addr)).start f).frames = [⟨1, 0, 0⟩] :=
    start_frames harity rfl
  have hclosures : ∀ (a : Addr) g us, ((VM.init clock : VM N (List Addr)).start f).objects[a]?
      = some (.closure g us) → g = f := by
    intro a g us ha
    rw [hobjects] at ha
    have hmem := List.mem_of_getElem? ha
    simp only [List.singleton_append, List.mem_cons, List.not_mem_nil, or_false, reduceCtorEq,
      Obj.closure.injEq, false_or] at hmem
    exact hmem.1
  refine ⟨htyped, fun a g us ha => ?_, fun a name methods ha => ?_, fun frame hframe => ?_, ?_⟩
  · rw [hclosures a g us ha]
    exact .refl f
  · rw [hobjects] at ha
    have hmem := List.mem_of_getElem? ha
    simp at hmem
  · obtain ⟨S, frame', rest, g, us, sig, cs, n, i, below, -, hnext⟩ := htyped.next
    have hfirst := hnext.running.frames
    rw [hframes] at hframe hfirst
    cases hframe
    obtain ⟨rfl, -⟩ := List.cons.inj hfirst
    obtain rfl := hclosures _ g us hnext.closure
    exact (hnext.entry (accepts_generated haccepts (.refl g)) rfl).ready
  · rw [hframes]
    simp

/-- A run of an accepted program on a new machine. -/
theorem run_primed (haccepts : Accepts (scanAll source) f) (clock : ℕ → N) {k : ℕ}
    {vm : VM N (List Addr)} (hrun : run k ((VM.init clock).start f) = some (.running vm)) :
    vm.frames = [] ∨ Typed [.native] vm ∧ Primed f vm := by
  have hgen := fun g (hg : f.Contains g) => accepts_generated haccepts hg
  refine runWith_invariant openUpvalues (P := fun vm => vm.frames = [] ∨ Typed [.native] vm ∧ Primed f vm)
    (fun vm vm' h hstep => ?_) ?_ hrun
  · rcases h with hframes | ⟨htyped, hprimed⟩
    · simp [stepWith, hframes] at hstep
    · by_cases hframes : vm'.frames = []
      · exact .inl hframes
      · exact .inr ⟨step_stays htyped hstep hframes, step_primed hgen htyped hprimed hstep⟩
  · exact .inr (start_primed haccepts clock)

/-- In every run of an accepted program, a call of an initializer with the right number of arguments,
through its class or on an instance, finds the instance in slot 0.  As long as it has not returned, no
instruction writes this slot, and when it has returned, the instance is left in the place of the
callee. -/
theorem construction_yields_instance (source : List Char) (f : ObjFunction N)
    (haccepts : Accepts (scanAll source) f) (clock : ℕ → N) (k : ℕ) (vm : VM N (List Addr))
    (hrun : run k ((VM.init clock).start f) = some (.running vm)) (this init : Value N)
    (argCount base : ℕ) (objects : List (Obj N))
    (hcalls : vm.CallsInit this init argCount base objects) :
    ∃ (m : Addr) (g : ObjFunction N) (us : List (Option Addr)), init = .obj m ∧
      vm.objects[m]? = some (.closure g us) ∧ InitCode g ∧
      (argCount = g.arity → vm.frames.length < framesMax →
        ∃ vm₁ callers, step vm = some (.running vm₁) ∧ vm₁.frames = ⟨m, 0, base⟩ :: callers ∧
          callers.length = vm.frames.length ∧ vm₁.objects = objects ∧
          ∀ vm₂, ReachesWhile openUpvalues (fun v => callers.length < v.frames.length) vm₁ vm₂ →
            (callers.length < vm₂.frames.length → vm₂.stack base = this ∧ ¬ vm₂.WritesSlot base) ∧
            (vm₂.frames.length = callers.length →
              vm₂.frames = callers ∧ vm₂.stackTop = base + 1 ∧ vm₂.stack base = this)) := by
  obtain ⟨c, name, methods, hclass, hmethod⟩ := hcalls.of_class
  have hne := hcalls.frames
  obtain ⟨htyped, hprimed⟩ := (run_primed haccepts clock hrun).resolve_left hne
  obtain ⟨S, frame, rest, f', us', sig, cs, n, i, below, -, hnext⟩ := htyped.next
  obtain ⟨m, g, us, rfl, hm, hinit⟩ := hprimed.classes c name methods hclass init hmethod
  obtain ⟨t, hS, ht⟩ := hnext.method hclass hmethod hm
  refine ⟨m, g, us, rfl, hm, hinit, fun harity hroom => ?_⟩
  obtain ⟨vm₁, hstep, hframes₁, hstack₁, hobjects₁⟩ := hcalls.step hnext rfl hm harity hroom
  refine ⟨vm₁, _, hstep, hframes₁, by rw [hnext.running.frames]; rfl, hobjects₁, fun vm₂ hreach => ?_⟩
  have hgen := fun g (hg : f.Contains g) => accepts_generated haccepts hg
  have htyped₁ : Typed S vm₁ := step_stays hnext.typed hstep (by rw [hframes₁]; simp)
  have hprimed₁ : Primed f vm₁ := step_primed hgen htyped hprimed hstep
  have hcall : InCall m base _ this vm₁ := ⟨⟨[], 0, hframes₁⟩, hstack₁⟩
  obtain ⟨hwhile, hdone⟩ := hcall.runs hS ht hgen hinit htyped₁ hprimed₁ (by simp) hreach
  refine ⟨fun hmore => ?_, hdone⟩
  obtain ⟨htyped₂, -, hcall₂⟩ := hwhile hmore
  exact ⟨hcall₂.this, hcall₂.not_writes hS ht htyped₂⟩

end Runs

/-- A class with an initializer that does nothing. -/
theorem construction_yields_instance_bare : ∃ f : ObjFunction ℤ,
    Accepts (scanAll "class A \x7b init() \x7b return; \x7d \x7d A();".toList) f ∧
    ∃ vm init objects, run 7 ((VM.init fun _ => 0).start f) = some (.running vm) ∧
      vm.CallsInit (.obj vm.objects.length) init 0 1 objects ∧
      ∃ vm₁, step vm = some (.running vm₁) ∧ vm₁.objects = objects ∧
        ∀ vm₂, ReachesWhile openUpvalues (fun v => 1 < v.frames.length) vm₁ vm₂ →
          vm₂.frames.length = 1 → vm₂.stackTop = 2 ∧ vm₂.stack 1 = .obj vm.objects.length := by
  have hrun : afterRunning 100 7 "class A \x7b init() \x7b return; \x7d \x7d A();".toList
      (fun _ => (0 : ℤ)) (fun vm => vm.frames.length = 1 && vm.stackTop = 2 &&
        vm.current.map Prod.fst = some (.call 0) &&
        ((vm.asClass (vm.peek 0)).bind fun c => (c.2.2 "init".toList).bind fun v =>
          (VM.asMethod v).bind fun m => (vm.asClosure m).map fun g => g.1.arity) = some 0) = true := by
    decide +kernel
  obtain ⟨f, vm, haccepts, hvm, htest⟩ := afterRunning_running hrun
  simp only [Bool.and_eq_true, decide_eq_true_eq, Option.map_eq_some_iff, Option.bind_eq_some_iff,
    Prod.exists] at htest
  obtain ⟨⟨⟨hframes, htop⟩, i, constants, hcurrent, rfl⟩, a, name, methods, hclass, v, hmethod, m,
    hv, g, us, hclosure, harity⟩ := htest
  obtain ⟨hpeek, hobject⟩ := VM.asClass_eq_some.1 hclass
  have hvalue : vm.CallsValue (.obj a) 0 := hpeek ▸ .call hcurrent
  have hcalls := VM.CallsInit.klass hvalue hobject hmethod
  rw [htop] at hcalls
  obtain ⟨m', g', us', rfl, hinit, -, hcall⟩ := construction_yields_instance _ f haccepts _ 7 vm hvm
    _ _ _ _ _ hcalls
  obtain rfl := Option.some.inj hv
  rw [VM.asClosure_eq_some.1 hclosure] at hinit
  cases hinit
  obtain ⟨vm₁, callers, hstep, -, hlength, hobjects, hreach⟩ :=
    hcall harity.symm (by rw [hframes]; decide)
  rw [hframes] at hlength
  rw [hlength] at hreach
  exact ⟨f, haccepts, vm, _, _, hvm, hcalls, vm₁, hstep, hobjects,
    fun vm₂ hr hdone => ((hreach vm₂ hr).2 hdone).2⟩

end Lox.Clox
