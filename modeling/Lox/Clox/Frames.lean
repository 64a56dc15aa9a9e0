import Lox.Clox.VM

/-!
# What an instruction does to frames, stack and errors

One statement about all instructions (`step_moves`): an instruction stays in its frame, calls,
returns, ends the run, or reports an error that ends it.  The one exception is the call of a class
that has no initializer with arguments (`step_bareClass`): it reports an error, and `run` goes on.
Both hold for any way to store variables that leaves the rest of the machine alone
(`Variables.Local`), as that of `vm.c` does (`openUpvalues_local`).
-/

namespace Lox.Clox

variable {N β : Type}

/-! ### Calls of a class without an initializer -/

/-- A class without an initializer. -/
def VM.bareClass (value : Value N) (vm : VM N β) : Prop :=
  ∃ a name methods, vm.asClass value = some (a, name, methods) ∧ methods "init".toList = none

/-- The instruction calls a class without an initializer with arguments: directly, or as the field
that is invoked. -/
def Instr.CallsBareClass (constants : List (Constant N)) (vm : VM N β) : Instr → Prop
  | .call argCount => argCount.toNat ≠ 0 ∧ vm.bareClass (vm.peek argCount.toNat)
  | .invoke k argCount => argCount.toNat ≠ 0 ∧ ∃ name a klass fields value,
      stringAt constants k = some name ∧
      vm.asInstance (vm.peek argCount.toNat) = some (a, klass, fields) ∧
      fields name = some value ∧ vm.bareClass value
  | _ => False

/-- The next instruction does. -/
def VM.CallsBareClass (vm : VM N β) : Prop :=
  ∃ i constants, vm.current = some (i, constants) ∧ i.CallsBareClass constants vm

/-! ### Moves -/

/-- How far above the top of the stack an instruction writes: the value it pushes before it pops
any, or the new string that `allocateString` keeps there while it is interned. -/
def Instr.peak (i : Instr) : ℕ :=
  match i with
  | .constant _ | .nil | .true_ | .false_ | .getLocal _ | .getGlobal _ | .getUpvalue _
  | .closure _ _ | .class_ _ | .add => 1
  | _ => 0

/-- The state after `runtimeError`. -/
structure VM.Reset [Tracking β] (vm vm' : VM N β) : Prop where
  frames : vm'.frames = []
  stackTop : vm'.stackTop = 0
  upvalues : vm'.upvalues = ∅
  stderr : ∃ e, vm'.stderr = vm.stderr ++ [e]

/-- Nothing was reported, and the stack has at most `n` more values. -/
structure VM.Quiet (n : ℕ) (vm vm' : VM N β) : Prop where
  stackTop : vm'.stackTop ≤ vm.stackTop + n
  stderr : vm'.stderr = vm.stderr

/-- What a call with `argCount` arguments does: there is a new frame over the callee and the
arguments, or a value in their place, or an error. -/
inductive Called [Tracking β] (argCount : ℕ) (vm : VM N β) : Bool → VM N β → Prop where
  | frame {vm' : VM N β} (closure : Addr)
      (frames : vm'.frames = ⟨closure, 0, vm.stackTop - argCount - 1⟩ :: vm.frames)
      (room : vm.frames.length ≠ framesMax) (stackTop : vm'.stackTop = vm.stackTop)
      (stderr : vm'.stderr = vm.stderr) : Called argCount vm true vm'
  | value {vm' : VM N β} (frames : vm'.frames = vm.frames) (quiet : vm.Quiet 0 vm') :
      Called argCount vm true vm'
  | failed {vm' : VM N β} (reset : vm.Reset vm') : Called argCount vm false vm'

/-- What an instruction does that is executed in the frame `frame` above the frames `rest`. -/
inductive Moves [Tracking β] (i : Instr) (frame : CallFrame) (rest : List CallFrame)
    (vm : VM N β) : Outcome N β → Prop where
  | stay {vm' : VM N β} (ip : ℕ) (frames : vm'.frames = { frame with ip := ip } :: rest)
      (quiet : vm.Quiet i.peak vm') : Moves i frame rest vm (.running vm')
  | call {vm' : VM N β} (closure : Addr) (slots argCount : ℕ)
      (frames : vm'.frames = ⟨closure, 0, slots⟩ :: frame :: rest)
      (room : rest.length + 1 ≠ framesMax) (args : argCount < uint8Count)
      (window : slots + argCount + 1 = vm'.stackTop) (quiet : vm.Quiet 0 vm') :
      Moves i frame rest vm (.running vm')
  | return_ {vm' : VM N β} (frames : vm'.frames = rest) (below : rest ≠ [])
      (stackTop : vm'.stackTop = frame.slots + 1) (stderr : vm'.stderr = vm.stderr) :
      Moves i frame rest vm (.running vm')
  | finish {vm' : VM N β} (last : rest = []) (stderr : vm'.stderr = vm.stderr) :
      Moves i frame rest vm (.finished .ok vm')
  | failed {vm' : VM N β} (reset : vm.Reset vm') :
      Moves i frame rest vm (.finished .runtimeError vm')

/-- Neither the frames nor the height of the stack nor the errors have changed. -/
structure VM.SameFrames (vm vm' : VM N β) : Prop where
  frames : vm'.frames = vm.frames
  stackTop : vm'.stackTop = vm.stackTop
  stderr : vm'.stderr = vm.stderr

/-- Storing variables concerns variables only. -/
structure Variables.Local (ops : Variables N β) : Prop where
  setLocal : ∀ slot value vm vm', ops.setLocal slot value vm = some vm' → vm.SameFrames vm'
  setUpvalue : ∀ a value vm vm', ops.setUpvalue a value vm = some vm' → vm.SameFrames vm'
  captureUpvalue : ∀ slot vm a vm', ops.captureUpvalue slot vm = some (a, vm') → vm.SameFrames vm'
  closeUpvalues : ∀ last vm vm', ops.closeUpvalues last vm = some vm' → vm.SameFrames vm'

theorem VM.SameFrames.trans {vm vm₁ vm₂ : VM N β} (h₁ : vm.SameFrames vm₁)
    (h₂ : vm₁.SameFrames vm₂) : vm.SameFrames vm₂ :=
  ⟨h₂.frames.trans h₁.frames, h₂.stackTop.trans h₁.stackTop, h₂.stderr.trans h₁.stderr⟩

/-! ### Calls -/

section Calls

variable [Tracking β] {vm vm₁ : VM N β} {argCount : ℕ}

/-- Every result of a call is as `Called` says. -/
def CalledAs (argCount : ℕ) (vm : VM N β) (r : Option (Bool × VM N β)) : Prop :=
  ∀ ok vm', r = some (ok, vm') → Called argCount vm ok vm'

theorem calledAs_some {ok : Bool} {vm' : VM N β} (h : Called argCount vm ok vm') :
    CalledAs argCount vm (some (ok, vm')) := by
  intro ok' vm'' heq
  obtain ⟨rfl, rfl⟩ := Prod.mk.inj (Option.some.inj heq)
  exact h

theorem calledAs_bind {α : Type} {x : Option α} {k : α → Option (Bool × VM N β)}
    (h : ∀ a, x = some a → CalledAs argCount vm (k a)) :
    CalledAs argCount vm (x >>= k) := by
  intro ok vm' hk
  obtain ⟨a, ha, hk⟩ := Option.bind_eq_some_iff.1 hk
  exact h a ha ok vm' hk

theorem calledAs_error (message : String) :
    CalledAs argCount vm (some (false, vm.runtimeError message)) :=
  calledAs_some (.failed ⟨rfl, rfl, rfl, _, rfl⟩)

/-- A change that concerns neither frames nor errors does not matter. -/
theorem CalledAs.of_same {r : Option (Bool × VM N β)} (h : CalledAs argCount vm₁ r)
    (same : vm.SameFrames vm₁) : CalledAs argCount vm r := by
  intro ok vm' hr
  cases h ok vm' hr with
  | frame closure frames room stackTop stderr =>
    rw [same.stackTop, same.frames] at frames
    rw [same.frames] at room
    exact .frame closure frames room (stackTop.trans same.stackTop) (stderr.trans same.stderr)
  | value frames quiet =>
    have htop := quiet.stackTop
    rw [same.stackTop] at htop
    exact .value (frames.trans same.frames) ⟨htop, quiet.stderr.trans same.stderr⟩
  | failed reset =>
    obtain ⟨e, he⟩ := reset.stderr
    exact .failed ⟨reset.frames, reset.stackTop, reset.upvalues, e, by rw [he, same.stderr]⟩

theorem call_called (closure : Addr) : CalledAs argCount vm (vm.call closure argCount) := by
  refine calledAs_bind fun r _ => ?_
  obtain ⟨function, upvalues⟩ := r
  simp only
  split
  · exact calledAs_error _
  · split
    · exact calledAs_error _
    · rename_i hroom
      exact calledAs_some (.frame closure rfl hroom rfl rfl)

theorem callClass_called {klass : Addr} {methods : Table N}
    (h : argCount = 0 ∨ methods "init".toList ≠ none) :
    CalledAs argCount vm (vm.callClass klass methods argCount) := by
  unfold VM.callClass
  simp only
  split
  · exact calledAs_bind fun method _ => (call_called method).of_same ⟨rfl, rfl, rfl⟩
  · rename_i hnone
    rcases h with rfl | h
    · exact calledAs_some (.value rfl ⟨le_refl _, rfl⟩)
    · exact absurd hnone h

theorem callValue_called {callee : Value N} (h : argCount = 0 ∨ ¬ vm.bareClass callee)
    (hargs : argCount < vm.stackTop) : CalledAs argCount vm (vm.callValue callee argCount) := by
  cases callee with
  | obj a =>
    simp only [VM.callValue]
    cases ho : vm.objects[a]? with
    | none =>
      intro ok vm' hr
      cases hr
    | some o =>
      cases o with
      | boundMethod receiver method => exact (call_called method).of_same ⟨rfl, rfl, rfl⟩
      | klass name methods =>
        refine callClass_called (h.imp_right fun hbare hnone => hbare ?_)
        exact ⟨a, name, methods, by simp [VM.asClass, ho], hnone⟩
      | native =>
        refine calledAs_some (.value rfl ⟨?_, rfl⟩)
        change vm.stackTop - (argCount + 1) + 1 ≤ vm.stackTop + 0
        omega
      | closure f upvalues => exact call_called a
      | upvalue location closed => exact calledAs_error _
      | inst klass fields => exact calledAs_error _
  | nil | bool b | number n | string s => exact calledAs_error _

theorem invokeFromClass_called {methods : Table N} {name : Name} :
    CalledAs argCount vm (vm.invokeFromClass methods name argCount) := by
  unfold VM.invokeFromClass
  split
  · exact calledAs_error _
  · exact calledAs_bind fun method _ => call_called method

theorem invoke_called {name : Name} (hargs : argCount < vm.stackTop)
    (h : argCount = 0 ∨ ∀ a klass fields value,
      vm.asInstance (vm.peek argCount) = some (a, klass, fields) → fields name = some value →
      ¬ vm.bareClass value) :
    CalledAs argCount vm (vm.invoke name argCount) := by
  unfold VM.invoke
  split
  · exact calledAs_error _
  · rename_i a klass fields hinst
    split
    · rename_i value hfield
      have hbare : argCount = 0 ∨ ¬ (vm.poke argCount value).bareClass value :=
        h.imp_right fun h => h a klass fields value hinst hfield
      exact (callValue_called hbare hargs).of_same ⟨rfl, rfl, rfl⟩
    · exact calledAs_bind fun _ _ => invokeFromClass_called

theorem bindMethod_called {methods : Table N} {name : Name} (hreads : 0 < vm.stackTop) :
    CalledAs 0 vm (vm.bindMethod methods name) := by
  unfold VM.bindMethod
  split
  · exact calledAs_error _
  · refine calledAs_bind fun method _ => calledAs_some (.value rfl ⟨?_, rfl⟩)
    change vm.stackTop - 1 + 1 ≤ vm.stackTop + 0
    omega

end Calls

/-! ### Instructions -/

section Rules

variable [Tracking β] {i : Instr} {frame : CallFrame} {rest : List CallFrame} {vm vm' : VM N β}

/-- Every outcome of an instruction is as `Moves` says. -/
def MovesAs (i : Instr) (frame : CallFrame) (rest : List CallFrame) (vm : VM N β)
    (r : Option (Outcome N β)) : Prop :=
  ∀ o, r = some o → Moves i frame rest vm o

theorem movesAs_none : MovesAs i frame rest vm none := by
  intro o ho
  cases ho

theorem movesAs_bind {α : Type} {x : Option α} {k : α → Option (Outcome N β)}
    (h : ∀ a, x = some a → MovesAs i frame rest vm (k a)) : MovesAs i frame rest vm (x >>= k) := by
  intro o ho
  obtain ⟨a, ha, hk⟩ := Option.bind_eq_some_iff.1 ho
  exact h a ha o hk

theorem movesAs_fail (message : String) : MovesAs i frame rest vm (vm.fail message) := by
  intro o ho
  obtain rfl := Option.some.inj ho
  exact .failed ⟨rfl, rfl, rfl, _, rfl⟩

theorem movesAs_jump (ip : ℕ) (frames : vm'.frames = { frame with ip := ip } :: rest)
    (stderr : vm'.stderr = vm.stderr) (stackTop : vm'.stackTop ≤ vm.stackTop + i.peak) :
    MovesAs i frame rest vm vm'.goOn := by
  intro o ho
  obtain rfl := Option.some.inj ho
  exact .stay ip frames ⟨stackTop, stderr⟩

theorem movesAs_goOn (frames : vm'.frames = frame :: rest) (stderr : vm'.stderr = vm.stderr)
    (stackTop : vm'.stackTop ≤ vm.stackTop + i.peak) : MovesAs i frame rest vm vm'.goOn :=
  movesAs_jump frame.ip frames stderr stackTop

/-- `n` values are replaced by one. -/
theorem movesAs_replace (hframes : vm.frames = frame :: rest) {n : ℕ} {value : Value N}
    (hn : 0 < n) (hreads : n ≤ vm.stackTop) :
    MovesAs i frame rest vm ((vm.pop n).push value).goOn := by
  refine movesAs_goOn hframes rfl ?_
  change vm.stackTop - n + 1 ≤ vm.stackTop + i.peak
  omega

/-- An instruction that calls; it may have taken values off the stack before. -/
theorem movesAs_check (vm₁ : VM N β) {argCount : ℕ} {r : Option (Bool × VM N β)}
    (hframes : vm.frames = frame :: rest) (hframes₁ : vm₁.frames = vm.frames)
    (hstderr : vm₁.stderr = vm.stderr) (htop : vm₁.stackTop ≤ vm.stackTop)
    (hargs : argCount < uint8Count) (hreads : argCount < vm₁.stackTop)
    (h : CalledAs argCount vm₁ r) : MovesAs i frame rest vm (VM.check r) := by
  intro o ho
  cases r with
  | none => cases ho
  | some r =>
    obtain ⟨ok, vm'⟩ := r
    cases h ok vm' rfl with
    | frame closure frames room stackTop stderr =>
      obtain rfl := Option.some.inj ho
      rw [hframes₁, hframes] at frames room
      refine .call closure _ argCount frames room hargs ?_ ⟨?_, stderr.trans hstderr⟩
      · omega
      · omega
    | value frames quiet =>
      obtain rfl := Option.some.inj ho
      have hquiet := quiet.stackTop
      refine .stay frame.ip (frames.trans (hframes₁.trans hframes)) ⟨?_, ?_⟩
      · omega
      · exact quiet.stderr.trans hstderr
    | failed reset =>
      obtain rfl := Option.some.inj ho
      obtain ⟨e, he⟩ := reset.stderr
      exact .failed ⟨reset.frames, reset.stackTop, reset.upvalues, e, by rw [he, hstderr]⟩

end Rules

section Instructions

variable {ops : Variables N β} (hops : ops.Local)

include hops

theorem captures_same {slots : ℕ} {enclosing : List (Option Addr)} : ∀ {us : List Upvalue}
    {vm vm' : VM N β} {as : List (Option Addr)},
    VM.captures ops slots enclosing us vm = some (as, vm') → vm.SameFrames vm' := by
  intro us
  induction us with
  | nil =>
    intro vm vm' as h
    obtain ⟨-, rfl⟩ := Prod.mk.inj (Option.some.inj h)
    exact ⟨rfl, rfl, rfl⟩
  | cons u us ih =>
    intro vm vm' as h
    simp only [VM.captures, Option.bind_eq_bind] at h
    split at h
    · simp only [Option.bind_eq_some_iff, Prod.exists] at h
      obtain ⟨a, vm₁, h₁, as, vm₂, h₂, h⟩ := h
      obtain ⟨-, rfl⟩ := Prod.mk.inj (Option.some.inj h)
      exact (hops.captureUpvalue _ _ _ _ h₁).trans (ih h₂)
    · simp only [Option.bind_eq_some_iff, Prod.exists] at h
      obtain ⟨a, -, as, vm₂, h₂, h⟩ := h
      obtain ⟨-, rfl⟩ := Prod.mk.inj (Option.some.inj h)
      exact ih h₂

variable [Tracking β] {frame : CallFrame} {rest : List CallFrame} {vm : VM N β}

theorem return_moves : MovesAs .return_ frame rest vm (vm.return_ ops frame rest) := by
  unfold VM.return_
  refine movesAs_bind fun vm' hclose => ?_
  have hsame := hops.closeUpvalues _ _ _ hclose
  simp only
  split
  · rename_i hlast
    intro o ho
    obtain rfl := Option.some.inj ho
    exact .finish (List.isEmpty_iff.1 hlast) hsame.stderr
  · rename_i hbelow
    intro o ho
    obtain rfl := Option.some.inj ho
    exact .return_ rfl (fun h => hbelow (List.isEmpty_iff.2 h)) rfl hsame.stderr

variable (hframes : vm.frames = frame :: rest)

include hframes

theorem makeClosure_moves {k : UInt8} {us : List Upvalue} {slots : ℕ}
    {enclosing : List (Option Addr)} {function : ObjFunction N} :
    MovesAs (.closure k us) frame rest vm (vm.makeClosure ops slots enclosing function us) := by
  unfold VM.makeClosure
  refine movesAs_bind fun r hr => ?_
  obtain ⟨upvalues, vm'⟩ := r
  have hsame := captures_same hops hr
  exact movesAs_goOn (hsame.frames.trans hframes) hsame.stderr hsame.stackTop.le

omit hops in
theorem jump_moves {i : Instr} (ip : ℕ) : MovesAs i frame rest vm (vm.jumpTo ip).goOn := by
  refine movesAs_jump ip ?_ rfl (Nat.le_add_right _ _)
  simp [VM.jumpTo, hframes]

omit hops in
theorem binaryOp_moves {i : Instr} (hreads : 2 ≤ vm.stackTop) (op : N → N → Value N) :
    MovesAs i frame rest vm (vm.binaryOp op) := by
  unfold VM.binaryOp
  split
  · exact movesAs_replace hframes (by omega) hreads
  · exact movesAs_fail _

/-- What an instruction does, if it is not the call of a class without an initializer. -/
theorem execute_moves [Double N] {function : ObjFunction N} {upvalues : List (Option Addr)}
    {i : Instr} (hreads : i.reads ≤ vm.stackTop) (hbare : ¬ i.CallsBareClass function.constants vm) :
    MovesAs i frame rest vm (execute ops frame rest function upvalues vm i) := by
  cases i with
  | constant k =>
    simp only [execute, VM.constant]
    split
    · exact movesAs_goOn hframes rfl (le_refl _)
    · exact movesAs_goOn hframes rfl (le_refl _)
    · exact movesAs_none
  | nil | true_ | false_ => exact movesAs_goOn hframes rfl (le_refl _)
  | pop =>
    refine movesAs_goOn hframes rfl ?_
    exact (Nat.sub_le _ _).trans (Nat.le_add_right _ _)
  | equal => exact movesAs_replace hframes (by omega) hreads
  | not => exact movesAs_replace hframes (by omega) hreads
  | getLocal slot => exact movesAs_bind fun value _ => movesAs_goOn hframes rfl (le_refl _)
  | setLocal slot =>
    refine movesAs_bind fun vm' h => ?_
    have hsame := hops.setLocal _ _ _ _ h
    exact movesAs_goOn (hsame.frames.trans hframes) hsame.stderr hsame.stackTop.le
  | getGlobal k =>
    refine movesAs_bind fun name _ => ?_
    unfold VM.getGlobal
    split
    · exact movesAs_goOn hframes rfl (le_refl _)
    · exact movesAs_fail _
  | defineGlobal k =>
    refine movesAs_bind fun name _ => movesAs_goOn hframes rfl ?_
    exact (Nat.sub_le _ _).trans (Nat.le_add_right _ _)
  | setGlobal k =>
    refine movesAs_bind fun name _ => ?_
    unfold VM.setGlobal
    split
    · exact movesAs_goOn hframes rfl (le_refl _)
    · exact movesAs_fail _
  | getUpvalue slot =>
    refine movesAs_bind fun a _ => movesAs_bind fun value _ => ?_
    exact movesAs_goOn hframes rfl (le_refl _)
  | setUpvalue slot =>
    refine movesAs_bind fun a _ => movesAs_bind fun vm' h => ?_
    have hsame := hops.setUpvalue _ _ _ _ h
    exact movesAs_goOn (hsame.frames.trans hframes) hsame.stderr hsame.stackTop.le
  | greater | less | subtract | multiply | divide => exact binaryOp_moves hframes hreads _
  | add =>
    simp only [execute, VM.add]
    split
    · exact movesAs_replace hframes (by omega) hreads
    · exact movesAs_replace hframes (by omega) hreads
    · exact movesAs_fail _
  | negate =>
    simp only [execute, VM.negate]
    split
    · exact movesAs_replace hframes (by omega) hreads
    · exact movesAs_fail _
  | jump offset => exact jump_moves hframes _
  | jumpIfFalse offset =>
    simp only [execute]
    split
    · exact jump_moves hframes _
    · exact movesAs_goOn hframes rfl (le_refl _)
  | loop offset =>
    simp only [execute]
    split
    · exact movesAs_none
    · exact jump_moves hframes _
  | print =>
    refine movesAs_bind fun printed _ => movesAs_goOn hframes rfl ?_
    exact (Nat.sub_le _ _).trans (Nat.le_add_right _ _)
  | call argCount =>
    refine movesAs_check vm hframes rfl rfl (le_refl _) argCount.toNat_lt hreads ?_
    exact callValue_called (or_iff_not_imp_left.2 fun hargs hclass => hbare ⟨hargs, hclass⟩) hreads
  | method k =>
    refine movesAs_bind fun name _ => movesAs_bind fun r _ => movesAs_goOn hframes rfl ?_
    exact (Nat.sub_le _ _).trans (Nat.le_add_right _ _)
  | closure k us => exact movesAs_bind fun f _ => makeClosure_moves hops hframes
  | closeUpvalue =>
    refine movesAs_bind fun vm' h => ?_
    have hsame := hops.closeUpvalues _ _ _ h
    refine movesAs_goOn (hsame.frames.trans hframes) hsame.stderr ?_
    exact (Nat.sub_le _ _).trans hsame.stackTop.le
  | getProperty k =>
    refine movesAs_bind fun name _ => ?_
    unfold VM.getProperty
    split
    · exact movesAs_fail _
    · split
      · exact movesAs_replace hframes (by omega) hreads
      · refine movesAs_bind fun r _ => ?_
        exact movesAs_check vm hframes rfl rfl (le_refl _) (Nat.succ_pos 255) hreads
          (bindMethod_called hreads)
  | setProperty k =>
    refine movesAs_bind fun name _ => ?_
    unfold VM.setProperty
    split
    · exact movesAs_fail _
    · refine movesAs_goOn hframes rfl ?_
      change 2 ≤ vm.stackTop at hreads
      change vm.stackTop - 2 + 1 ≤ vm.stackTop + 0
      omega
  | inherit =>
    simp only [execute, VM.inherit_]
    split
    · exact movesAs_fail _
    · refine movesAs_bind fun r _ => movesAs_goOn hframes rfl ?_
      exact (Nat.sub_le _ _).trans (Nat.le_add_right _ _)
  | invoke k argCount =>
    refine movesAs_bind fun name hname => ?_
    refine movesAs_check vm hframes rfl rfl (le_refl _) argCount.toNat_lt hreads ?_
    refine invoke_called hreads (or_iff_not_imp_left.2 fun hargs => ?_)
    intro a klass fields value hinst hfield hclass
    exact hbare ⟨hargs, name, a, klass, fields, value, hname, hinst, hfield, hclass⟩
  | class_ k => exact movesAs_bind fun name _ => movesAs_goOn hframes rfl (le_refl _)
  | superInvoke k argCount =>
    change argCount.toNat + 2 ≤ vm.stackTop at hreads
    refine movesAs_bind fun name _ => movesAs_bind fun r _ => ?_
    have hreads₁ : argCount.toNat < (vm.pop 1).stackTop := by
      change argCount.toNat < vm.stackTop - 1
      omega
    exact movesAs_check (vm.pop 1) hframes rfl rfl (Nat.sub_le _ _) argCount.toNat_lt hreads₁
      invokeFromClass_called
  | getSuper k =>
    change 2 ≤ vm.stackTop at hreads
    refine movesAs_bind fun name _ => movesAs_bind fun r _ => ?_
    have hone : 0 < (vm.pop 1).stackTop := by
      change 0 < vm.stackTop - 1
      omega
    exact movesAs_check (vm.pop 1) hframes rfl rfl (Nat.sub_le _ _) (Nat.succ_pos 255) hone
      (bindMethod_called hone)
  | return_ => exact return_moves hops

end Instructions

/-- What one turn of the loop does, if it is not the call of a class without an initializer. -/
theorem step_moves [Double N] [Tracking β] {ops : Variables N β} (hops : ops.Local) {vm : VM N β}
    {o : Outcome N β} (hbare : ¬ vm.CallsBareClass) (h : stepWith ops vm = some o) :
    ∃ frame rest i constants, vm.frames = frame :: rest ∧ vm.current = some (i, constants) ∧
      Moves i { frame with ip := frame.ip + i.size } rest vm o := by
  unfold stepWith at h
  cases hframes : vm.frames with
  | nil => simp [hframes] at h
  | cons frame rest =>
    simp only [hframes, Option.bind_eq_bind, Option.bind_eq_some_iff, Prod.exists] at h
    obtain ⟨function, upvalues, hclosure, i, hfetch, h⟩ := h
    have hcurrent : vm.current = some (i, function.constants) := by
      simp [VM.current, hframes, hclosure, hfetch]
    split at h
    · cases h
    · rename_i hreads
      refine ⟨frame, rest, i, function.constants, rfl, hcurrent, ?_⟩
      have hmoves : Moves i { frame with ip := frame.ip + i.size } rest { vm with
          frames := { frame with ip := frame.ip + i.size } :: rest } o := by
        refine execute_moves hops rfl ?_ ?_ o h
        · exact not_lt.1 hreads
        · exact fun hcalls => hbare ⟨i, function.constants, hcurrent, hcalls⟩
      cases hmoves with
      | stay ip frames quiet => exact .stay ip frames ⟨quiet.stackTop, quiet.stderr⟩
      | call closure slots argCount frames room args window quiet =>
        exact .call closure slots argCount frames room args window ⟨quiet.stackTop, quiet.stderr⟩
      | return_ frames below stackTop stderr => exact .return_ frames below stackTop stderr
      | finish last stderr => exact .finish last stderr
      | failed reset => exact .failed ⟨reset.frames, reset.stackTop, reset.upvalues, reset.stderr⟩

/-! ### The call that goes on after an error -/

section BareClass

variable [Tracking β] {vm vm' : VM N β} {argCount : ℕ} {ok : Bool}

theorem callClass_bare {klass : Addr} {methods : Table N}
    (h : vm.callClass klass methods argCount = some (ok, vm'))
    (hinit : methods "init".toList = none) (hargs : argCount ≠ 0) :
    ok = true ∧ vm.Reset vm' := by
  simp only [VM.callClass, hinit, if_pos hargs] at h
  obtain ⟨rfl, rfl⟩ := Prod.mk.inj (Option.some.inj h)
  exact ⟨rfl, rfl, rfl, rfl, _, rfl⟩

theorem callValue_bare {callee : Value N} (h : vm.callValue callee argCount = some (ok, vm'))
    (hbare : vm.bareClass callee) (hargs : argCount ≠ 0) : ok = true ∧ vm.Reset vm' := by
  obtain ⟨a, name, methods, hclass, hinit⟩ := hbare
  unfold VM.asClass at hclass
  split at hclass
  · split at hclass
    · rename_i ho
      obtain ⟨rfl, rfl, rfl⟩ : _ ∧ _ ∧ _ := by simpa using hclass
      simp only [VM.callValue, ho] at h
      exact callClass_bare h hinit hargs
    · cases hclass
  · cases hclass

theorem invoke_bare {name : Name} {a klass : Addr} {fields : Table N} {value : Value N}
    (h : vm.invoke name argCount = some (ok, vm'))
    (hinst : vm.asInstance (vm.peek argCount) = some (a, klass, fields))
    (hfield : fields name = some value) (hbare : vm.bareClass value) (hargs : argCount ≠ 0) :
    ok = true ∧ vm.Reset vm' := by
  simp only [VM.invoke, hinst, hfield] at h
  have hpoked : (vm.poke argCount value).bareClass value := hbare
  obtain ⟨hok, hreset⟩ := callValue_bare h hpoked hargs
  exact ⟨hok, hreset.frames, hreset.stackTop, hreset.upvalues, hreset.stderr⟩

omit [Tracking β] in
theorem check_running {r : Option (Bool × VM N β)} {o : Outcome N β} (h : VM.check r = some o) :
    ∃ ok vm', r = some (ok, vm') ∧ (ok = true → o = .running vm') := by
  cases r with
  | none => cases h
  | some r =>
    obtain ⟨ok, vm'⟩ := r
    refine ⟨ok, vm', rfl, fun hok => ?_⟩
    subst hok
    exact (Option.some.inj h).symm

/-- The call of a class without an initializer reports an error, and `run` goes on without a
frame. -/
theorem step_bareClass [Double N] {ops : Variables N β} {o : Outcome N β}
    (hbare : vm.CallsBareClass) (h : stepWith ops vm = some o) :
    ∃ vm', o = .running vm' ∧ vm.Reset vm' := by
  obtain ⟨i, constants, hcurrent, hcalls⟩ := hbare
  unfold stepWith at h
  cases hframes : vm.frames with
  | nil => simp [hframes] at h
  | cons frame frames =>
    simp only [hframes, Option.bind_eq_bind, Option.bind_eq_some_iff, Prod.exists] at h
    obtain ⟨function, upvalues, hclosure, i', hfetch, h⟩ := h
    simp only [VM.current, hframes, hclosure, hfetch, List.head?_cons, Option.bind_eq_bind,
      Option.bind_some, Option.pure_def, Option.some.injEq, Prod.mk.injEq] at hcurrent
    obtain ⟨rfl, rfl⟩ := hcurrent
    split at h
    · cases h
    cases i' with
    | call argCount =>
      obtain ⟨hargs, hclass⟩ := hcalls
      obtain ⟨ok, vm', hcall, hrun⟩ := check_running h
      obtain ⟨hok, hreset⟩ := callValue_bare hcall hclass hargs
      exact ⟨vm', hrun hok, hreset.frames, hreset.stackTop, hreset.upvalues, hreset.stderr⟩
    | invoke k argCount =>
      obtain ⟨hargs, name, a, klass, fields, value, hname, hinst, hfield, hclass⟩ := hcalls
      simp only [execute, hname, Option.bind_eq_bind, Option.bind_some] at h
      obtain ⟨ok, vm', hcall, hrun⟩ := check_running h
      obtain ⟨hok, hreset⟩ := invoke_bare hcall hinst hfield hclass hargs
      exact ⟨vm', hrun hok, hreset.frames, hreset.stackTop, hreset.upvalues, hreset.stderr⟩
    | _ => exact hcalls.elim

end BareClass

/-! ### Variables as `vm.c` stores them -/

theorem captureUpvalue_same {slot : ℕ} {a : Addr} {vm vm' : VM N (List Addr)}
    (h : captureUpvalue slot vm = some (a, vm')) : vm.SameFrames vm' := by
  simp only [captureUpvalue, Option.bind_eq_bind, Option.bind_eq_some_iff, Prod.exists] at h
  obtain ⟨above, rest, -, h⟩ := h
  split at h
  · obtain ⟨-, rfl⟩ := Prod.mk.inj (Option.some.inj h)
    exact ⟨rfl, rfl, rfl⟩
  · obtain ⟨-, rfl⟩ := Prod.mk.inj (Option.some.inj h)
    exact ⟨rfl, rfl, rfl⟩

theorem closeUpvalues_same {last : ℕ} {vm vm' : VM N (List Addr)}
    (h : closeUpvalues last vm = some vm') : vm.SameFrames vm' := by
  simp only [closeUpvalues, Option.bind_eq_bind, Option.bind_eq_some_iff, Prod.exists] at h
  obtain ⟨upvalues, objects, -, h⟩ := h
  obtain rfl := Option.some.inj h
  exact ⟨rfl, rfl, rfl⟩

theorem setUpvalue_same {a : Addr} {value : Value N} {vm vm' : VM N (List Addr)}
    (h : setUpvalue a value vm = some vm') : vm.SameFrames vm' := by
  unfold setUpvalue at h
  split at h
  · obtain rfl := Option.some.inj h
    exact ⟨rfl, rfl, rfl⟩
  · obtain rfl := Option.some.inj h
    exact ⟨rfl, rfl, rfl⟩
  · cases h

theorem openUpvalues_local : (openUpvalues (N := N)).Local where
  setLocal slot value vm vm' h := by
    obtain rfl := Option.some.inj h
    exact ⟨rfl, rfl, rfl⟩
  setUpvalue _ _ _ _ h := setUpvalue_same h
  captureUpvalue _ _ _ _ h := captureUpvalue_same h
  closeUpvalues _ _ _ h := closeUpvalues_same h

end Lox.Clox
