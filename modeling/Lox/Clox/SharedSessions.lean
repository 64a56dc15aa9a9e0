import Lox.Clox.SharedVariables
import Lox.Clox.Sessions

/-!
# Captured variables in sessions

Closures outlive the call of `interpret` that makes them.  A call closes all upvalues before it
returns, unless it stops with an error while a captured variable is on the stack: `runtimeError` empties
the list of open upvalues and leaves the upvalues as they are.  Up to and including the first such call
a session cannot be told from one on the machine with cells (`session_shared`); after it, a closure
reads what a later call has on the stack (`session_diverges`).
-/

namespace Lox.Clox

variable {N : Type}

/-! ### Sessions on both machines -/

/-- No upvalue points into the stack. -/
def VM.Closed (vm : VM N (List Addr)) : Prop := ∀ a l, ¬ OpenAt vm.objects a l

/-- A call that ends in `m'` with an error that is reported while there are open upvalues. -/
def Machine.FailsOpen [Double N] (source : List Char) (m m' : Machine N) : Prop :=
  ∃ f k vm, Accepts (scanAll source) f ∧ run k (m.vm.start f) = some (.running vm) ∧
    vm.upvalues ≠ [] ∧ step vm = some (.finished .runtimeError m'.vm)

/-- `interpret` on the machine with cells. -/
def Machine.interpretCells [Double N] (n : ℕ) (source : List Char) (m : Machine N) (w : VM N Cells) :
    Option (InterpretResult × VM N Cells) := do
  let (function, _) ← m.compile n (scanAll source)
  match function with
  | none => return (.compileError, w)
  | some function =>
    match runWith heapCells n (w.start function) with
    | some (.finished result w) => return (result, w)
    | _ => none

/-- Sessions on both machines side by side, in which no call fails while there are open upvalues. -/
inductive SharedSession [Double N] (clock : ℕ → N) : Machine N → VM N Cells → Prop where
  | init : SharedSession clock (Machine.init clock) (VM.init clock)
  | interpret {m m' : Machine N} {w w' : VM N Cells} {n : ℕ} {source : List Char}
      {result result' : InterpretResult} (earlier : SharedSession clock m w)
      (call : m.interpret n source = some (result, m'))
      (cells : m.interpretCells n source w = some (result', w'))
      (settled : ¬ m.FailsOpen source m') : SharedSession clock m' w'

/-! ### What a call leaves -/

theorem OpenOk.closed_iff {objects : List (Obj N)} {upvalues : List Addr} {top : ℕ}
    (h : OpenOk objects upvalues top) : (∀ a l, ¬ OpenAt objects a l) ↔ upvalues = [] := by
  constructor
  · intro hclosed
    obtain ⟨ls, hls, -⟩ := h.sorted
    cases hls with
    | nil => rfl
    | cons ha _ => exact absurd ha (hclosed _ _)
  · intro hempty a l ha
    have hmem := h.listed a l ha
    rw [hempty] at hmem
    cases hmem

theorem MemoryOk.closed {S : List (Ty N)} {vm : VM N (List Addr)} {slots : List Slot}
    (h : MemoryOk none S vm slots) (hfree : ∀ s ∈ slots, s.captured = false) : vm.Closed := by
  intro a l ha
  have hlt := h.opens.below a l ha
  rw [h.top] at hlt
  obtain ⟨s, hs⟩ := exists_slotAt hlt
  have hcaptured := ((h.stack.slotAt hs).2 a ha).1
  rw [hfree s (slotAt_mem hs)] at hcaptured
  cases hcaptured

/-- An error closes no upvalue. -/
theorem Failed.closed_iff {S : List (Ty N)} {upvalues : List Addr} {vm : VM N (List Addr)}
    (h : Failed S upvalues vm) : vm.Closed ↔ upvalues = [] := by
  obtain ⟨S', vm₁, slots, message, -, hm, hupvalues, rfl⟩ := h
  rw [← hupvalues]
  exact hm.opens.closed_iff

theorem Failed.memory {S : List (Ty N)} {upvalues : List Addr} {vm : VM N (List Addr)}
    (h : Failed S upvalues vm) (hclosed : vm.Closed) : ∃ S', MemoryOk none S' vm [] := by
  obtain ⟨S', vm₁, slots, message, -, hm, -, rfl⟩ := h
  exact ⟨S', hm.heap, hm.globals, ⟨⟨[], .nil, .nil⟩, fun a l ha => absurd ha (hclosed a l),
    fun a l ha => absurd ha (hclosed a l)⟩, rfl, trivial⟩

theorem Settled.closed {S : List (Ty N)} {vm : VM N (List Addr)} (h : Settled S vm) : vm.Closed := by
  obtain ⟨-, S', slots, -, hm, hfree⟩ := h
  exact hm.closed hfree

theorem Settled.memory {S : List (Ty N)} {vm : VM N (List Addr)} (h : Settled S vm)
    (htop : vm.stackTop = 0) : ∃ S', MemoryOk none S' vm [] := by
  obtain ⟨-, S', slots, -, hm, -⟩ := h
  obtain rfl : slots = [] := List.eq_nil_of_length_eq_zero (hm.top.symm.trans htop)
  exact ⟨S', hm⟩

/-- Nothing is captured between two calls. -/
theorem Sim.of_closed {vm : VM N (List Addr)} {w : VM N Cells} (h : Shows vm w) (hclosed : vm.Closed)
    (hfree : ∀ j, w.upvalues j = none) : Sim 0 vm w := by
  refine ⟨h, fun j a => ?_, fun a j ha => absurd ha (hclosed a j)⟩
  rw [hfree j]
  constructor
  · intro hcell
    cases hcell
  · rintro ⟨ha, -⟩
    exact absurd ha (hclosed a j)

section Calls

variable [Double N] {S : List (Ty N)} {vm vm' : VM N (List Addr)}

/-- The state before the last instruction of a run. -/
theorem run_last {n : ℕ} {result : InterpretResult} (h : run n vm = some (.finished result vm')) :
    ∃ k vm₁, run k vm = some (.running vm₁) ∧ step vm₁ = some (.finished result vm') := by
  induction n generalizing vm with
  | zero => cases h
  | succ n ih =>
    unfold run runWith at h
    split at h
    · rename_i vm₁ hstep
      obtain ⟨k, vm₂, hrun, hlast⟩ := ih h
      exact ⟨k + 1, vm₂, (runWith_succ openUpvalues hstep).trans hrun, hlast⟩
    · exact ⟨0, vm, rfl, h⟩

theorem Typed.run (h : Typed S vm) {k : ℕ} (hrun : Lox.Clox.run k vm = some (.running vm')) :
    Typed S vm' ∨ vm'.frames = [] := by
  refine runWith_invariant openUpvalues (P := fun vm => Typed S vm ∨ vm.frames = []) ?_ (.inl h) hrun
  intro vm₁ vm₂ hvm hstep
  rcases hvm with htyped | hframes
  · obtain ⟨o, ho, hsound⟩ := step_typed htyped
    change step vm₁ = _ at hstep
    rw [hstep] at ho
    obtain rfl := Option.some.inj ho
    exact hsound.imp_right Failed.frames
  · simp [stepWith, hframes] at hstep

/-- The last instruction leaves what `step_typed` says. -/
theorem Typed.last (h : Typed S vm) {k : ℕ} {vm₁ : VM N (List Addr)} {result : InterpretResult}
    (hrun : Lox.Clox.run k vm = some (.running vm₁))
    (hlast : step vm₁ = some (.finished result vm')) :
    (Outcome.finished result vm').Sound S vm₁.upvalues := by
  rcases h.run hrun with htyped | hframes
  · obtain ⟨o, ho, hsound⟩ := step_typed htyped
    rw [hlast] at ho
    obtain rfl := Option.some.inj ho
    exact hsound
  · simp [step, stepWith, hframes] at hlast

/-- The machines between two calls. -/
structure Quiescent (m : Machine N) (w : VM N Cells) : Prop where
  ready : m.Ready
  closures : ClosuresOk m.vm.objects
  memory : ∃ S, MemoryOk none S m.vm []
  shows : Shows m.vm w
  free : ∀ j, w.upvalues j = none

variable {m m' : Machine N} {w : VM N Cells} {n : ℕ} {source : List Char} {result : InterpretResult}

omit [Double N] in
theorem Quiescent.closed (h : Quiescent m w) : m.vm.Closed := by
  obtain ⟨S, hm⟩ := h.memory
  exact hm.closed fun s hs => absurd hs (List.not_mem_nil)

theorem Quiescent.start_typed {f : ObjFunction N} (h : Quiescent m w)
    (haccepts : Accepts (scanAll source) f) : ∃ S, Typed S (m.vm.start f) := by
  obtain ⟨S, hm⟩ := h.memory
  exact ⟨S, Lox.Clox.start_typed hm h.ready.idle.frames (accepts_arity haccepts)
    (compile_wellTyped haccepts)⟩

/-- Such an error leaves an upvalue that points into the stack. -/
theorem Quiescent.failsOpen (h : Quiescent m w) (hfails : m.FailsOpen source m') :
    ¬ m'.vm.Closed := by
  obtain ⟨f, k, vm, haccepts, hrun, hopen, hlast⟩ := hfails
  obtain ⟨S, htyped⟩ := h.start_typed haccepts
  have hfailed : Failed S vm.upvalues m'.vm := htyped.last hrun hlast
  exact fun hclosed => hopen (hfailed.closed_iff.1 hclosed)

/-- The outcome that both machines have. -/
theorem Sim.finished {vm' : VM N (List Addr)} {k : ℕ} (h : Sim k vm w) (htyped : Typed S vm)
    (hrun : Lox.Clox.run n vm = some (.finished result vm')) :
    ∃ w', runWith heapCells n w = some (.finished result w') ∧ Shows vm' w' ∧
      ∀ j, w'.stackTop ≤ j → w'.upvalues j = none := by
  have hsim := h.run (.inl htyped) n
  rw [hrun] at hsim
  cases hcells : runWith heapCells n w with
  | none =>
    rw [hcells] at hsim
    cases hsim
  | some o =>
    rw [hcells] at hsim
    cases hsim with
    | some hout =>
      cases hout with
      | finished _ hshows hfree => exact ⟨_, rfl, hshows, hfree⟩

/-- The script runs on both machines. -/
theorem Quiescent.run {f : ObjFunction N} (h : Quiescent m w) (haccepts : Accepts (scanAll source) f)
    (hrun : Lox.Clox.run n (m.vm.start f) = some (.finished result m'.vm)) (hready : m'.Ready)
    (hclosures : ClosuresOk m'.vm.objects) :
    ∃ w', runWith heapCells n (w.start f) = some (.finished result w') ∧ Shows m'.vm w' ∧
      (m'.vm.Closed ↔ ¬ m.FailsOpen source m') ∧ (m'.vm.Closed → Quiescent m' w') := by
  obtain ⟨S, htyped⟩ := h.start_typed haccepts
  have hstart := (Sim.of_closed h.shows h.closed h.free).start (Nat.zero_le _) f
  obtain ⟨w', hcells, hshows, hfree⟩ := hstart.finished htyped hrun
  obtain ⟨k, vm, hrunning, hlast⟩ := run_last hrun
  have hsound := htyped.last hrunning hlast
  have htop : m'.vm.stackTop = 0 := hready.idle.stackTop
  have hfree' : ∀ j, w'.upvalues j = none := fun j => hfree j (by rw [hshows.stackTop, htop]; omega)
  refine ⟨w', hcells, hshows, ⟨fun hclosed hopen => h.failsOpen hopen hclosed, fun hopen => ?_⟩,
    fun hclosed => ⟨hready, hclosures, ?_, hshows, hfree'⟩⟩
  · cases result with
    | ok => exact Settled.closed hsound
    | runtimeError =>
      refine (Failed.closed_iff hsound).2 ?_
      by_contra hne
      exact hopen ⟨f, k, vm, haccepts, hrunning, hne, hlast⟩
    | compileError => exact hsound.elim
  · cases result with
    | ok => exact Settled.memory hsound htop
    | runtimeError => exact Failed.memory hsound hclosed
    | compileError => exact hsound.elim

/-- One call on both machines. -/
theorem Quiescent.interpret (h : Quiescent m w) (hcall : m.interpret n source = some (result, m')) :
    ∃ w', m.interpretCells n source w = some (result, w') ∧ Shows m'.vm w' ∧
      (m'.vm.Closed ↔ ¬ m.FailsOpen source m') ∧ (m'.vm.Closed → Quiescent m' w') := by
  obtain ⟨hready', hclosures', -⟩ := interpret_spec h.ready h.closures hcall
  simp only [Machine.interpret, Option.bind_eq_bind, Option.bind_eq_some_iff, Prod.exists] at hcall
  obtain ⟨function, m₁, hcompile, hcall⟩ := hcall
  obtain ⟨-, hvm⟩ := compile_ready h.ready hcompile
  cases function with
  | none =>
    obtain ⟨rfl, rfl⟩ := Prod.mk.inj (Option.some.inj hcall)
    have hclosed : m₁.vm.Closed := hvm ▸ h.closed
    refine ⟨w, by simp [Machine.interpretCells, hcompile], hvm ▸ h.shows,
      ⟨fun _ hfails => h.failsOpen hfails hclosed, fun _ => hclosed⟩,
      fun _ => ⟨hready', hclosures', hvm ▸ h.memory, hvm ▸ h.shows, h.free⟩⟩
  | some f =>
    have haccepts := compile_accepts h.ready hcompile
    simp only at hcall
    split at hcall
    · rename_i hrun
      obtain ⟨rfl, rfl⟩ := Prod.mk.inj (Option.some.inj hcall)
      rw [hvm] at hrun
      obtain ⟨w', hcells, hspec⟩ := h.run haccepts hrun hready' hclosures'
      exact ⟨w', by simp [Machine.interpretCells, hcompile, hcells], hspec⟩
    · cases hcall

theorem SharedSession.quiescent {clock : ℕ → N} (h : SharedSession clock m w) : Quiescent m w := by
  induction h with
  | init =>
    refine ⟨⟨⟨rfl, rfl, rfl⟩, rfl, rfl, rfl⟩, fun a f us ha => ?_, ⟨_, init_memory clock⟩,
      (Sim.init clock).toShows, fun _ => rfl⟩
    have hmem := List.mem_of_getElem? ha
    simp [Machine.init, VM.init] at hmem
  | interpret earlier call cells settled ih =>
    obtain ⟨w', hcells, -, hclosed, hquiescent⟩ := ih.interpret call
    rw [cells] at hcells
    obtain ⟨-, rfl⟩ := Prod.mk.inj (Option.some.inj hcells)
    exact hquiescent (hclosed.2 settled)

/-- Every call of a session, up to and including the first that fails while a captured variable is on
the stack, does the same on the machine with cells, and it leaves all upvalues closed unless it is
that one. -/
theorem session_shared {clock : ℕ → N} (hsession : SharedSession clock m w)
    (hcall : m.interpret n source = some (result, m')) :
    (∃ w', m.interpretCells n source w = some (result, w') ∧ Shows m'.vm w') ∧
      (m'.vm.Closed ↔ ¬ m.FailsOpen source m') := by
  obtain ⟨w', hcells, hshows, hclosed, -⟩ := hsession.quiescent.interpret hcall
  exact ⟨⟨w', hcells, hshows⟩, hclosed⟩

end Calls

/-- An error in the block of a captured variable. -/
theorem session_shared_error : ∃ m : Machine ℤ,
    (Machine.init fun _ => 0).interpret 200
      "var g; \x7b var x = 1; fun f() \x7b return x; \x7d g = f; nil(); \x7d".toList
      = some (.runtimeError, m) ∧
    (∃ w, (Machine.init fun _ => 0).interpretCells 200
        "var g; \x7b var x = 1; fun f() \x7b return x; \x7d g = f; nil(); \x7d".toList
        (VM.init fun _ => 0) = some (.runtimeError, w) ∧ Shows m.vm w) ∧
      (m.vm.Closed ↔ ¬ (Machine.init fun _ => 0).FailsOpen
        "var g; \x7b var x = 1; fun f() \x7b return x; \x7d g = f; nil(); \x7d".toList m) := by
  have hresult : ((Machine.init fun _ => (0 : ℤ)).interpret 200
      "var g; \x7b var x = 1; fun f() \x7b return x; \x7d g = f; nil(); \x7d".toList).map Prod.fst
      = some .runtimeError := by decide +kernel
  obtain ⟨⟨r, m⟩, hcall, rfl⟩ := Option.map_eq_some_iff.1 hresult
  exact ⟨m, hcall, session_shared .init hcall⟩

/-- The next call reads the variable: the closure finds itself in the slot, and not the value 1. -/
theorem session_diverges : ∃ (m : Machine ℤ) (w : VM ℤ Cells),
    (Machine.init fun _ => 0).interpret 200
      "var g; \x7b var x = 1; fun f() \x7b return x; \x7d g = f; nil(); \x7d".toList
      = some (.runtimeError, m) ∧
    (Machine.init fun _ => 0).interpretCells 200
      "var g; \x7b var x = 1; fun f() \x7b return x; \x7d g = f; nil(); \x7d".toList
      (VM.init fun _ => 0) = some (.runtimeError, w) ∧
    (m.interpret 200 "print g();".toList).map (fun r => r.2.vm.stdout)
      = some [.function (some ['f'])] ∧
    (m.interpretCells 200 "print g();".toList w).map (fun r => r.2.stdout) = some [.number 1] := by
  have hlist : ((Machine.init fun _ => (0 : ℤ)).interpret 200
      "var g; \x7b var x = 1; fun f() \x7b return x; \x7d g = f; nil(); \x7d".toList).bind
      (fun r => (r.2.interpret 200 "print g();".toList).map fun q => (r.1, q.2.vm.stdout))
      = some (.runtimeError, [.function (some ['f'])]) := by decide +kernel
  have hcells : ((Machine.init fun _ => (0 : ℤ)).interpret 200
      "var g; \x7b var x = 1; fun f() \x7b return x; \x7d g = f; nil(); \x7d".toList).bind
      (fun r => ((Machine.init fun _ => 0).interpretCells 200
        "var g; \x7b var x = 1; fun f() \x7b return x; \x7d g = f; nil(); \x7d".toList
        (VM.init fun _ => 0)).bind fun q =>
          (r.2.interpretCells 200 "print g();".toList q.2).map fun p => (q.1, p.2.stdout))
      = some (.runtimeError, [.number 1]) := by decide +kernel
  obtain ⟨⟨r, m⟩, hm, hlist⟩ := Option.bind_eq_some_iff.1 hlist
  obtain ⟨q, hq, hlist⟩ := Option.map_eq_some_iff.1 hlist
  obtain ⟨hr, hstdout⟩ := Prod.mk.inj hlist
  rw [hm, Option.bind_some] at hcells
  obtain ⟨⟨r', w⟩, hw, hcells⟩ := Option.bind_eq_some_iff.1 hcells
  obtain ⟨p, hp, hcells⟩ := Option.map_eq_some_iff.1 hcells
  obtain ⟨hr', hstdout'⟩ := Prod.mk.inj hcells
  obtain rfl : r = .runtimeError := hr
  obtain rfl : r' = .runtimeError := hr'
  refine ⟨m, w, hm, hw, ?_, ?_⟩
  · rw [hq, Option.map_some, hstdout]
  · rw [hp, Option.map_some, hstdout']

end Lox.Clox
