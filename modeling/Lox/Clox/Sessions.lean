import Lox.Clox.Interpret
import Lox.Clox.Errors
import Lox.Clox.CompilerState
import Lox.Clox.Heights
import Lox.Clox.Emission

/-!
# Sessions

A session is a sequence of calls of `interpret` on one machine, as the read-eval-print loop makes
them.  The globals of the compiler are part of the machine here: `compile` starts with the chain of
compilers that the last call left.  Whatever the sources are, each call that returns leaves the
machine as the next one expects it (`interpret_ready`).
-/

namespace Lox.Clox

variable {N : Type}

/-! ### Scripts -/

/-- The only return of a script is the last instruction, where slot 0 and the result are all that is
on the stack. -/
theorem ScriptCode.returnsBare {ts : List (Stmt N)} {f : ObjFunction N} {cs : Code} {a : Shape}
    (h : ScriptCode ts f cs a) : Code.ReturnsBare (cs ++ scriptReturn a) := by
  obtain ⟨x, hx⟩ := h.generated
  have hnone : .return_ ∉ cs.instrs := (genStmts_emission ts hx).return_not_mem rfl
  rintro o n ⟨p, q, hsplit, -⟩
  rcases List.append_eq_append_iff.1 hsplit with ⟨p', rfl, hend⟩ | ⟨c', hcs, hend⟩
  · have hmem : (n, Instr.return_) ∈ scriptReturn a := by
      rw [hend]
      simp
    simp only [scriptReturn, List.mem_cons, Prod.mk.injEq, reduceCtorEq, and_false, and_true,
      List.not_mem_nil, or_false, false_or] at hmem
    rw [hmem]
    simp [Shape.push, h.slots]
  · cases c' with
    | nil =>
      have hmem : (n, Instr.return_) ∈ scriptReturn a := by
        rw [List.nil_append] at hend
        rw [← hend]
        simp
      simp only [scriptReturn, List.mem_cons, Prod.mk.injEq, reduceCtorEq, and_false, and_true,
        List.not_mem_nil, or_false, false_or] at hmem
      rw [hmem]
      simp [Shape.push, h.slots]
    | cons c c' =>
      obtain ⟨rfl, -⟩ := List.cons.inj hend
      refine absurd ?_ hnone
      rw [hcs]
      simp

/-- The code of an accepted script. -/
theorem accepts_returnsBare [Double N] {source : List Char} {f : ObjFunction N}
    (h : Accepts (scanAll source) f) : ∃ cs, Annotated f scriptSignature cs ∧ cs.ReturnsBare := by
  obtain ⟨n, ts, hts, hgen⟩ := compile_factors h
  obtain ⟨cs, a, hcode⟩ := genProgram_code hgen (program_named hts)
  refine ⟨cs ++ scriptReturn a, ⟨hcode.code, by simp [scriptReturn], ?_, hcode.cert⟩,
    hcode.returnsBare⟩
  rw [hcode.arity]
  exact hcode.entry

/-- The machine with which `run` starts has the right heights. -/
theorem start_leveled [Double N] {source : List Char} {f : ObjFunction N}
    (h : Accepts (scanAll source) f) {vm : VM N (List Addr)} (hidle : vm.Idle)
    (hclosures : ClosuresOk vm.objects) : Leveled (vm.start f) := by
  have harity := accepts_arity h
  have hwell := compile_wellTyped h
  obtain ⟨cs, hannotated, hbare⟩ := accepts_returnsBare h
  obtain ⟨n, i, hat, hlength⟩ := hannotated.goes_entry.length
  have hobjects : (vm.start f).objects
      = vm.objects ++ [.closure f (List.replicate f.upvalueCount none)] := by
    simp [VM.start, VM.call, VM.asClosure, VM.allocate, VM.push, harity, hidle.frames, framesMax]
  have htop : (vm.start f).stackTop = 1 := by
    simp [VM.start, VM.call, VM.asClosure, VM.allocate, VM.push, harity, hidle.frames, framesMax,
      hidle.stackTop]
  refine ⟨?_, ?_⟩
  · rw [hobjects]
    refine hclosures.keeps (.append _ (P := fun g => g = f) fun g us heq => ?_) fun g heq => ?_
    · cases heq
      rfl
    · exact ⟨_, heq ▸ hwell⟩
  · rw [start_frames harity hidle.frames]
    refine ⟨1, by rw [htop, hidle.stackTop], ⟨f,
      List.replicate f.upvalueCount none, scriptSignature, cs, n, i, ?_, hannotated,
      hwell.certified.functions, hat, ?_, fun _ => hbare⟩, hidle.stackTop⟩
    · rw [hobjects]
      exact List.getElem?_concat_length
    · rw [hlength, harity]
      rfl

/-! ### Calls of `interpret` -/

/-- The globals of the program: the machine, and the chains that `current` and `currentClass` point
to, with the chunks of the functions in construction. -/
structure Machine (N : Type) where
  vm : VM N (List Addr)
  current : List (Compiler N)
  chunks : List (List UInt8)
  currentClass : List ClassCompiler

/-- The machine after `initVM`. -/
def Machine.init (clock : ℕ → N) : Machine N := ⟨VM.init clock, [], [], []⟩

/-- The state in which `compile` starts to read tokens, with the script as the innermost function. -/
def Machine.startCompiler (scanner : Scanner) (m : Machine N) : State N where
  parser := (State.start scanner : State N).parser
  compilers := newCompiler .script none :: m.current
  chunks := [] :: m.chunks
  classes := m.currentClass

/-- `compile`, with the globals it leaves.  (The values that `addConstant` pushes to protect them
from the collector are popped at once.) -/
def Machine.compile [Double N] (n : ℕ) (scanner : Scanner) (m : Machine N) :
    Option (Option (ObjFunction N) × Machine N) := do
  let s ← compileLoop n (m.startCompiler scanner).advance
  let (function, _, s) ← s.endCompiler
  return (if s.parser.hadError then none else some function,
    { m with current := s.compilers, chunks := s.chunks, currentClass := s.classes })

/-- `interpret`, for at most `n` instructions: the result and the globals, if the call returns. -/
def Machine.interpret [Double N] (n : ℕ) (source : List Char) (m : Machine N) :
    Option (InterpretResult × Machine N) := do
  let (function, m) ← m.compile n (scanAll source)
  match function with
  | none => return (.compileError, m)
  | some function =>
    match run n (m.vm.start function) with
    | some (.finished result vm) => return (result, { m with vm := vm })
    | _ => none

/-- `stackTop` is `vm.stack`, `frameCount` is 0, and `openUpvalues`, `current` and `currentClass` are
`NULL`. -/
structure Machine.Ready (m : Machine N) : Prop where
  idle : m.vm.Idle
  current : m.current = []
  chunks : m.chunks = []
  currentClass : m.currentClass = []

/-- The machines that sequences of calls lead to, from `initVM` on. -/
inductive Session [Double N] (clock : ℕ → N) : Machine N → Prop where
  | init : Session clock (Machine.init clock)
  | interpret {m m' : Machine N} {n : ℕ} {source : List Char} {result : InterpretResult}
      (earlier : Session clock m) (call : m.interpret n source = some (result, m')) :
      Session clock m'

section Calls

variable [Double N] {n : ℕ} {m m' : Machine N} {source : List Char}

/-- `compile` puts its globals back, and does not touch the machine. -/
theorem compile_ready {scanner : Scanner} {function : Option (ObjFunction N)} (hready : m.Ready)
    (h : m.compile n scanner = some (function, m')) : m'.Ready ∧ m'.vm = m.vm := by
  simp only [Machine.compile, Option.bind_eq_bind, Option.bind_eq_some_iff, Prod.exists] at h
  obtain ⟨s, hloop, f, upvalues, s', hend, h⟩ := h
  obtain ⟨-, rfl⟩ := Prod.mk.inj (Option.some.inj h)
  obtain ⟨hidle, hcurrent, hchunks, hclass⟩ := hready
  have hloop' := (Restores.refl (m.startCompiler scanner)).advance.trans
    (compileLoop_restores n hloop)
  have hrestores : Restores ⟨(m.startCompiler scanner).parser, m.current, m.chunks, m.currentClass⟩
    s' := endCompiler_restores hend hloop'
  refine ⟨⟨hidle, ?_, ?_, ?_⟩, rfl⟩
  · exact List.eq_nil_of_length_eq_zero (by rw [hrestores.compilers, hcurrent]; rfl)
  · exact List.eq_nil_of_length_eq_zero (by rw [hrestores.chunks, hchunks]; rfl)
  · rw [hrestores.classes, hclass]

/-- The function that `compile` returns is the one it returns on its own. -/
theorem compile_accepts {f : ObjFunction N} (hready : m.Ready)
    (h : m.compile n (scanAll source) = some (some f, m')) : Accepts (scanAll source) f := by
  have hstart : m.startCompiler (scanAll source) = State.start (scanAll source) := by
    simp [Machine.startCompiler, State.start, hready.current, hready.chunks, hready.currentClass]
  simp only [Machine.compile, hstart, Option.bind_eq_bind, Option.bind_eq_some_iff,
    Prod.exists] at h
  obtain ⟨s, hloop, g, upvalues, s', hend, h⟩ := h
  obtain ⟨hfunction, -⟩ := Prod.mk.inj (Option.some.inj h)
  refine ⟨n, ?_⟩
  simp [compile, compileState, hloop, hend, hfunction]

/-- One call: it leaves the machine ready, with certificates for all functions, and a compile error
changes nothing. -/
theorem interpret_spec {result : InterpretResult} (hready : m.Ready)
    (hclosures : ClosuresOk m.vm.objects) (h : m.interpret n source = some (result, m')) :
    m'.Ready ∧ ClosuresOk m'.vm.objects ∧ (result = .compileError → m'.vm = m.vm) := by
  simp only [Machine.interpret, Option.bind_eq_bind, Option.bind_eq_some_iff, Prod.exists] at h
  obtain ⟨function, m₁, hcompile, h⟩ := h
  obtain ⟨hready₁, hvm⟩ := compile_ready hready hcompile
  split at h
  · obtain ⟨rfl, rfl⟩ := Prod.mk.inj (Option.some.inj h)
    refine ⟨hready₁, ?_, fun _ => hvm⟩
    rw [hvm]
    exact hclosures
  · split at h
    · rename_i f _ vm hrun
      obtain ⟨rfl, rfl⟩ := Prod.mk.inj (Option.some.inj h)
      rw [hvm] at hrun
      obtain ⟨hresult, hclosures', hidle⟩ := run_leveled n
        (start_leveled (compile_accepts hready hcompile) hready.idle hclosures) hrun
      exact ⟨⟨hidle, hready₁.current, hready₁.chunks, hready₁.currentClass⟩, hclosures',
        fun herror => absurd herror hresult⟩
    · cases h

theorem session_ready {clock : ℕ → N} (h : Session clock m) :
    m.Ready ∧ ClosuresOk m.vm.objects := by
  induction h with
  | init =>
    refine ⟨⟨⟨rfl, rfl, rfl⟩, rfl, rfl, rfl⟩, fun a f us ha => ?_⟩
    have hmem := List.mem_of_getElem? ha
    simp [Machine.init, VM.init] at hmem
  | interpret earlier call ih =>
    obtain ⟨hready, hclosures, -⟩ := interpret_spec ih.1 ih.2 call
    exact ⟨hready, hclosures⟩

/-- Every call of a session leaves the machine ready for the next one, and a call that ends with a
compile error leaves it as it was. -/
theorem interpret_ready {clock : ℕ → N} {result : InterpretResult} (hsession : Session clock m)
    (hcall : m.interpret n source = some (result, m')) :
    m'.Ready ∧ (result = .compileError → m'.vm = m.vm) := by
  obtain ⟨hready, hclosures⟩ := session_ready hsession
  obtain ⟨hready', -, hsame⟩ := interpret_spec hready hclosures hcall
  exact ⟨hready', hsame⟩

end Calls

/-- A syntax error, and then an undefined variable two calls deep. -/
theorem interpret_ready_after_errors : ∃ m₁ m₂ : Machine ℤ,
    (Machine.init fun _ => 0).interpret 40 "fun f( print 1".toList = some (.compileError, m₁) ∧
    m₁.interpret 100 "fun f() \x7b g(); \x7d f();".toList = some (.runtimeError, m₂) ∧
    m₁.Ready ∧ m₂.Ready := by
  have hsyntax : ((Machine.init fun _ => (0 : ℤ)).interpret 40 "fun f( print 1".toList).map Prod.fst
      = some .compileError := by decide +kernel
  have hundefined : (((Machine.init fun _ => (0 : ℤ)).interpret 40 "fun f( print 1".toList).bind
      fun r => (r.2.interpret 100 "fun f() \x7b g(); \x7d f();".toList).map Prod.fst)
      = some .runtimeError := by decide +kernel
  obtain ⟨⟨r, m₁⟩, h₁, rfl⟩ := Option.map_eq_some_iff.1 hsyntax
  rw [h₁] at hundefined
  obtain ⟨⟨r, m₂⟩, h₂, rfl⟩ := Option.map_eq_some_iff.1 hundefined
  refine ⟨m₁, m₂, h₁, h₂, (interpret_ready .init h₁).1, ?_⟩
  exact (interpret_ready (.interpret .init h₁) h₂).1

end Lox.Clox
