import Lox.Clox.Interpret
import Lox.Clox.Soundness.Step

/-!
# Unchecked casts

`run` tests the type of a value only where a program can get it wrong.  Everywhere else it casts: the
methods of a class to closures, the operands of `OP_METHOD`, `OP_INHERIT`, `OP_SUPER_INVOKE` and
`OP_GET_SUPER` to classes and instances, and the upvalues of a closure to pointers that are set.  In
the runs of accepted programs all of these are right (`casts_safe`).
-/

namespace Lox.Clox

variable {N : Type}

/-- The objects have the types that `run` takes them to have. -/
structure VM.CastsSafe (vm : VM N (List Addr)) : Prop where
  /-- `AS_CLOSURE` on what `tableGet` finds in the methods of a class. -/
  methods : ∀ (a : Addr) name methods, vm.objects[a]? = some (.klass name methods) →
    ∀ key v, methods key = some v → ∃ (m : Addr) (g : ObjFunction N) (us : List (Option Addr)),
      v = .obj m ∧ vm.objects[m]? = some (.closure g us)
  /-- `AS_CLASS(peek(1))` in `defineMethod`, and the method that it stores. -/
  method : ∀ k constants, vm.current = some (.method k, constants) →
    (vm.asClass (vm.peek 1)).isSome ∧ ∃ (m : Addr) (g : ObjFunction N) (us : List (Option Addr)),
      vm.peek 0 = .obj m ∧ vm.objects[m]? = some (.closure g us)
  /-- `AS_CLASS(peek(0))` in `OP_INHERIT`. -/
  inherit : ∀ constants, vm.current = some (.inherit, constants) →
    (vm.asClass (vm.peek 0)).isSome
  /-- `AS_CLASS(pop())` in `OP_SUPER_INVOKE`, and `this` below the arguments. -/
  superInvoke : ∀ k argCount constants, vm.current = some (.superInvoke k argCount, constants) →
    (vm.asClass (vm.peek 0)).isSome ∧ (vm.asInstance (vm.peek (argCount.toNat + 1))).isSome
  /-- `AS_CLASS(pop())` in `OP_GET_SUPER`, and `this` below it. -/
  getSuper : ∀ k constants, vm.current = some (.getSuper k, constants) →
    (vm.asClass (vm.peek 0)).isSome ∧ (vm.asInstance (vm.peek 1)).isSome
  /-- The closure of a frame has `upvalueCount` upvalues, none of which is `NULL`. -/
  frames : ∀ frame ∈ vm.frames, ∃ g us, vm.objects[frame.closure]? = some (.closure g us) ∧
    us.length = g.upvalueCount ∧ ∀ u ∈ us, ∃ (a : Addr) (location : Option ℕ) (closed : Value N),
      u = some a ∧ vm.objects[a]? = some (.upvalue location closed)

section Kinds

variable {hole : Option Addr} {S : List (Ty N)} {vm : VM N (List Addr)} {slots : List Slot}
  {v : Value N}

theorem MemoryOk.isClass (h : MemoryOk hole S vm slots) (hv : HasKind S v .klass) :
    (vm.asClass v).isSome := by
  obtain ⟨a, rfl, hT⟩ := HasKind.klass_iff.1 hv
  obtain ⟨name, methods, hclass, -⟩ := h.heap.klass hT
  rw [VM.asClass_eq_some.2 ⟨rfl, hclass⟩]
  rfl

theorem MemoryOk.isInstance (h : MemoryOk hole S vm slots) (hv : HasKind S v .inst) :
    (vm.asInstance v).isSome := by
  obtain ⟨a, rfl, hT⟩ := HasKind.inst_iff.1 hv
  obtain ⟨o, ho, hok⟩ := h.heap.get hT
  cases o with
  | inst klass fields =>
    rw [VM.asInstance_eq_some.2 ⟨rfl, ho⟩]
    rfl
  | upvalue location closed => cases location <;> exact hok.elim
  | _ => exact hok.elim

theorem MemoryOk.isClosure (h : MemoryOk hole S vm slots) (hv : HasKind S v .meth) :
    ∃ (m : Addr) (g : ObjFunction N) (us : List (Option Addr)),
      v = .obj m ∧ vm.objects[m]? = some (.closure g us) := by
  obtain ⟨m, g, t, rfl, hT, -⟩ := HasKind.meth_iff.1 hv
  obtain ⟨us, hclosure, -⟩ := h.heap.closure hT
  exact ⟨m, g, us, rfl, hclosure⟩

/-- An upvalue that a closure holds. -/
theorem MemoryOk.isUpvalue (h : MemoryOk hole S vm slots) {a : Addr} {k : Kind}
    (ha : S[a]? = some (.upvalue k)) :
    ∃ location closed, vm.objects[a]? = some (.upvalue location closed) := by
  obtain ⟨o, ho, hok⟩ := h.heap.get ha
  cases o with
  | upvalue location closed => exact ⟨location, closed, ho⟩
  | _ => exact hok.elim

/-- A closure with all its upvalues. -/
theorem MemoryOk.upvalues (h : MemoryOk none S vm slots) {a : Addr} {g : ObjFunction N}
    {sig : Signature} (ha : S[a]? = some (.closure g sig)) :
    ∃ us, vm.objects[a]? = some (.closure g us) ∧ us.length = g.upvalueCount ∧
      ∀ u ∈ us, ∃ (b : Addr) (location : Option ℕ) (closed : Value N), u = some b ∧
        vm.objects[b]? = some (.upvalue location closed) := by
  obtain ⟨us, hclosure, hwell, hus⟩ := h.heap.closure ha
  have hok := hus (by simp)
  refine ⟨us, hclosure, ?_, fun u hu => ?_⟩
  · rw [hok.length_eq, hwell.certified.upvalues]
  · obtain ⟨j, hj⟩ := List.mem_iff_getElem?.1 hu
    obtain ⟨k, -, b, rfl, hb⟩ := getElem?_forall₂ hok.flip hj
    obtain ⟨location, closed, hupvalue⟩ := h.isUpvalue hb
    exact ⟨b, location, closed, rfl, hupvalue⟩

end Kinds

/-- A machine that is typed makes no wrong cast. -/
theorem Typed.castsSafe [Double N] {S : List (Ty N)} {vm : VM N (List Addr)} (h : Typed S vm) :
    vm.CastsSafe := by
  obtain ⟨S', frame, rest, f, us, sig, cs, n, i, below, -, hnext⟩ := h.next
  have hmemory := hnext.running.memory
  have hframes := hnext.running.frames
  -- What the certificate says of the next instruction.
  have hsound : ∀ {j : Instr} {constants : List (Constant N)}, vm.current = some (j, constants) →
      Sound WellTyped ⟨f.constants, sig.upvalues⟩ cs frame.ip n j := by
    intro j constants hj
    obtain ⟨rfl, -⟩ := hnext.current_eq hj
    exact hnext.sound
  refine ⟨?_, ?_, ?_, ?_, ?_, ?_⟩
  · intro a name methods ha key v hv
    obtain ⟨T, hT, hok⟩ := hmemory.heap.type_of ha
    cases T with
    | klass => exact hmemory.isClosure (hok key v hv)
    | _ => exact hok.elim
  · intro k constants hj
    obtain ⟨b, hb, -⟩ := hsound hj
    simp only [transfer, Option.bind_eq_bind, Option.bind_eq_some_iff] at hb
    obtain ⟨name, -, hb⟩ := hb
    split at hb
    · rename_i m c s ss hs
      simp only [Option.ite_none_right_eq_some] at hb
      obtain ⟨⟨hm, -, hc⟩, -⟩ := hb
      exact ⟨hmemory.isClass (hnext.running.peek_kind (by simp [hs, hc])),
        hmemory.isClosure (hnext.running.peek_kind (by simp [hs, hm]))⟩
    · cases hb
  · intro constants hj
    obtain ⟨b, hb, -⟩ := hsound hj
    simp only [transfer] at hb
    split at hb
    · rename_i sub sup s ss hs
      simp only [Option.ite_none_right_eq_some] at hb
      obtain ⟨⟨hsub, -⟩, -⟩ := hb
      exact hmemory.isClass (hnext.running.peek_kind (by simp [hs, hsub]))
    · cases hb
  · intro k argCount constants hj
    obtain ⟨b, hb, -⟩ := hsound hj
    simp only [transfer, Option.bind_eq_bind, Option.bind_eq_some_iff,
      Option.ite_none_right_eq_some] at hb
    obtain ⟨name, -, ⟨hclass, hinst⟩, -⟩ := hb
    exact ⟨hmemory.isClass (hnext.running.peek_kind hclass),
      hmemory.isInstance (hnext.running.peek_kind hinst)⟩
  · intro k constants hj
    obtain ⟨b, hb, -⟩ := hsound hj
    simp only [transfer, Option.bind_eq_bind, Option.bind_eq_some_iff,
      Option.ite_none_right_eq_some] at hb
    obtain ⟨name, -, ⟨hclass, hinst⟩, -⟩ := hb
    exact ⟨hmemory.isClass (hnext.running.peek_kind hclass),
      hmemory.isInstance (hnext.running.peek_kind hinst)⟩
  · intro frame' hmem
    rw [hframes] at hmem
    rcases List.mem_cons.1 hmem with rfl | hmem
    · obtain ⟨us', hus⟩ := hmemory.upvalues hnext.running.frame_ok.closure
      exact ⟨f, us', hus⟩
    · obtain ⟨g, t, -, hclosure, -⟩ := hnext.running.waiting.bottom hmem
      obtain ⟨us', hus⟩ := hmemory.upvalues hclosure
      exact ⟨g, us', hus⟩

/-- In every run of an accepted program, until an error is reported, each instruction is executed, and
all casts without a test are of objects of the right type. -/
theorem casts_safe [Double N] (source : List Char) (f : ObjFunction N)
    (haccepts : Accepts (scanAll source) f) (clock : ℕ → N) (k : ℕ) (vm : VM N (List Addr))
    (hrun : run k ((VM.init clock).start f) = some (.running vm)) (hquiet : vm.stderr = []) :
    vm.CastsSafe ∧ (step vm).isSome := by
  have htyped := (run_typed haccepts clock hrun).resolve_right fun h => h.2 hquiet
  obtain ⟨o, ho, -⟩ := step_typed htyped
  exact ⟨htyped.castsSafe, by rw [ho]; rfl⟩

/-- A method that is called through `super`, just before the call. -/
theorem casts_safe_super : ∃ f : ObjFunction ℤ, Accepts (scanAll
    "class A \x7b m() \x7b\x7d \x7d class B < A \x7b m() \x7b super.m(); \x7d \x7d B().m();".toList) f ∧
    ∃ vm constants, run 21 ((VM.init fun _ => 0).start f) = some (.running vm) ∧
      vm.current = some (.superInvoke 0 0, constants) ∧ vm.CastsSafe ∧ (step vm).isSome := by
  have hrun : afterRunning 100 21
      "class A \x7b m() \x7b\x7d \x7d class B < A \x7b m() \x7b super.m(); \x7d \x7d B().m();".toList
      (fun _ => (0 : ℤ)) (fun vm => vm.stderr.isEmpty &&
        vm.current.map Prod.fst = some (.superInvoke 0 0)) = true := by
    decide +kernel
  obtain ⟨f, vm, haccepts, hvm, htest⟩ := afterRunning_running hrun
  simp only [Bool.and_eq_true, List.isEmpty_iff, decide_eq_true_eq, Option.map_eq_some_iff,
    Prod.exists] at htest
  obtain ⟨hquiet, i, constants, hcurrent, rfl⟩ := htest
  exact ⟨f, haccepts, vm, constants, hvm, hcurrent, casts_safe _ f haccepts _ 21 vm hvm hquiet⟩

end Lox.Clox
