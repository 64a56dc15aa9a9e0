import Lox.Clox.Heights
import Lox.Clox.Sealed
import Lox.Clox.StackWrites
import Lox.Clox.Soundness.Step

/-!
# Initializers return the instance

The call of a class pushes a frame for its initializer with the new instance in slot 0.  Three facts
make the call evaluate to that instance, whatever the body of the initializer does:

* nothing writes slot 0 of a method (`Typed.keeps_this`): its kind is that of an instance, and only
  variables of no particular kind are assigned;
* the closures that classes have under the name `init` are of initializers (`Primed.classes`);
* in the code of an initializer `OP_RETURN` is only reached from the load of slot 0 before it
  (`Primed.innermost`).
-/

namespace Lox.Clox

variable {N : Type}

/-! ### The way to a sealed instruction -/

theorem codeSize_prefix {p p' q q' : List Instr} (h : p ++ q = p' ++ q')
    (hsize : codeSize p = codeSize p') : p = p' := by
  have hlt : ∀ {r : List Instr}, r ≠ [] → 0 < codeSize r := by
    intro r hr
    cases r with
    | nil => exact absurd rfl hr
    | cons i r =>
      have := i.size_pos
      rw [codeSize_cons]
      omega
  rcases List.append_eq_append_iff.1 h with ⟨r, rfl, -⟩ | ⟨r, rfl, -⟩
  · rw [codeSize_append] at hsize
    by_contra hne
    have := hlt (r := r) (by rintro rfl; simp at hne)
    omega
  · rw [codeSize_append] at hsize
    by_contra hne
    have := hlt (r := r) (by rintro rfl; simp at hne)
    omega

theorem Code.At.split {cs : Code} {o : ℕ} {n : Note} {i : Instr} (h : cs.At o n i) :
    ∃ p q, cs.instrs = p ++ i :: q ∧ o = codeSize p := by
  obtain ⟨p, q, rfl, rfl⟩ := h
  exact ⟨p.instrs, q.instrs, by simp, rfl⟩

/-- The instructions of a function are the ones of its certificate. -/
theorem Annotated.instrs_eq {f : ObjFunction N} {sig : Signature} {cs : Code}
    (h : Annotated f sig cs) {is : List Instr} (hcode : f.code = encodeAll is)
    (hreadable : ∀ i ∈ is, i.Readable f.constants) : is = cs.instrs := by
  have his : f.disassembleChunk = some is := by
    unfold Function.disassembleChunk
    rw [hcode]
    exact disassemble_encodeAll hreadable le_rfl
  rw [h.disassembleChunk] at his
  exact (Option.some.inj his).symm

section Edges

variable {B : Instr → Prop} {R : Instr → Instr → Prop} {f : ObjFunction N} {sig : Signature}
  {cs : Code} {o : ℕ} {n : Note} {i j : Instr}

/-- A function does not start with a sealed instruction. -/
theorem Sealed.not_entry (hsealed : Sealed B R cs.instrs) (hat : cs.At 0 n j) : ¬ B j := by
  intro hj
  obtain ⟨p, q, hsplit, hp⟩ := hat.split
  obtain ⟨p', k, rfl, -⟩ := hsealed.paired p j q hsplit hj
  have := k.size_pos
  rw [codeSize_append, codeSize_single] at hp
  omega

/-- A sealed instruction is reached from the one before it. -/
theorem Sealed.edge (hsealed : Sealed B R cs.instrs) (hannotated : Annotated f sig cs)
    (hat : cs.At o n i) {ip h h' : ℕ} (hedge : (ip, h') ∈ i.next o h) {n' : Note}
    (hat' : cs.At ip n' j) (hj : B j) : R i j := by
  obtain ⟨p, q, hsplit, hp⟩ := hat.split
  obtain ⟨p', q', hsplit', hp'⟩ := hat'.split
  obtain ⟨p'', k, rfl, hk⟩ := hsealed.paired p' j q' hsplit' hj
  -- The instruction before it ends where `i` ends.
  have hfall : ip = o + i.size → R i j := by
    intro hip
    have hlist : (p ++ [i]) ++ q = (p'' ++ [k]) ++ j :: q' := by
      rw [List.append_assoc, List.singleton_append, ← hsplit, hsplit']
    have hsame : p ++ [i] = p'' ++ [k] := by
      refine codeSize_prefix hlist ?_
      rw [← hp', hip, codeSize_append, codeSize_single, hp]
    obtain ⟨-, hik⟩ := List.append_inj' hsame rfl
    obtain rfl := List.singleton_inj.1 hik
    exact hk
  -- No jump goes there.
  have hjump : i.target o = some (ip : ℤ) → R i j := by
    intro ht
    obtain ⟨p₁, q₁, hsplit₁, ht₁, hfree⟩ := hsealed.jumps p i q ip hsplit (by
      rw [codeSize_nil, Nat.zero_add, ← hp]
      exact ht)
    have hsame : p₁ = p'' ++ [k] := by
      refine codeSize_prefix (hsplit₁.symm.trans hsplit') ?_
      omega
    subst hsame
    rw [hsplit₁] at hsplit'
    obtain rfl := List.append_cancel_left hsplit'
    exact absurd hj (hfree j rfl)
  cases i with
  | jump d =>
    simp only [Instr.next, List.mem_singleton, Prod.mk.injEq] at hedge
    refine hjump ?_
    simp only [Instr.target, Option.some.injEq]
    omega
  | jumpIfFalse d =>
    simp only [Instr.next, List.mem_cons, List.not_mem_nil, or_false, Prod.mk.injEq] at hedge
    rcases hedge with ⟨rfl, -⟩ | ⟨hip, -⟩
    · exact hfall rfl
    · refine hjump ?_
      simp only [Instr.target, Option.some.injEq]
      omega
  | loop d =>
    simp only [Instr.next, List.mem_singleton, Prod.mk.injEq] at hedge
    obtain ⟨-, hsound⟩ := hannotated.sound hat
    have hle : d ≤ o + 3 := hsound.1
    refine hjump ?_
    simp only [Instr.target, Option.some.injEq]
    omega
  | return_ => cases hedge
  | _ =>
    simp only [Instr.next, List.mem_singleton, Prod.mk.injEq] at hedge
    exact hfall hedge.1

end Edges

/-! ### Frames that are primed -/

/-- The value is a closure of an initializer. -/
def IsInit (objects : List (Obj N)) (v : Value N) : Prop :=
  ∃ (m : Addr) (f : ObjFunction N) (us : List (Option Addr)),
    v = .obj m ∧ objects[m]? = some (.closure f us) ∧ InitCode f

/-- `init` is an initializer in every class. -/
def ClassesInit (objects : List (Obj N)) : Prop :=
  ∀ (a : Addr) name methods, objects[a]? = some (.klass name methods) →
    ∀ v, methods "init".toList = some v → IsInit objects v

/-- The frame does not stand at the second half of a pair. -/
def Unsealed (objects : List (Obj N)) (frame : CallFrame) : Prop :=
  ∀ f us, objects[frame.closure]? = some (.closure f us) →
    (InitCode f → f.fetch frame.ip ≠ some .return_) ∧ ∀ k, f.fetch frame.ip ≠ some (.method k)

/-- What the first half of a pair has left is there for the second one. -/
def Ready (vm : VM N (List Addr)) (frame : CallFrame) : Prop :=
  ∀ f us, vm.objects[frame.closure]? = some (.closure f us) →
    (InitCode f → f.fetch frame.ip = some .return_ → vm.peek 0 = vm.stack frame.slots) ∧
    ∀ k, f.fetch frame.ip = some (.method k) → stringAt f.constants k = some "init".toList →
      IsInit vm.objects (vm.peek 0)

/-- The invariant: all closures are of functions of the program, classes have initializers under
`init`, and every frame may go on. -/
structure Primed (program : ObjFunction N) (vm : VM N (List Addr)) : Prop where
  closures : ∀ (a : Addr) f us, vm.objects[a]? = some (.closure f us) → program.Contains f
  classes : ClassesInit vm.objects
  ready : ∀ frame ∈ vm.frames.head?, Ready vm frame
  waiting : ∀ frame ∈ vm.frames.tail, Unsealed vm.objects frame

theorem IsInit.keeps {P : ObjFunction N → Prop} {objects objects' : List (Obj N)} {v : Value N}
    (h : IsInit objects v) (hkeeps : KeepsClosures P objects objects') : IsInit objects' v := by
  obtain ⟨m, f, us, hv, hm, hinit⟩ := h
  obtain ⟨us', hm'⟩ := hkeeps.kept m f us hm
  exact ⟨m, f, us', hv, hm', hinit⟩

theorem Function.Contains.trans {f g h : ObjFunction N} (h₁ : f.Contains g) (h₂ : g.Contains h) :
    f.Contains h := by
  induction h₁ with
  | refl => exact h₂
  | constant mem _ ih => exact .constant mem (ih h₂)

theorem Unsealed.ready {vm : VM N (List Addr)} {frame : CallFrame}
    (h : Unsealed vm.objects frame) : Ready vm frame := by
  intro f us hobject
  obtain ⟨hreturn, hmethod⟩ := h f us hobject
  exact ⟨fun hinit hfetch => absurd hfetch (hreturn hinit), fun k hfetch => absurd hfetch (hmethod k)⟩

theorem Unsealed.keeps {P : ObjFunction N → Prop} {objects objects' : List (Obj N)}
    {frame : CallFrame} (h : Unsealed objects frame) (hkeeps : KeepsClosures P objects objects')
    {g : ObjFunction N} {us : List (Option Addr)}
    (hobject : objects[frame.closure]? = some (.closure g us)) : Unsealed objects' frame := by
  intro f us' hf
  obtain ⟨us'', hkept⟩ := hkeeps.kept _ g us hobject
  rw [hkept] at hf
  cases hf
  exact h g us hobject

/-- A class gets other methods. -/
theorem ClassesInit.set {P : ObjFunction N → Prop} {objects : List (Obj N)} {a : Addr} {name : Name}
    {methods : Table N} (h : ClassesInit objects)
    (hkeeps : KeepsClosures P objects (objects.set a (.klass name methods)))
    (hmethods : ∀ v, methods "init".toList = some v → IsInit objects v) :
    ClassesInit (objects.set a (.klass name methods)) := by
  intro b name' methods' hb v hv
  refine IsInit.keeps ?_ hkeeps
  rcases List.mem_or_eq_of_mem_set (List.mem_of_getElem? hb) with hmem | heq
  · obtain ⟨c, hc⟩ := List.mem_iff_getElem?.1 hmem
    exact h c name' methods' hc v hv
  · cases heq
    exact hmethods v hv

section Steps

variable [Double N] {S : List (Ty N)} {vm vm' : VM N (List Addr)} {frame : CallFrame}
  {rest : List CallFrame} {f : ObjFunction N} {us : List (Option Addr)} {sig : Signature} {cs : Code}
  {n : Note} {i : Instr} {below : List Slot}

/-- What the instruction does to the frames, the height of the stack and the closures. -/
theorem Next.moves (h : Next S vm frame rest f us sig cs n i below) {o : Outcome N (List Addr)}
    (hstep : Lox.Clox.step vm = some o) :
    MovesExactly i frame rest n.shape.slots.length
        { vm with frames := { frame with ip := frame.ip + i.size } :: rest } o ∧
      KeepsClosures (fun g => Constant.function g ∈ f.constants) vm.objects o.vm.objects := by
  rw [h.step] at hstep
  have hreads := h.annotated.reads h.at_
  have hpops : i.pops ≤ n.shape.slots.length := by
    by_cases hi : i = .return_
    · rw [hi] at hreads ⊢
      exact hreads
    · exact (h.annotated.pops h.at_ hi).le
  have hframes : { vm with frames := { frame with ip := frame.ip + i.size } :: rest }.frames
      = { frame with ip := frame.ip + i.size } :: rest := rfl
  exact execute_exactly hframes h.stackTop hpops hreads o hstep

/-- The closure of a waiting frame. -/
theorem Next.waiting_closure (h : Next S vm frame rest f us sig cs n i below) {caller : CallFrame}
    (hmem : caller ∈ rest) : ∃ g us, vm.objects[caller.closure]? = some (.closure g us) := by
  obtain ⟨g, t, -, hclosure, -⟩ := h.running.waiting.bottom hmem
  obtain ⟨us', hobject, -⟩ := h.running.memory.heap.closure hclosure
  exact ⟨g, us', hobject⟩

/-! ### One step -/

/-- Methods are added to classes by `OP_METHOD` and `OP_INHERIT` only. -/
theorem Next.classes (h : Next S vm frame rest f us sig cs n i below)
    (hclasses : ClassesInit vm.objects)
    (hmethod : ∀ k, i = .method k → stringAt f.constants k = some "init".toList →
      IsInit vm.objects (vm.peek 0)) {o : Outcome N (List Addr)} (hstep : Lox.Clox.step vm = some o) :
    ClassesInit o.vm.objects := by
  obtain ⟨-, hkeeps⟩ := h.moves hstep
  cases hi : i.changesClass with
  | false =>
    have hsame := step_keeps h.current hi hstep
    intro a name methods ha v hv
    rcases hsame.made a name methods ha with hold | rfl
    · exact (hclasses a name methods hold v hv).keeps hkeeps
    · cases hv
  | true =>
    rw [h.step] at hstep
    cases i with
    | method k =>
      simp only [execute, VM.defineMethod, Option.bind_eq_bind, Option.bind_eq_some_iff,
        Prod.exists] at hstep
      obtain ⟨name, hname, a, className, methods, hclass, hgo⟩ := hstep
      obtain rfl := Option.some.inj hgo
      refine hclasses.set hkeeps fun v hv => ?_
      unfold Table.set at hv
      split at hv
      · rename_i heq
        obtain rfl := Option.some.inj hv
        exact hmethod k rfl (heq ▸ hname)
      · exact hclasses a className methods (VM.asClass_eq_some.1 hclass).2 v hv
    | inherit =>
      simp only [execute, VM.inherit_] at hstep
      split at hstep
      · obtain rfl := Option.some.inj hstep
        exact hclasses
      · rename_i s superName inherited hsuper
        simp only [Option.bind_eq_bind, Option.bind_eq_some_iff, Prod.exists] at hstep
        obtain ⟨a, className, methods, hclass, hgo⟩ := hstep
        obtain rfl := Option.some.inj hgo
        refine hclasses.set hkeeps fun v hv => ?_
        unfold Table.addAll at hv
        cases hinit : inherited "init".toList with
        | some w =>
          rw [hinit] at hv
          cases hv
          exact hclasses s superName inherited (VM.asClass_eq_some.1 hsuper).2 v hinit
        | none =>
          rw [hinit] at hv
          exact hclasses a className methods (VM.asClass_eq_some.1 hclass).2 v hv
    | _ => cases hi

theorem Next.returns (h : Next S vm frame rest f us sig cs n i below) (hinit : InitCode f) :
    ReturnsThis cs.instrs := by
  obtain ⟨is, hcode, hreadable, hreturns⟩ := hinit
  rw [← h.annotated.instrs_eq hcode hreadable]
  exact hreturns

theorem Next.methods (h : Next S vm frame rest f us sig cs n i below)
    (hgenerated : ∃ is, Generated f is) :
    Sealed (fun i => ∃ k, i = .method k) (MethodAfter f.constants) cs.instrs := by
  obtain ⟨is, his⟩ := hgenerated
  obtain ⟨hcode, hreadable⟩ := his.code
  rw [← h.annotated.instrs_eq hcode hreadable]
  exact generated_sealed his

/-- A function starts with no second half. -/
theorem Next.entry (h : Next S vm frame rest f us sig cs n i below)
    (hgenerated : ∃ is, Generated f is) (hip : frame.ip = 0) : Unsealed vm.objects frame := by
  intro g us' hg
  rw [h.closure] at hg
  cases hg
  have hat := h.at_
  rw [hip] at hat
  rw [hip, h.annotated.fetch hat]
  refine ⟨fun hinit heq => ?_, fun k heq => ?_⟩
  · exact (h.returns hinit).not_entry hat (Option.some.inj heq)
  · exact (h.methods hgenerated).not_entry hat ⟨k, Option.some.inj heq⟩

/-- `OP_GET_LOCAL`. -/
theorem Next.getLocal {slot : UInt8} (h : Next S vm frame rest f us sig cs n (.getLocal slot) below)
    (hstep : Lox.Clox.step vm = some (.running vm')) :
    vm'.frames.length = rest.length + 1 ∧ vm'.peek 0 = vm.stack (frame.slots + slot.toNat) ∧
      vm'.stack frame.slots = vm.stack frame.slots := by
  rw [h.step] at hstep
  obtain rfl := Outcome.running.inj (Option.some.inj hstep)
  have hlt : frame.slots < vm.stackTop := by
    have htop := h.stackTop
    have := List.length_pos_iff.2 h.slots
    omega
  exact ⟨rfl, VM.peek_push_zero _ _, Function.update_of_ne hlt.ne _ _⟩

/-- `OP_CLOSURE`. -/
theorem Next.makeClosure {k : UInt8} {captures : List Upvalue}
    (h : Next S vm frame rest f us sig cs n (.closure k captures) below)
    (hstep : Lox.Clox.step vm = some (.running vm')) {g : ObjFunction N}
    (hg : functionAt f.constants k = some g) :
    vm'.frames.length = rest.length + 1 ∧ vm'.peek 0 = .obj vm.objects.length ∧
      ∃ us', vm'.objects[vm.objects.length]? = some (.closure g us') := by
  rw [h.step] at hstep
  simp only [execute, VM.makeClosure, hg, Option.bind_eq_bind, Option.bind_some,
    Option.bind_eq_some_iff, Prod.exists] at hstep
  obtain ⟨as, vm₁, hcaptures, hgo⟩ := hstep
  obtain rfl := Outcome.running.inj (Option.some.inj hgo)
  have hframes := (captures_same openUpvalues_local hcaptures).frames
  obtain ⟨hstack, htop⟩ := captures_stack hcaptures
  have hkept := captures_closures (P := fun _ => True) hcaptures
  obtain ⟨us', hus'⟩ := hkept.kept vm.objects.length g _ List.getElem?_concat_length
  refine ⟨congrArg List.length hframes, ?_, as, ?_⟩
  · change vm₁.stack (vm₁.stackTop - 1 - 0) = _
    rw [hstack, htop]
    exact VM.peek_push_zero _ _
  · exact List.getElem?_set_self (List.getElem?_eq_some_iff.1 hus').1

/-- A frame that does not come from a first half is not at a second one. -/
theorem Next.unsealed (h : Next S vm frame rest f us sig cs n i below)
    (hgenerated : ∃ is, Generated f is) (hget : i ≠ .getLocal 0)
    (hclosure : ∀ k captures, i ≠ .closure k captures) {ip h' : ℕ}
    (hedge : (ip, h') ∈ i.next frame.ip n.shape.slots.length) :
    Unsealed vm.objects { frame with ip := ip } := by
  intro g us' hg
  rw [h.closure] at hg
  cases hg
  obtain ⟨n', j, hat', -⟩ := h.annotated.next h.at_ hedge
  rw [h.annotated.fetch hat']
  refine ⟨fun hinit heq => hget ?_, fun k heq => ?_⟩
  · exact (h.returns hinit).edge h.annotated h.at_ hedge hat' (Option.some.inj heq)
  · obtain ⟨k', captures, _, _, _, hi, -⟩ :=
      (h.methods hgenerated).edge h.annotated h.at_ hedge hat' ⟨k, Option.some.inj heq⟩
    exact hclosure k' captures hi

/-- The instruction stays in the frame. -/
theorem Next.ready (h : Next S vm frame rest f us sig cs n i below)
    (hgenerated : ∃ is, Generated f is) (hstep : Lox.Clox.step vm = some (.running vm')) {ip h' : ℕ}
    (hedge : (ip, h') ∈ i.next frame.ip n.shape.slots.length) :
    Ready vm' { frame with ip := ip } := by
  obtain ⟨-, hkeeps⟩ := h.moves hstep
  obtain ⟨us', hclosure⟩ := hkeeps.kept _ f us h.closure
  intro g us'' hg
  simp only [Outcome.vm] at hclosure
  rw [hclosure] at hg
  cases hg
  obtain ⟨n', j, hat', -⟩ := h.annotated.next h.at_ hedge
  rw [h.annotated.fetch hat']
  refine ⟨fun hinit heq => ?_, fun k heq hname => ?_⟩
  · obtain rfl := (h.returns hinit).edge h.annotated h.at_ hedge hat' (Option.some.inj heq)
    obtain ⟨-, hpeek, hstack⟩ := h.getLocal hstep
    rw [hpeek, hstack]
    rfl
  · obtain rfl := Option.some.inj heq
    obtain ⟨k', captures, k'', g, name, rfl, hk, hg, hname', hinit⟩ :=
      (h.methods hgenerated).edge h.annotated h.at_ hedge hat' ⟨k, rfl⟩
    cases hk
    rw [hname] at hname'
    obtain ⟨-, hpeek, us₁, hnew⟩ := h.makeClosure hstep hg
    exact ⟨_, g, us₁, hpeek, hnew, hinit (Option.some.inj hname').symm⟩

/-- A step keeps the invariant. -/
theorem step_primed {program : ObjFunction N} (hgen : ∀ g, program.Contains g → ∃ is, Generated g is)
    (htyped : Typed S vm) (h : Primed program vm) (hstep : step vm = some (.running vm')) :
    Primed program vm' := by
  obtain ⟨S', frame, rest, f, us, sig, cs, n, i, below, hS, hnext⟩ := htyped.next
  obtain ⟨hmoves, hkeeps⟩ := hnext.moves hstep
  have hcontains := h.closures _ f us hnext.closure
  have hgenerated := hgen f hcontains
  have hframes := hnext.running.frames
  have hready := h.ready frame (by rw [hframes]; rfl) f us hnext.closure
  have hclosures : ∀ (a : Addr) g us, vm'.objects[a]? = some (.closure g us) → program.Contains g := by
    intro a g us' hg
    rcases hkeeps.made a g us' hg with ⟨us₁, hold⟩ | hmem
    · exact h.closures a g us₁ hold
    · exact hcontains.trans (.constant hmem (.refl g))
  have hclasses := hnext.classes h.classes (fun k hi => hready.2 k (by
    rw [← hi]
    exact hnext.annotated.fetch hnext.at_)) hstep
  -- The callers have not moved.
  have hwaiting : ∀ caller ∈ rest, Unsealed vm'.objects caller := by
    intro caller hmem
    obtain ⟨g, us', hg⟩ := hnext.waiting_closure hmem
    refine (h.waiting caller ?_).keeps hkeeps hg
    rw [hframes]
    exact hmem
  cases hmoves with
  | stay ip h' edge frames stackTop =>
    refine ⟨hclosures, hclasses, fun frame' hframe' => ?_, ?_⟩
    · rw [frames] at hframe'
      cases hframe'
      exact hnext.ready hgenerated hstep edge
    · rw [frames]
      exact hwaiting
  | call closure function upvalues ip h' edge frames code stackTop =>
    have hne : vm'.frames ≠ [] := by simp [frames]
    obtain ⟨S₁, frame₁, rest₁, f₁, us₁, sig₁, cs₁, n₁, i₁, below₁, -, hnext₁⟩ :=
      (step_stays htyped hstep hne).next
    have hframes₁ := hnext₁.running.frames
    rw [frames] at hframes₁
    obtain ⟨rfl, -⟩ := List.cons.inj hframes₁
    have hlength : vm'.frames.length ≠ rest.length + 1 := by simp [frames]
    refine ⟨hclosures, hclasses, fun frame' hframe' => ?_, ?_⟩
    · rw [frames] at hframe'
      cases hframe'
      exact (hnext₁.entry (hgen f₁ (hclosures _ f₁ us₁ hnext₁.closure)) rfl).ready
    · rw [frames]
      intro caller hmem
      rcases List.mem_cons.1 hmem with rfl | hmem
      · have hun : Unsealed vm.objects { frame with ip := ip } := by
          refine hnext.unsealed hgenerated ?_ ?_ edge
          · rintro rfl
            exact hlength (hnext.getLocal hstep).1
          · rintro k captures rfl
            obtain ⟨⟨g, hg, -⟩, -⟩ := hnext.sound
            exact hlength (hnext.makeClosure hstep hg).1
        exact hun.keeps hkeeps hnext.closure
      · exact hwaiting caller hmem
  | return_ return_ frames below stackTop =>
    refine ⟨hclosures, hclasses, fun frame' hframe' => ?_, ?_⟩
    · rw [frames] at hframe'
      exact (hwaiting frame' (List.mem_of_mem_head? hframe')).ready
    · rw [frames]
      exact fun caller hmem => hwaiting caller (List.mem_of_mem_tail hmem)
  | bare reset =>
    refine ⟨hclosures, hclasses, ?_, ?_⟩
    · rw [reset.frames]
      simp
    · rw [reset.frames]
      simp

/-! ### The receiver of a method -/

/-- A slot with an instance is not assigned by the next instruction. -/
theorem Next.not_assigned (h : Next S vm frame rest f us sig cs n i below) {j : ℕ} {s : Slot}
    (hs : slotAt j (n.shape.slots ++ below) = some s) (hk : s.kind = .inst) :
    (∀ k, i = .setLocal k → j ≠ frame.slots + k.toNat) ∧
      ∀ k a, i = .setUpvalue k → us[k.toNat]? = some (some a) → ¬ OpenAt vm.objects a j := by
  refine ⟨?_, ?_⟩
  · rintro k rfl rfl
    obtain ⟨b, hb, -⟩ := h.sound
    simp only [transfer, Option.bind_eq_bind, Option.bind_eq_some_iff, Option.ite_none_right_eq_some,
      Bool.and_eq_true, decide_eq_true_eq] at hb
    obtain ⟨t, ht, ⟨hany, -⟩, -⟩ := hb
    have hsame := h.running.slot ht
    rw [hs] at hsame
    cases hsame
    rw [hk] at hany
    cases hany
  · -- The upvalue has the kind of the slot, but only upvalues of any kind are assigned.
    rintro k a rfl ha hopen
    obtain ⟨b, hb, -⟩ := h.sound
    simp only [transfer, Option.bind_eq_bind, Option.bind_eq_some_iff, Option.ite_none_right_eq_some,
      Bool.and_eq_true, decide_eq_true_eq] at hb
    obtain ⟨t, ht, ⟨rfl, -⟩, -⟩ := hb
    obtain ⟨o, ho, u, rfl, hu⟩ := getElem?_forall₂ h.upvalues ht
    rw [ha] at ho
    cases ho
    have htype := ((h.running.memory.stack.slotAt hs).2 a hopen).2
    rw [hu, hk] at htype
    cases htype

/-- It is not written at all, unless the instruction returns from the function. -/
theorem Next.spares (h : Next S vm frame rest f us sig cs n i below) {j : ℕ} {s : Slot}
    (hs : slotAt j (n.shape.slots ++ below) = some s) (hk : s.kind = .inst)
    (hle : j ≤ frame.slots) (hreturn : i = .return_ → j < frame.slots) :
    Spares { frame with ip := frame.ip + i.size } us
      { vm with frames := { frame with ip := frame.ip + i.size } :: rest } i j := by
  obtain ⟨hlocal, hupvalue⟩ := h.not_assigned hs hk
  refine ⟨?_, hreturn, hlocal, hupvalue⟩
  change j + i.pops < vm.stackTop
  rw [h.stackTop]
  by_cases hi : i = .return_
  · have hreads := h.annotated.reads h.at_
    have hlt := hreturn hi
    rw [hi] at hreads ⊢
    change 1 ≤ _ at hreads
    change j + 1 < _
    omega
  · have := h.annotated.pops h.at_ hi
    omega

end Steps

end Lox.Clox
