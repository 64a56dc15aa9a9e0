import Lox.Clox.Frames
import Lox.Clox.Verifiable
import Lox.Clox.Soundness.Calls

/-!
# Certified code does not go wrong

From a machine that is typed every instruction of `run` is executed, none of the casts that `run`
makes without a test fails, and the machine is typed again, unless `runtimeError` was called
(`step_typed`).
-/

namespace Lox.Clox

variable {N : Type}

/-! ### Instructions -/

theorem Executes.goOn {S : List (Ty N)} {upvalues : List Addr} {vm : VM N (List Addr)}
    (h : Typed S vm) :
    Executes S upvalues vm.goOn :=
  ⟨_, rfl, .inl h⟩

theorem Executes.fail {S : List (Ty N)} {vm : VM N (List Addr)} {slots : List Slot}
    (h : MemoryOk none S vm slots) (message : String) : Executes S vm.upvalues (vm.fail message) :=
  ⟨_, rfl, S, vm, slots, message, List.prefix_rfl, h, rfl, rfl⟩

theorem Executes.check {S : List (Ty N)} {upvalues : List Addr} {r : Option (Bool × VM N (List Addr))}
    (h : Calls S upvalues r) : Executes S upvalues (VM.check r) := by
  obtain ⟨ok, vm', rfl, ⟨rfl, htyped⟩ | hfailed⟩ := h
  · exact ⟨_, rfl, .inl htyped⟩
  · cases ok with
    | true => exact ⟨_, rfl, .inr hfailed⟩
    | false => exact ⟨_, rfl, hfailed⟩

namespace Running

variable {S : List (Ty N)} {vm : VM N (List Addr)} {frame : CallFrame} {rest : List CallFrame}
  {f : ObjFunction N} {sig : Signature} {cs : Code} {a b : Shape} {below : List Slot}
  {v : Value N} {k : Kind}

/-- The shape may be seen as less than it is. -/
theorem sub (h : Running S vm frame rest f sig cs a below) (hsub : a.Sub b) :
    Running S vm frame rest f sig cs b below := by
  refine ⟨h.frames, h.frame_ok, h.base, ?_, ?_, ?_, h.waiting⟩
  · exact h.memory.sub (List.rel_append hsub.1 (forall₂_sub_refl below))
  · have hlength := hsub.1.length_eq
    have hclass := h.classVar
    rcases hsub.2.1 with hnone | hsame
    · rw [hnone]
      trivial
    · rw [hsame]
      unfold ClassVarOk at hclass ⊢
      split
      · trivial
      · rename_i i hi
        rw [hi] at hclass
        exact ⟨hlength ▸ hclass.1, hclass.2⟩
      · rename_i name hname
        rw [hname] at hclass
        exact hclass
  · rw [hsub.2.2]
    exact h.bottom

/-- The instruction is fetched. -/
theorem fetched (h : Running S vm frame rest f sig cs a below) (ip : ℕ) :
    Running S { vm with frames := { frame with ip := ip } :: rest } { frame with ip := ip } rest f sig
      cs a below :=
  ⟨rfl, ⟨h.frame_ok.closure, h.frame_ok.annotated⟩, h.base, h.memory.of_eq rfl rfl rfl rfl rfl,
    h.classVar, h.bottom, h.waiting⟩

/-- The frame goes on with another shape. -/
theorem next (h : Running S vm frame rest f sig cs a below) {S' : List (Ty N)}
    {vm' : VM N (List Addr)} {ip : ℕ} (hS : S <+: S')
    (hframes : vm'.frames = { frame with ip := ip } :: rest) (hgoes : cs.Goes ip b)
    (hm : MemoryOk none S' vm' (b.slots ++ below))
    (hclass : ClassVarOk S' vm' frame.slots b.slots.length b.cls)
    (hbottom : bottomKind b.slots = bottomKind a.slots) : Typed S vm' :=
  ⟨S', { frame with ip := ip }, rest, f, sig, cs, b, below, hS,
    ⟨hframes, ⟨prefix_getElem? hS h.frame_ok.closure, h.frame_ok.annotated⟩, h.base, hm, hclass,
      hbottom.trans h.bottom, h.waiting.mono hS⟩, hgoes⟩

theorem classVar_keeps (h : Running S vm frame rest f sig cs a below) {S' : List (Ty N)}
    {vm' : VM N (List Addr)} (hS : S <+: S') (hkeeps : vm.Keeps vm') {height : ℕ}
    (hheight : a.slots.length ≤ height) : ClassVarOk S' vm' frame.slots height a.cls := by
  have hclass := h.classVar
  unfold ClassVarOk at hclass ⊢
  split
  · trivial
  · rename_i i hi
    rw [hi] at hclass
    refine ⟨hclass.1.trans_le hheight, ?_⟩
    have htop := h.memory.top
    rw [List.length_append] at htop
    rw [hkeeps.stack _ (by have := h.base; have := hclass.1; omega)]
    exact hclass.2.mono hS
  · rename_i name hname
    rw [hname] at hclass
    obtain ⟨v, hv, hkind⟩ := hclass
    exact ⟨v, by rw [hkeeps.globals]; exact hv, hkind.mono hS⟩

/-- An instruction that pushes a value. -/
theorem pushes (h : Running S vm frame rest f sig cs a below) (hne : a.slots ≠ [])
    (hgoes : cs.Goes frame.ip (a.push k)) (hv : HasKind S v k) :
    Executes S vm.upvalues (vm.push v).goOn :=
  .goOn (h.next List.prefix_rfl h.frames hgoes (h.memory.push hv)
    (h.classVar_keeps List.prefix_rfl (VM.Keeps.push vm v) (Nat.le_succ _)) (bottomKind_cons hne))

/-- The slots that an instruction takes off the stack. -/
theorem pops (h : Running S vm frame rest f sig cs a below) {n : ℕ} {ks : List Kind}
    (hb : a.replace n ks = some b) : ∃ top r, a.slots = top ++ r ∧ top.length = n ∧
      (∀ s ∈ top, s.plain = true) ∧ r ≠ [] ∧ b = ⟨ks.map (fun k => ⟨k, false⟩) ++ r, none⟩ ∧
      MemoryOk none S (vm.pop n) (r ++ below) ∧ bottomKind r = bottomKind a.slots := by
  simp only [Shape.replace, Option.map_eq_some_iff] at hb
  obtain ⟨r, hr, rfl⟩ := hb
  obtain ⟨top, hs, hlength, htop, hne⟩ := popSlots_split hr
  refine ⟨top, r, hs, hlength, htop, hne, rfl, h.memory.pop n below hr, ?_⟩
  rw [hs, bottomKind_append hne]

/-- An instruction that takes values off the stack. -/
theorem drops (h : Running S vm frame rest f sig cs a below) {n : ℕ}
    (hb : a.replace n [] = some b) (hgoes : cs.Goes frame.ip b) :
    Executes S vm.upvalues (vm.pop n).goOn := by
  obtain ⟨top, r, -, -, -, -, rfl, hm, hbottom⟩ := h.pops hb
  exact .goOn (h.next List.prefix_rfl h.frames hgoes hm trivial hbottom)

/-- An instruction that replaces values by another one. -/
theorem replaces (h : Running S vm frame rest f sig cs a below) {n : ℕ}
    (hb : a.replace n [.any] = some b) (hgoes : cs.Goes frame.ip b) (hv : HasKind S v .any) :
    Executes S vm.upvalues ((vm.pop n).push v).goOn := by
  obtain ⟨top, r, -, -, -, hne, rfl, hm, hbottom⟩ := h.pops hb
  refine .goOn (h.next List.prefix_rfl h.frames hgoes (hm.push hv) trivial ?_)
  exact (bottomKind_cons hne).trans hbottom

/-- The value at a distance below the top that an instruction takes off the stack. -/
theorem peek_plain (h : Running S vm frame rest f sig cs a below) {n d : ℕ} {ks : List Kind}
    (hb : a.replace n ks = some b) (hd : d < n) : HasKind S (vm.peek d) .any := by
  obtain ⟨top, r, hs, hlength, htop, -⟩ := h.pops hb
  have hlt : d < top.length := by omega
  have hslot : (a.slots ++ below)[d]? = some (top.get ⟨d, hlt⟩) := by
    rw [hs, List.append_assoc, List.getElem?_append_left hlt]
    simp
  refine (h.memory.peek hslot).sub (.inr ⟨?_, rfl⟩)
  exact (Slot.plain_iff.1 (htop _ (List.get_mem _ _))).2

/-- The value on top that an instruction copies. -/
theorem peek_peekable (h : Running S vm frame rest f sig cs a below) (hp : a.peekable = true) :
    HasKind S (vm.peek 0) .any := by
  unfold Shape.peekable at hp
  split at hp
  · rename_i s t ss hs
    refine (h.memory.peek (d := 0) (s := s) (by rw [hs]; rfl)).sub (.inr ⟨?_, rfl⟩)
    simpa using hp
  · cases hp

/-- The kind that a slot is known to have. -/
theorem peek_kind (h : Running S vm frame rest f sig cs a below) {d : ℕ}
    (hk : (a.slots[d]?.map Slot.kind) = some k) : HasKind S (vm.peek d) k := by
  obtain ⟨s, hs, rfl⟩ := Option.map_eq_some_iff.1 hk
  refine h.memory.peek ?_
  rw [List.getElem?_append_left (List.getElem?_eq_some_iff.1 hs).1, hs]

/-- The frames wait for the result of a call. -/
theorem waits (h : Running S vm frame rest f sig cs a below) {r : List Slot} (hne : r ≠ [])
    (hbottom : bottomKind r = bottomKind a.slots)
    (hgoes : cs.Goes frame.ip ⟨⟨.any, false⟩ :: r, none⟩) : Waiting S vm.frames (r ++ below) := by
  rw [h.frames]
  exact ⟨f, sig, cs, r, below, h.frame_ok, rfl, hne, h.base, hgoes, hbottom.trans h.bottom, h.waiting⟩

/-- An instruction that calls. -/
theorem callSite (h : Running S vm frame rest f sig cs a below) {argCount : ℕ}
    (hb : a.replace (argCount + 1) [.any] = some b) (hgoes : cs.Goes frame.ip b) :
    ∃ args callee slots, args.length = argCount ∧ CallSite S vm args callee slots ∧
      (a.slots ++ below) = args ++ callee :: slots := by
  obtain ⟨top, r, hs, hlength, htop, hne, rfl, -, hbottom⟩ := h.pops hb
  obtain rfl | ⟨args, callee, rfl⟩ := List.eq_nil_or_concat top
  · cases hlength
  have hslots : a.slots ++ below = args ++ callee :: (r ++ below) := by
    rw [hs]
    simp
  refine ⟨args, callee, r ++ below, by simpa using hlength, ⟨?_, fun s hs => ?_, ?_, ?_, ?_⟩, hslots⟩
  · rw [← hslots]
    exact h.memory
  · exact htop s (by simp [hs])
  · exact htop callee (by simp)
  · exact h.waits hne hbottom hgoes
  · rw [h.frames]
    simp

/-! ### Variables -/

/-- The slot of a local variable. -/
theorem slot (h : Running S vm frame rest f sig cs a below) {i : ℕ} {s : Slot}
    (hs : slotAt i a.slots = some s) : slotAt (frame.slots + i) (a.slots ++ below) = some s := by
  rw [h.base, slotAt_append_left (Nat.le_add_right _ _), Nat.add_sub_cancel_left]
  exact hs

theorem getLocal (h : Running S vm frame rest f sig cs a below) (hne : a.slots ≠ []) {slot : UInt8}
    {I : Info N} (hb : transfer I (.getLocal slot) a = some b) (hgoes : cs.Goes frame.ip b) :
    Executes S vm.upvalues (vm.push (vm.stack (frame.slots + slot.toNat))).goOn := by
  simp only [transfer, Option.bind_eq_bind, Option.bind_eq_some_iff] at hb
  obtain ⟨s, hs, hb⟩ := hb
  obtain rfl := Option.some.inj hb
  refine h.pushes hne hgoes ?_
  split
  · rename_i hclass
    have hvar := h.classVar
    rw [hclass] at hvar
    exact hvar.2
  · exact (h.memory.stack.slotAt (h.slot hs)).1

theorem setLocal (h : Running S vm frame rest f sig cs a below) {slot : UInt8}
    {I : Info N} (hb : transfer I (.setLocal slot) a = some b) (hgoes : cs.Goes frame.ip b) :
    Executes S vm.upvalues ({ vm with
      stack := Function.update vm.stack (frame.slots + slot.toNat) (vm.peek 0) } : VM N _).goOn := by
  simp only [transfer, Option.bind_eq_bind, Option.bind_eq_some_iff, Option.ite_none_right_eq_some,
    Bool.and_eq_true, Option.some.injEq, decide_eq_true_eq] at hb
  obtain ⟨s, hs, ⟨hany, hpeek⟩, rfl⟩ := hb
  have hm := h.memory.write (h.slot hs) (hany ▸ h.peek_peekable hpeek)
  exact .goOn (h.next List.prefix_rfl h.frames hgoes hm trivial rfl)

theorem getGlobal (h : Running S vm frame rest f sig cs a below) (hne : a.slots ≠ []) {name : Name}
    (hgoes : cs.Goes frame.ip (a.push (if a.cls = some (.global name) then .klass else .any))) :
    Executes S vm.upvalues (vm.getGlobal name) := by
  unfold VM.getGlobal
  cases hv : vm.globals name with
  | none => exact Executes.fail h.memory _
  | some v =>
    refine h.pushes hne hgoes ?_
    split
    · rename_i hclass
      have hvar := h.classVar
      rw [hclass] at hvar
      obtain ⟨w, hw, hkind⟩ := hvar
      rw [hv] at hw
      cases hw
      exact hkind
    · exact h.memory.globals name v hv

theorem setGlobal (h : Running S vm frame rest f sig cs a below) {name : Name}
    (hpeek : a.peekable = true) (hgoes : cs.Goes frame.ip a.forget) :
    Executes S vm.upvalues (vm.setGlobal name) := by
  unfold VM.setGlobal
  cases hv : vm.globals name with
  | none => exact Executes.fail h.memory _
  | some v =>
    have hm := h.memory.defineGlobal name (h.peek_peekable hpeek)
    exact .goOn (h.next List.prefix_rfl h.frames hgoes hm trivial rfl)

theorem defineGlobal (h : Running S vm frame rest f sig cs a below) {name : Name}
    (hb : a.replace 1 [] = some b)
    (hgoes : cs.Goes frame.ip { b with cls :=
      if (a.slots.head?.map Slot.kind) = some .klass then some (.global name) else none }) :
    Executes S vm.upvalues
      ({ vm with globals := vm.globals.set name (vm.peek 0) }.pop 1 : VM N (List Addr)).goOn := by
  obtain ⟨top, r, -, -, -, hne, hr, hm, hbottom⟩ := h.pops hb
  have hvalue := h.peek_plain hb (d := 0) (by omega)
  subst hr
  refine .goOn (h.next List.prefix_rfl h.frames hgoes
    ((hm.defineGlobal name hvalue).of_eq rfl rfl rfl rfl rfl) ?_ hbottom)
  simp only
  split
  · rename_i hk
    rw [List.head?_eq_getElem?] at hk
    exact ⟨vm.peek 0, if_pos rfl, h.peek_kind hk⟩
  · trivial

section Upvalues

variable {us : List (Option Addr)} {slot : UInt8}

theorem readUpvalue (h : Running S vm frame rest f sig cs a below) (hne : a.slots ≠ [])
    (hus : UpvaluesOk S us sig.upvalues) (hk : sig.upvalues[slot.toNat]? = some k)
    (hgoes : cs.Goes frame.ip (a.push k)) :
    Executes S vm.upvalues (vm.readUpvalue openUpvalues slot us) := by
  obtain ⟨o, ho, u, rfl, hu⟩ := getElem?_forall₂ hus hk
  obtain ⟨v, hv, hkind⟩ := h.memory.getUpvalue hu
  simp only [VM.readUpvalue, ho, Option.join_some, Option.bind_eq_bind, Option.bind_some, openUpvalues,
    hv]
  exact h.pushes hne hgoes hkind

theorem writeUpvalue (h : Running S vm frame rest f sig cs a below) (hpeek : a.peekable = true)
    (hus : UpvaluesOk S us sig.upvalues) (hk : sig.upvalues[slot.toNat]? = some .any)
    (hgoes : cs.Goes frame.ip a.forget) :
    Executes S vm.upvalues (vm.writeUpvalue openUpvalues slot us) := by
  obtain ⟨o, ho, u, rfl, hu⟩ := getElem?_forall₂ hus hk
  obtain ⟨vm', hset, hm⟩ := h.memory.setUpvalue hu (h.peek_peekable hpeek)
  have hframes : vm'.frames = vm.frames := (setUpvalue_same hset).frames
  simp only [VM.writeUpvalue, ho, Option.join_some, Option.bind_eq_bind, Option.bind_some, openUpvalues,
    hset]
  exact .goOn (h.next List.prefix_rfl (hframes.trans h.frames) hgoes hm trivial rfl)

end Upvalues

/-! ### Operators and properties -/

theorem binaryOp (h : Running S vm frame rest f sig cs a below) (hb : a.replace 2 [.any] = some b)
    (hgoes : cs.Goes frame.ip b) {op : N → N → Value N} (hop : ∀ m n, HasKind S (op m n) .any) :
    Executes S vm.upvalues (vm.binaryOp op) := by
  unfold VM.binaryOp
  split
  · exact h.replaces hb hgoes (hop _ _)
  · exact Executes.fail h.memory _

theorem add [Double N] (h : Running S vm frame rest f sig cs a below)
    (hb : a.replace 2 [.any] = some b) (hgoes : cs.Goes frame.ip b) :
    Executes S vm.upvalues vm.add := by
  unfold VM.add
  split
  · exact h.replaces hb hgoes trivial
  · exact h.replaces hb hgoes trivial
  · exact Executes.fail h.memory _

theorem negate [Double N] (h : Running S vm frame rest f sig cs a below)
    (hb : a.replace 1 [.any] = some b) (hgoes : cs.Goes frame.ip b) :
    Executes S vm.upvalues vm.negate := by
  unfold VM.negate
  split
  · exact h.replaces hb hgoes trivial
  · exact Executes.fail h.memory _

/-- Every value that a variable may hold can be printed. -/
theorem printValue (h : Running S vm frame rest f sig cs a below) (hv : HasKind S v .any) :
    ∃ p, vm.printValue v = some p := by
  cases v with
  | nil | bool b | number n | string s => exact ⟨_, rfl⟩
  | obj o =>
    obtain ⟨T, hT, hfirst⟩ := hv
    obtain ⟨object, ho, hok⟩ := h.memory.heap.get hT
    simp only [VM.printValue, ho]
    cases object with
    | boundMethod receiver method =>
      cases T with
      | bound =>
        obtain ⟨m, g, t, hm, hg, -⟩ := HasKind.meth_iff.1 hok.2
        cases hm
        obtain ⟨us, hclosure, -⟩ := h.memory.heap.closure hg
        exact ⟨.function g.name, by simp [VM.asClosure_eq_some.2 hclosure]⟩
      | _ => exact hok.elim
    | inst klass fields =>
      cases T with
      | inst =>
        obtain ⟨name, methods, hclass, -⟩ := h.memory.heap.klass hok.1
        exact ⟨.inst name, by simp [VM.asClass_eq_some.2 ⟨rfl, hclass⟩]⟩
      | _ => exact hok.elim
    | closure | klass | native | upvalue => exact ⟨_, rfl⟩

/-- The instance that a value is, and its class. -/
theorem asInstance (h : Running S vm frame rest f sig cs a below) {o klass : Addr} {fields : Table N}
    (hinst : vm.asInstance v = some (o, klass, fields)) :
    v = .obj o ∧ vm.objects[o]? = some (.inst klass fields) ∧ S[o]? = some .inst ∧
      S[klass]? = some .klass ∧ TableOk S .any fields := by
  obtain ⟨hv, ho⟩ := VM.asInstance_eq_some.1 hinst
  obtain ⟨T, hT, hok⟩ := h.memory.heap.type_of ho
  cases T with
  | inst => exact ⟨hv, ho, hT, hok.1, hok.2⟩
  | _ => exact hok.elim

/-- The class that a value is. -/
theorem asClass (h : Running S vm frame rest f sig cs a below) (hv : HasKind S v .klass) :
    ∃ o name methods, v = .obj o ∧ vm.asClass v = some (o, name, methods) ∧ S[o]? = some .klass ∧
      vm.objects[o]? = some (.klass name methods) ∧ TableOk S .meth methods := by
  obtain ⟨o, rfl, hT⟩ := HasKind.klass_iff.1 hv
  obtain ⟨name, methods, hclass, hmethods⟩ := h.memory.heap.klass hT
  exact ⟨o, name, methods, rfl, VM.asClass_eq_some.2 ⟨rfl, hclass⟩, hT, hclass, hmethods⟩

theorem getProperty (h : Running S vm frame rest f sig cs a below) {name : Name}
    (hb : a.replace 1 [.any] = some b) (hgoes : cs.Goes frame.ip b) :
    Executes S vm.upvalues (vm.getProperty name) := by
  unfold VM.getProperty
  cases hinst : vm.asInstance (vm.peek 0) with
  | none => exact Executes.fail h.memory _
  | some r =>
    obtain ⟨o, klass, fields⟩ := r
    obtain ⟨hpeek, -, hT, hklass, hfields⟩ := h.asInstance hinst
    simp only
    cases hfield : fields name with
    | some value => exact h.replaces hb hgoes (hfields _ _ hfield)
    | none =>
      obtain ⟨className, methods, hclass, hmethods⟩ := h.memory.heap.klass hklass
      obtain ⟨args, callee, slots, hargs, hsite, -⟩ := h.callSite hb hgoes
      obtain rfl := List.length_eq_zero_iff.1 hargs
      have hsite := hsite.retype (HasKind.inst_iff.2 ⟨o, hpeek, hT⟩) (by simp)
      simp only [VM.asClass, hclass, Option.bind_eq_bind, Option.bind_some]
      exact .check (hsite.bindMethod hmethods name)

theorem setProperty (h : Running S vm frame rest f sig cs a below) {name : Name}
    (hb : a.replace 2 [.any] = some b) (hgoes : cs.Goes frame.ip b) :
    Executes S vm.upvalues (vm.setProperty name) := by
  unfold VM.setProperty
  cases hinst : vm.asInstance (vm.peek 1) with
  | none => exact Executes.fail h.memory _
  | some r =>
    obtain ⟨o, klass, fields⟩ := r
    obtain ⟨-, ho, hT, hklass, hfields⟩ := h.asInstance hinst
    have hvalue := h.peek_plain hb (d := 0) (by omega)
    obtain ⟨top, r, -, -, -, hne, rfl, hm, hbottom⟩ := h.pops hb
    have hobj : ObjOk S (none ≠ some o) (.inst klass (fields.set name (vm.peek 0))) .inst :=
      ⟨hklass, hfields.set name hvalue⟩
    have hm' := hm.update ho hT hobj (fun _ _ h => h) (by simp) (by simp)
    refine .goOn (h.next List.prefix_rfl h.frames hgoes ?_ trivial
      ((bottomKind_cons hne).trans hbottom))
    exact (hm'.push hvalue).of_eq rfl rfl rfl rfl rfl

/-! ### Calls -/

theorem call (h : Running S vm frame rest f sig cs a below) {argCount : ℕ}
    (hb : a.replace (argCount + 1) [.any] = some b) (hgoes : cs.Goes frame.ip b) :
    Executes S vm.upvalues (VM.check (vm.callValue (vm.peek argCount) argCount)) := by
  obtain ⟨args, callee, slots, rfl, hsite, -⟩ := h.callSite hb hgoes
  have hv := h.peek_plain hb (d := args.length) (by omega)
  exact .check ((hsite.retype hv (by simp)).callValue hv rfl)

theorem invoke (h : Running S vm frame rest f sig cs a below) {name : Name} {argCount : ℕ}
    (hb : a.replace (argCount + 1) [.any] = some b) (hgoes : cs.Goes frame.ip b) :
    Executes S vm.upvalues (VM.check (vm.invoke name argCount)) := by
  obtain ⟨args, callee, slots, rfl, hsite, -⟩ := h.callSite hb hgoes
  exact .check (hsite.invoke name)

/-- The superclass is on top, and the instance below the arguments. -/
theorem superSite (h : Running S vm frame rest f sig cs a below) {argCount : ℕ}
    (hinst : (a.slots[argCount + 1]?.map Slot.kind) = some .inst)
    (hb : a.replace (argCount + 2) [.any] = some b) (hgoes : cs.Goes frame.ip b) :
    ∃ args slots, args.length = argCount ∧ CallSite S (vm.pop 1) args ⟨.inst, false⟩ slots := by
  obtain ⟨args, callee, slots, hargs, hsite, hslots⟩ := h.callSite hb hgoes
  cases args with
  | nil => cases hargs
  | cons s args =>
    have hkind : callee.kind = .inst := by
      obtain ⟨t, ht, hkind⟩ := Option.map_eq_some_iff.1 hinst
      have hcallee : (a.slots ++ below)[argCount + 1]? = some callee := by
        rw [hslots, ← hargs, List.getElem?_append_right (le_refl _)]
        simp
      rw [List.getElem?_append_left (List.getElem?_eq_some_iff.1 ht).1, ht] at hcallee
      cases hcallee
      exact hkind
    have hcallee : callee = ⟨.inst, false⟩ := by
      obtain ⟨hcaptured, -⟩ := Slot.plain_iff.1 hsite.callee_plain
      cases callee
      simp_all
    subst hcallee
    refine ⟨args, slots, by simpa using hargs, ?_, fun t ht => ?_, hsite.callee_plain,
      hsite.waiting, hsite.frames⟩
    · exact hsite.memory.pop_one (Slot.plain_iff.1 (hsite.args_plain s (by simp))).1
    · exact hsite.args_plain t (by simp [ht])

theorem superInvoke (h : Running S vm frame rest f sig cs a below) {name : Name} {argCount : ℕ}
    (hclass : (a.slots[0]?.map Slot.kind) = some .klass)
    (hinst : (a.slots[argCount + 1]?.map Slot.kind) = some .inst)
    (hb : a.replace (argCount + 2) [.any] = some b) (hgoes : cs.Goes frame.ip b) :
    Executes S vm.upvalues (vm.superInvoke name argCount) := by
  obtain ⟨o, className, methods, -, hasClass, -, -, hmethods⟩ := h.asClass (h.peek_kind hclass)
  obtain ⟨args, slots, rfl, hsite⟩ := h.superSite hinst hb hgoes
  simp only [VM.superInvoke, hasClass, Option.bind_eq_bind, Option.bind_some]
  exact .check (hsite.invokeFromClass hmethods name)

theorem getSuper (h : Running S vm frame rest f sig cs a below) {name : Name}
    (hclass : (a.slots[0]?.map Slot.kind) = some .klass)
    (hinst : (a.slots[1]?.map Slot.kind) = some .inst)
    (hb : a.replace 2 [.any] = some b) (hgoes : cs.Goes frame.ip b) :
    Executes S vm.upvalues (vm.getSuper name) := by
  obtain ⟨o, className, methods, -, hasClass, -, -, hmethods⟩ := h.asClass (h.peek_kind hclass)
  obtain ⟨args, slots, hargs, hsite⟩ := h.superSite hinst hb hgoes
  obtain rfl := List.length_eq_zero_iff.1 hargs
  simp only [VM.getSuper, hasClass, Option.bind_eq_bind, Option.bind_some]
  exact .check (hsite.bindMethod hmethods name)

/-! ### Classes and closures -/

theorem class_ (h : Running S vm frame rest f sig cs a below) (hne : a.slots ≠ []) {name : Name}
    (hgoes : cs.Goes frame.ip { a.push .klass with cls := some (.local_ a.slots.length) }) :
    Executes S vm.upvalues
      ((vm.allocate (.klass name Table.empty)).2.push (.obj vm.objects.length)).goOn := by
  have hobj : ObjOk (S ++ [.klass]) (none ≠ some vm.objects.length) (.klass name Table.empty)
      .klass := TableOk.empty _ _
  have hnew : HasKind (S ++ [.klass]) (.obj vm.objects.length) .klass := by
    refine HasKind.klass_iff.2 ⟨_, rfl, ?_⟩
    rw [← h.memory.heap.length]
    exact List.getElem?_concat_length
  have hm := (h.memory.allocate hobj (fun _ _ h => h) (by simp)).push hnew
  refine .goOn (h.next (HeapOk.prefix_append S .klass) h.frames hgoes hm ⟨Nat.lt_succ_self _, ?_⟩
    (bottomKind_cons hne))
  have htop := h.memory.top
  rw [List.length_append, ← h.base, Nat.add_comm] at htop
  change HasKind _ (Function.update vm.stack vm.stackTop _ _) _
  rw [← htop, Function.update_self]
  exact hnew

/-- `OP_METHOD`: the closure on top becomes a method of the class below it. -/
theorem method (h : Running S vm frame rest f sig cs a below) {name : Name} {m c s : Slot}
    {ss : List Slot} (hs : a.slots = m :: c :: s :: ss) (hm : m.kind = .meth)
    (hcaptured : m.captured = false) (hc : c.kind = .klass)
    (hgoes : cs.Goes frame.ip ⟨c :: s :: ss, a.cls⟩) :
    Executes S vm.upvalues (vm.defineMethod name) := by
  have hclass : HasKind S (vm.peek 1) .klass := h.peek_kind (by simp [hs, hc])
  have hmethod : HasKind S (vm.peek 0) .meth := h.peek_kind (by simp [hs, hm])
  obtain ⟨o, className, methods, -, hasClass, hT, ho, hmethods⟩ := h.asClass hclass
  simp only [VM.defineMethod, hasClass, Option.bind_eq_bind, Option.bind_some]
  have hmemory := h.memory
  rw [hs] at hmemory
  have hobj : ObjOk S (none ≠ some o) (.klass className (methods.set name (vm.peek 0))) .klass :=
    hmethods.set name hmethod
  have hpopped := (hmemory.update ho hT hobj (fun _ _ h => h) (by simp) (by simp)).pop_one hcaptured
  refine .goOn (h.next List.prefix_rfl h.frames hgoes hpopped ?_ (by simp [hs]))
  have hvar := h.classVar
  unfold ClassVarOk at hvar ⊢
  split
  · trivial
  · -- The variable is not the slot of the method, which does not hold a class.
    rename_i i hi
    simp only at hi
    rw [hi, hs] at hvar
    refine ⟨?_, hvar.2⟩
    have hlt := hvar.1
    simp only [List.length_cons] at hlt ⊢
    have htop := h.memory.top
    rw [List.length_append, ← h.base, hs] at htop
    simp only [List.length_cons] at htop
    by_contra hge
    have hpeek : vm.peek 0 = vm.stack (frame.slots + i) := by
      unfold VM.peek
      congr 1
      omega
    rw [hpeek] at hmethod
    obtain ⟨o', g, t, hv, hg, -⟩ := HasKind.meth_iff.1 hmethod
    obtain ⟨o'', hv', hk⟩ := HasKind.klass_iff.1 hvar.2
    rw [hv] at hv'
    cases hv'
    rw [hg] at hk
    cases hk
  · rename_i global hname
    simp only at hname
    rw [hname] at hvar
    exact hvar

/-- `OP_INHERIT`. -/
theorem inherit_ (h : Running S vm frame rest f sig cs a below) {sub sup s : Slot}
    {ss : List Slot} (hs : a.slots = sub :: sup :: s :: ss) (hsub : sub.kind = .klass)
    (hcaptured : sub.captured = false) (hsup : sup.plain = true)
    (hother : a.cls ≠ some (.local_ (ss.length + 2)))
    (hgoes : cs.Goes frame.ip ⟨⟨.klass, false⟩ :: s :: ss, a.cls⟩) :
    Executes S vm.upvalues vm.inherit_ := by
  unfold VM.inherit_
  cases hsuper : vm.asClass (vm.peek 1) with
  | none => exact Executes.fail h.memory _
  | some r =>
    obtain ⟨o, superName, inherited⟩ := r
    obtain ⟨hpeek, ho⟩ := VM.asClass_eq_some.1 hsuper
    obtain ⟨hT, hinherited⟩ : S[o]? = some .klass ∧ TableOk S .meth inherited := by
      obtain ⟨T, hT, hok⟩ := h.memory.heap.type_of ho
      cases T with
      | klass => exact ⟨hT, hok⟩
      | _ => exact hok.elim
    obtain ⟨p, className, methods, -, hasClass, hTp, hp, hmethods⟩ :=
      h.asClass (v := vm.peek 0) (h.peek_kind (by simp [hs, hsub]))
    simp only [hasClass, Option.bind_eq_bind, Option.bind_some]
    have hmemory := h.memory
    rw [hs] at hmemory
    have hobj : ObjOk S (none ≠ some p) (.klass className (inherited.addAll methods)) .klass :=
      hinherited.addAll hmethods
    have hpopped := (hmemory.update hp hTp hobj (fun _ _ h => h) (by simp) (by simp)).pop_one hcaptured
    have hsuperclass : HasKind S (((vm.update p
        (.klass className (inherited.addAll methods))).pop 1).peek 0) .klass := by
      have heq : ((vm.update p (.klass className (inherited.addAll methods))).pop 1).peek 0
          = vm.peek 1 := by
        simp only [VM.peek, VM.pop, VM.truncate, VM.update]
        congr 1
      rw [heq, hpeek]
      exact HasKind.klass_iff.2 ⟨o, rfl, hT⟩
    have hm := MemoryOk.retype (show MemoryOk none S _ ([] ++ sup :: _) from hpopped)
      (Slot.plain_iff.1 hsup).1 hsuperclass
    refine .goOn (h.next List.prefix_rfl h.frames hgoes hm ?_ (by simp [hs]))
    have hvar := h.classVar
    unfold ClassVarOk at hvar ⊢
    split
    · trivial
    · rename_i i hi
      simp only at hi
      rw [hi, hs] at hvar
      refine ⟨?_, hvar.2⟩
      have hlt := hvar.1
      have hne : i ≠ ss.length + 2 := by
        rintro rfl
        exact hother hi
      simp only [List.length_cons] at hlt ⊢
      omega
    · rename_i global hname
      simp only at hname
      rw [hname] at hvar
      exact hvar

theorem closure (h : Running S vm frame rest f sig cs a below) (hne : a.slots ≠ [])
    {us : List (Option Addr)} (hus : UpvaluesOk S us sig.upvalues) {g : ObjFunction N}
    {t : Signature} (hg : WellTyped g t) {captures : List Upvalue}
    (hsub : (a.push (if t.method then .meth else .any)).Sub b)
    (hcaptures : List.Forall₂ (CaptureOk ⟨f.constants, sig.upvalues⟩ b) captures t.upvalues)
    (hgoes : cs.Goes frame.ip b) :
    Executes S vm.upvalues (vm.makeClosure openUpvalues frame.slots us g captures) := by
  obtain ⟨S', vm', hrun, hS, hm, hkeeps⟩ := h.memory.makeClosure hg hsub hcaptures hus
  rw [h.base, hrun]
  have hlength := hsub.1.length_eq
  refine .goOn (h.next hS (hkeeps.frames.trans h.frames) hgoes hm ?_ ?_)
  · rcases hsub.2.1 with hnone | hsame
    · rw [hnone]
      trivial
    · rw [hsame]
      refine h.classVar_keeps hS hkeeps ?_
      rw [← hlength]
      exact Nat.le_succ _
  · rw [hsub.2.2]
    exact bottomKind_cons hne

theorem closeUpvalue (h : Running S vm frame rest f sig cs a below) {s t : Slot} {ss : List Slot}
    (hs : a.slots = s :: t :: ss) (hgoes : cs.Goes frame.ip ⟨t :: ss, none⟩) :
    Executes S vm.upvalues ((openUpvalues.closeUpvalues (vm.stackTop - 1) vm).bind
      fun vm => (vm.pop 1).goOn) := by
  have hmemory : MemoryOk none S vm ([s] ++ (t :: ss ++ below)) := by
    have hmemory := h.memory
    rw [hs] at hmemory
    exact hmemory
  obtain ⟨vm', hclose, -, -, hframes, hm⟩ := hmemory.closeUpvalues
  have htop : vm.stackTop - 1 = (t :: ss ++ below).length := by
    rw [h.memory.top, hs]
    simp
  simp only [openUpvalues, htop]
  rw [hclose, Option.bind_some]
  exact .goOn (h.next List.prefix_rfl (hframes.trans h.frames) hgoes (hm.pop_one rfl) trivial
    (by simp [hs]))

theorem closeUpvalues_pop (n last : ℕ) (vm : VM N (List Addr)) :
    Lox.Clox.closeUpvalues last (vm.pop n) = (Lox.Clox.closeUpvalues last vm).map (VM.pop n) := by
  simp only [Lox.Clox.closeUpvalues, VM.pop, VM.truncate, Option.bind_eq_bind]
  cases closeLoop vm.stack last vm.upvalues vm.objects <;> rfl

/-- `OP_RETURN`. -/
theorem return_ (h : Running S vm frame rest f sig cs a below) (hpeek : a.peekable = true) :
    Executes S vm.upvalues (vm.return_ openUpvalues frame rest) := by
  have hresult := h.peek_peekable hpeek
  obtain ⟨vm', hclose, -, htop, -, hm⟩ := h.memory.closeUpvalues
  have hfree : ∀ s ∈ a.slots.map Slot.release, s.captured = false := by
    intro s hs
    obtain ⟨t, -, rfl⟩ := List.mem_map.1 hs
    rfl
  simp only [VM.return_, openUpvalues, h.base]
  rw [closeUpvalues_pop, hclose]
  simp only [Option.map_some, Option.bind_eq_bind, Option.bind_some]
  have hwaiting := h.waiting
  cases rest with
  | nil =>
    obtain rfl : below = [] := hwaiting
    obtain ⟨s, t, ss, hs⟩ : ∃ s t ss, a.slots = s :: t :: ss := by
      unfold Shape.peekable at hpeek
      split at hpeek
      · rename_i s t ss hs
        exact ⟨s, t, ss, hs⟩
      · cases hpeek
    rw [hs, List.append_nil] at hm
    refine ⟨_, rfl, rfl, S, ss.map Slot.release, List.prefix_rfl, ?_, fun u hu => hfree u ?_⟩
    · exact ((hm.pop_one rfl).pop_one rfl).of_eq rfl rfl rfl rfl rfl
    · rw [hs]
      simp only [List.map_cons, List.mem_cons, hu, or_true]
  | cons caller rest =>
    simp only [List.isEmpty_cons]
    have hdone : MemoryOk none S
        (({ vm'.pop 1 with frames := caller :: rest }.truncate below.length).push (vm.peek 0))
        (⟨.any, false⟩ :: below) := ((hm.truncate hfree).push hresult).of_eq rfl rfl rfl rfl rfl
    exact .goOn (hdone.resume hwaiting (by simp [VM.push, VM.truncate]))

/-- A jump. -/
theorem jumps (h : Running S vm frame rest f sig cs a below) {ip : ℕ} (hgoes : cs.Goes ip a) :
    Executes S vm.upvalues (vm.jumpTo ip).goOn := by
  refine .goOn (h.next List.prefix_rfl ?_ hgoes (h.memory.of_eq rfl rfl rfl rfl rfl) h.classVar rfl)
  simp [VM.jumpTo, h.frames]

/-! ### All instructions -/

/-- Every instruction of certified code is executed. -/
theorem execute [Double N] {n : Note} (h : Running S vm frame rest f sig cs n.shape below)
    (hne : n.shape.slots ≠ []) {us : List (Option Addr)} (hus : UpvaluesOk S us sig.upvalues)
    {i : Instr} {o : ℕ} (hip : frame.ip = o + i.size)
    (hsound : Sound WellTyped ⟨f.constants, sig.upvalues⟩ cs o n i) :
    Executes S vm.upvalues (Lox.Clox.execute openUpvalues frame rest f us vm i) := by
  cases i with
  | jump d =>
    refine h.jumps ?_
    rw [hip]
    exact hsound
  | jumpIfFalse d =>
    obtain ⟨-, hnext, htarget⟩ := hsound
    simp only [Lox.Clox.execute]
    split
    · refine h.jumps ?_
      rw [hip]
      exact htarget
    · refine .goOn (h.next List.prefix_rfl h.frames ?_ h.memory h.classVar rfl)
      rw [hip]
      exact hnext
  | loop d =>
    obtain ⟨hle, htarget⟩ := hsound
    have hip' : frame.ip = o + 3 := hip
    simp only [Lox.Clox.execute]
    rw [if_neg (by omega)]
    refine h.jumps ?_
    rw [hip']
    exact htarget
  | return_ => exact h.return_ hsound
  | closure k captures =>
    obtain ⟨⟨g, hg, -, hwell⟩, n', i', hat, hsub, hcaptures⟩ := hsound
    simp only [Lox.Clox.execute, hg, Option.bind_eq_bind, Option.bind_some]
    refine h.closure hne hus hwell hsub hcaptures ⟨n', i', ?_, Shape.Sub.refl _⟩
    rw [hip]
    exact hat
  | constant k =>
    obtain ⟨b, hb, hgoes⟩ := hsound
    rw [← hip] at hgoes
    simp only [transfer, Option.ite_none_right_eq_some, Option.some.injEq] at hb
    obtain ⟨hliteral, rfl⟩ := hb
    unfold literalAt at hliteral
    cases hk : f.constants[k.toNat]? with
    | none =>
      rw [hk] at hliteral
      cases hliteral
    | some c =>
      rw [hk] at hliteral
      cases c with
      | number v =>
        simp only [Lox.Clox.execute, VM.constant, hk]
        exact h.pushes hne hgoes trivial
      | string v =>
        simp only [Lox.Clox.execute, VM.constant, hk]
        exact h.pushes hne hgoes trivial
      | function g => cases hliteral
  | nil | true_ | false_ =>
    obtain ⟨b, hb, hgoes⟩ := hsound
    rw [← hip] at hgoes
    obtain rfl := Option.some.inj hb
    exact h.pushes hne hgoes trivial
  | pop =>
    obtain ⟨b, hb, hgoes⟩ := hsound
    rw [← hip] at hgoes
    exact h.drops hb hgoes
  | print =>
    obtain ⟨b, hb, hgoes⟩ := hsound
    rw [← hip] at hgoes
    obtain ⟨p, hp⟩ := h.printValue (h.peek_plain hb (d := 0) (by omega))
    obtain ⟨top, r, -, -, -, -, rfl, hm, hbottom⟩ := h.pops hb
    simp only [Lox.Clox.execute, hp, Option.bind_eq_bind, Option.bind_some]
    exact .goOn (h.next List.prefix_rfl h.frames hgoes (hm.of_eq rfl rfl rfl rfl rfl) trivial hbottom)
  | getLocal slot =>
    obtain ⟨b, hb, hgoes⟩ := hsound
    rw [← hip] at hgoes
    exact h.getLocal hne hb hgoes
  | setLocal slot =>
    obtain ⟨b, hb, hgoes⟩ := hsound
    rw [← hip] at hgoes
    exact h.setLocal hb hgoes
  | getGlobal k =>
    obtain ⟨b, hb, hgoes⟩ := hsound
    rw [← hip] at hgoes
    simp only [transfer, Option.bind_eq_bind, Option.bind_eq_some_iff] at hb
    obtain ⟨name, hname, hb⟩ := hb
    obtain rfl := Option.some.inj hb
    simp only [Lox.Clox.execute, hname, Option.bind_eq_bind, Option.bind_some]
    exact h.getGlobal hne hgoes
  | setGlobal k =>
    obtain ⟨b, hb, hgoes⟩ := hsound
    rw [← hip] at hgoes
    simp only [transfer, Option.bind_eq_bind, Option.bind_eq_some_iff, Option.ite_none_right_eq_some,
      Option.some.injEq] at hb
    obtain ⟨name, hname, hpeek, rfl⟩ := hb
    simp only [Lox.Clox.execute, hname, Option.bind_eq_bind, Option.bind_some]
    exact h.setGlobal hpeek hgoes
  | defineGlobal k =>
    obtain ⟨b, hb, hgoes⟩ := hsound
    rw [← hip] at hgoes
    simp only [transfer, Option.bind_eq_bind, Option.bind_eq_some_iff] at hb
    obtain ⟨name, hname, c, hc, hb⟩ := hb
    obtain rfl := Option.some.inj hb
    simp only [Lox.Clox.execute, hname, Option.bind_eq_bind, Option.bind_some]
    exact h.defineGlobal hc hgoes
  | getUpvalue slot =>
    obtain ⟨b, hb, hgoes⟩ := hsound
    rw [← hip] at hgoes
    simp only [transfer, Option.bind_eq_bind, Option.bind_eq_some_iff] at hb
    obtain ⟨k, hk, hb⟩ := hb
    obtain rfl := Option.some.inj hb
    exact h.readUpvalue hne hus hk hgoes
  | setUpvalue slot =>
    obtain ⟨b, hb, hgoes⟩ := hsound
    rw [← hip] at hgoes
    simp only [transfer, Option.bind_eq_bind, Option.bind_eq_some_iff, Option.ite_none_right_eq_some,
      Bool.and_eq_true, Option.some.injEq, decide_eq_true_eq] at hb
    obtain ⟨k, hk, ⟨rfl, hpeek⟩, rfl⟩ := hb
    exact h.writeUpvalue hpeek hus hk hgoes
  | equal =>
    obtain ⟨b, hb, hgoes⟩ := hsound
    rw [← hip] at hgoes
    exact h.replaces hb hgoes trivial
  | not =>
    obtain ⟨b, hb, hgoes⟩ := hsound
    rw [← hip] at hgoes
    exact h.replaces hb hgoes trivial
  | greater | less | subtract | multiply | divide =>
    obtain ⟨b, hb, hgoes⟩ := hsound
    rw [← hip] at hgoes
    exact h.binaryOp hb hgoes fun _ _ => trivial
  | add =>
    obtain ⟨b, hb, hgoes⟩ := hsound
    rw [← hip] at hgoes
    exact h.add hb hgoes
  | negate =>
    obtain ⟨b, hb, hgoes⟩ := hsound
    rw [← hip] at hgoes
    exact h.negate hb hgoes
  | getProperty k =>
    obtain ⟨b, hb, hgoes⟩ := hsound
    rw [← hip] at hgoes
    simp only [transfer, Option.bind_eq_bind, Option.bind_eq_some_iff] at hb
    obtain ⟨name, hname, hb⟩ := hb
    simp only [Lox.Clox.execute, hname, Option.bind_eq_bind, Option.bind_some]
    exact h.getProperty hb hgoes
  | setProperty k =>
    obtain ⟨b, hb, hgoes⟩ := hsound
    rw [← hip] at hgoes
    simp only [transfer, Option.bind_eq_bind, Option.bind_eq_some_iff] at hb
    obtain ⟨name, hname, hb⟩ := hb
    simp only [Lox.Clox.execute, hname, Option.bind_eq_bind, Option.bind_some]
    exact h.setProperty hb hgoes
  | call argCount =>
    obtain ⟨b, hb, hgoes⟩ := hsound
    rw [← hip] at hgoes
    exact h.call hb hgoes
  | invoke k argCount =>
    obtain ⟨b, hb, hgoes⟩ := hsound
    rw [← hip] at hgoes
    simp only [transfer, Option.bind_eq_bind, Option.bind_eq_some_iff] at hb
    obtain ⟨name, hname, hb⟩ := hb
    simp only [Lox.Clox.execute, hname, Option.bind_eq_bind, Option.bind_some]
    exact h.invoke hb hgoes
  | superInvoke k argCount =>
    obtain ⟨b, hb, hgoes⟩ := hsound
    rw [← hip] at hgoes
    simp only [transfer, Option.bind_eq_bind, Option.bind_eq_some_iff,
      Option.ite_none_right_eq_some] at hb
    obtain ⟨name, hname, ⟨hclass, hinst⟩, hb⟩ := hb
    simp only [Lox.Clox.execute, hname, Option.bind_eq_bind, Option.bind_some]
    exact h.superInvoke hclass hinst hb hgoes
  | getSuper k =>
    obtain ⟨b, hb, hgoes⟩ := hsound
    rw [← hip] at hgoes
    simp only [transfer, Option.bind_eq_bind, Option.bind_eq_some_iff,
      Option.ite_none_right_eq_some] at hb
    obtain ⟨name, hname, ⟨hclass, hinst⟩, hb⟩ := hb
    simp only [Lox.Clox.execute, hname, Option.bind_eq_bind, Option.bind_some]
    exact h.getSuper hclass hinst hb hgoes
  | class_ k =>
    obtain ⟨b, hb, hgoes⟩ := hsound
    rw [← hip] at hgoes
    simp only [transfer, Option.bind_eq_bind, Option.bind_eq_some_iff] at hb
    obtain ⟨name, hname, hb⟩ := hb
    obtain rfl := Option.some.inj hb
    simp only [Lox.Clox.execute, hname, Option.bind_eq_bind, Option.bind_some]
    exact h.class_ hne hgoes
  | method k =>
    obtain ⟨b, hb, hgoes⟩ := hsound
    rw [← hip] at hgoes
    simp only [transfer, Option.bind_eq_bind, Option.bind_eq_some_iff] at hb
    obtain ⟨name, hname, hb⟩ := hb
    simp only [Lox.Clox.execute, hname, Option.bind_eq_bind, Option.bind_some]
    split at hb
    · rename_i hs
      simp only [Option.ite_none_right_eq_some, Option.some.injEq] at hb
      obtain ⟨⟨hm, hcaptured, hc⟩, rfl⟩ := hb
      exact h.method hs hm hcaptured hc hgoes
    · cases hb
  | inherit =>
    obtain ⟨b, hb, hgoes⟩ := hsound
    rw [← hip] at hgoes
    simp only [transfer] at hb
    split at hb
    · rename_i hs
      simp only [Option.ite_none_right_eq_some, Option.some.injEq] at hb
      obtain ⟨⟨hsub, hcaptured, hsup, hother⟩, rfl⟩ := hb
      exact h.inherit_ hs hsub hcaptured hsup hother hgoes
    · cases hb
  | closeUpvalue =>
    obtain ⟨b, hb, hgoes⟩ := hsound
    rw [← hip] at hgoes
    simp only [transfer] at hb
    split at hb
    · rename_i hs
      obtain rfl := Option.some.inj hb
      exact h.closeUpvalue hs hgoes
    · cases hb

end Running

theorem Outcome.Sound.mono {S S' : List (Ty N)} (h : S <+: S') {upvalues : List Addr}
    {o : Outcome N (List Addr)} (ho : o.Sound S' upvalues) : o.Sound S upvalues := by
  have hfailed : ∀ {vm}, Failed S' upvalues vm → Failed S upvalues vm := by
    rintro vm ⟨S₁, vm₁, slots, message, hS, hrest⟩
    exact ⟨S₁, vm₁, slots, message, h.trans hS, hrest⟩
  cases o with
  | running vm => exact ho.imp (fun ht => ht.mono h) hfailed
  | finished result vm =>
    cases result with
    | ok =>
      obtain ⟨hframes, S₁, slots, hS, hrest⟩ := ho
      exact ⟨hframes, S₁, slots, h.trans hS, hrest⟩
    | runtimeError => exact hfailed ho
    | compileError => exact ho.elim

/-- The next instruction of a machine that is typed. -/
structure Next [Double N] (S : List (Ty N)) (vm : VM N (List Addr)) (frame : CallFrame)
    (rest : List CallFrame) (f : ObjFunction N) (us : List (Option Addr)) (sig : Signature) (cs : Code)
    (n : Note) (i : Instr) (below : List Slot) : Prop where
  running : Running S vm frame rest f sig cs n.shape below
  at_ : cs.At frame.ip n i
  closure : vm.objects[frame.closure]? = some (.closure f us)
  upvalues : UpvaluesOk S us sig.upvalues
  slots : n.shape.slots ≠ []
  sound : Sound WellTyped ⟨f.constants, sig.upvalues⟩ cs frame.ip n i
  step : step vm = execute openUpvalues { frame with ip := frame.ip + i.size } rest f us
    { vm with frames := { frame with ip := frame.ip + i.size } :: rest } i

theorem Typed.next [Double N] {S : List (Ty N)} {vm : VM N (List Addr)} (h : Typed S vm) :
    ∃ S' frame rest f us sig cs n i below, S <+: S' ∧
      Next S' vm frame rest f us sig cs n i below := by
  obtain ⟨S', frame, rest, f, sig, cs, a, below, hS, hrunning, n, i, hat, hsub⟩ := h
  obtain ⟨us, hobject, -, hus⟩ := hrunning.memory.heap.closure hrunning.frame_ok.closure
  obtain ⟨hne, hsound⟩ := hrunning.frame_ok.annotated.sound hat
  have hreads : i.reads ≤ vm.stackTop := by
    have htop := hrunning.memory.top
    rw [List.length_append, hsub.1.length_eq] at htop
    have := hrunning.frame_ok.annotated.reads hat
    omega
  exact ⟨S', frame, rest, f, us, sig, cs, n, i, below, hS, hrunning.sub hsub, hat, hobject,
    hus (by simp), hne, hsound, stepWith_eq openUpvalues hrunning.frames
      (VM.asClosure_eq_some.2 hobject) (hrunning.frame_ok.annotated.fetch hat) hreads⟩

section Next

variable [Double N] {S : List (Ty N)} {vm : VM N (List Addr)} {frame : CallFrame}
  {rest : List CallFrame} {f : ObjFunction N} {us : List (Option Addr)} {sig : Signature} {cs : Code}
  {n : Note} {i : Instr} {below : List Slot}

theorem Next.stackTop (h : Next S vm frame rest f us sig cs n i below) :
    vm.stackTop = frame.slots + n.shape.slots.length := by
  rw [h.running.memory.top, List.length_append, h.running.base, Nat.add_comm]

theorem Next.annotated (h : Next S vm frame rest f us sig cs n i below) : Annotated f sig cs :=
  h.running.frame_ok.annotated

theorem Next.current (h : Next S vm frame rest f us sig cs n i below) :
    vm.current = some (i, f.constants) := by
  unfold VM.current
  simp only [h.running.frames, List.head?_cons, Option.bind_eq_bind, Option.bind_some,
    VM.asClosure_eq_some.2 h.closure, h.annotated.fetch h.at_, Option.pure_def]

/-- The instruction that `current` is. -/
theorem Next.current_eq (h : Next S vm frame rest f us sig cs n i below) {j : Instr}
    {constants : List (Constant N)} (hj : vm.current = some (j, constants)) :
    j = i ∧ constants = f.constants := by
  rw [h.current] at hj
  cases hj
  exact ⟨rfl, rfl⟩

theorem Next.typed (h : Next S vm frame rest f us sig cs n i below) : Typed S vm :=
  ⟨S, frame, rest, f, sig, cs, n.shape, below, List.prefix_rfl, h.running, n, i, h.at_,
    Shape.Sub.refl _⟩

end Next

/-- A machine that is typed executes its next instruction. -/
theorem step_typed [Double N] {S : List (Ty N)} {vm : VM N (List Addr)} (h : Typed S vm) :
    ∃ o, step vm = some o ∧ o.Sound S vm.upvalues := by
  obtain ⟨S', frame, rest, f, us, sig, cs, n, i, below, hS, hnext⟩ := h.next
  have hfetched := hnext.running.fetched (frame.ip + i.size)
  obtain ⟨o, ho, hsound⟩ := hfetched.execute hnext.slots hnext.upvalues rfl hnext.sound
  exact ⟨o, hnext.step.trans ho, hsound.mono hS⟩

/-! ### Runs -/

/-- The script is about to run. -/
theorem start_typed {S : List (Ty N)} {vm : VM N (List Addr)} {f : ObjFunction N}
    (hm : MemoryOk none S vm []) (hframes : vm.frames = []) (harity : f.arity = 0)
    (hwell : WellTyped f scriptSignature) : Typed S (vm.start f) := by
  have hpre := HeapOk.prefix_append S (.closure f scriptSignature)
  have hnew : (S ++ [.closure f scriptSignature])[vm.objects.length]?
      = some (.closure f scriptSignature) := by
    rw [← hm.heap.length]
    exact List.getElem?_concat_length
  have hcount : f.upvalueCount = 0 := hwell.certified.upvalues
  have hobj : ObjOk (S ++ [.closure f scriptSignature]) (none ≠ some vm.objects.length)
      (.closure f (List.replicate f.upvalueCount none)) (.closure f scriptSignature) := by
    refine ⟨rfl, hwell, fun _ => ?_⟩
    rw [hcount]
    exact .nil
  have hkind : HasKind (S ++ [.closure f scriptSignature]) (.obj vm.objects.length) .any :=
    ⟨_, hnew, rfl⟩
  have hmemory := (hm.allocate hobj (fun _ _ h => h) (by simp)).push hkind
  have hstart : vm.start f = { (vm.allocate (.closure f (List.replicate f.upvalueCount none))).2.push
      (.obj vm.objects.length) with frames := [⟨vm.objects.length, 0, vm.stackTop⟩] } := by
    simp [VM.start, VM.call, VM.asClosure, VM.allocate, VM.push, harity, hframes, framesMax]
  obtain ⟨cs, hcs⟩ := hwell.annotated
  have hentry : entryShape f.arity scriptSignature.method = ⟨[⟨.any, false⟩], none⟩ := by
    rw [harity]
    rfl
  refine ⟨S ++ [.closure f scriptSignature], ⟨vm.objects.length, 0, vm.stackTop⟩, [], f,
    scriptSignature, cs, entryShape f.arity scriptSignature.method, [], hpre,
    ⟨by rw [hstart], ⟨hnew, hcs⟩, hm.top, ?_, trivial, ?_, rfl⟩, hcs.goes_entry⟩
  · rw [hstart, hentry]
    exact hmemory.of_eq rfl rfl rfl rfl rfl
  · rw [hentry]
    rfl

/-- The machine after `initVM`. -/
theorem init_memory (clock : ℕ → N) :
    MemoryOk none [.native] (VM.init clock : VM N (List Addr)) [] := by
  have hnone : ∀ a l, ¬ OpenAt ([.native] : List (Obj N)) a l := by
    rintro a l ⟨v, hv⟩
    cases List.mem_singleton.1 (List.mem_of_getElem? hv)
  refine ⟨⟨rfl, fun a o T ho hT => ?_⟩, fun key v hv => ?_,
    ⟨⟨[], .nil, .nil⟩, fun a l ha => (hnone a l ha).elim, fun a l ha => (hnone a l ha).elim⟩, rfl,
    trivial⟩
  · obtain rfl := List.mem_singleton.1 (List.mem_of_getElem? ho)
    obtain rfl := List.mem_singleton.1 (List.mem_of_getElem? hT)
    trivial
  · simp only [VM.init, Table.set, Table.empty] at hv
    split at hv
    · obtain rfl := Option.some.inj hv
      exact ⟨.native, rfl, trivial⟩
    · cases hv

theorem Failed.frames {S : List (Ty N)} {upvalues : List Addr} {vm : VM N (List Addr)}
    (h : Failed S upvalues vm) : vm.frames = [] := by
  obtain ⟨S', vm₁, slots, message, -, -, -, rfl⟩ := h
  rfl

/-- What a step leads to, if there still is a frame. -/
theorem step_stays [Double N] {S : List (Ty N)} {vm vm' : VM N (List Addr)} (h : Typed S vm)
    (hstep : step vm = some (.running vm')) (hframes : vm'.frames ≠ []) : Typed S vm' := by
  obtain ⟨o, ho, hsound⟩ := step_typed h
  rw [hstep] at ho
  obtain rfl := Option.some.inj ho
  exact hsound.resolve_right fun hfailed => hframes hfailed.frames

/-- A run of an accepted program on a new machine: it is typed, unless an error was reported. -/
theorem run_typed [Double N] {source : List Char} {f : ObjFunction N}
    (haccepts : Accepts (scanAll source) f) (clock : ℕ → N) {k : ℕ} {vm : VM N (List Addr)}
    (hrun : run k ((VM.init clock).start f) = some (.running vm)) :
    Typed [.native] vm ∨ vm.frames = [] ∧ vm.stderr ≠ [] := by
  have hstep : ∀ vm vm' : VM N (List Addr), (Typed [.native] vm ∨ vm.frames = [] ∧ vm.stderr ≠ []) →
      step vm = some (.running vm') → Typed [.native] vm' ∨ vm'.frames = [] ∧ vm'.stderr ≠ [] := by
    intro vm vm' h hstep
    rcases h with htyped | ⟨hframes, -⟩
    · obtain ⟨o, ho, hsound⟩ := step_typed htyped
      rw [hstep] at ho
      obtain rfl := Option.some.inj ho
      refine hsound.imp_right fun hfailed => ⟨hfailed.frames, ?_⟩
      obtain ⟨S', vm₁, slots, message, -, -, -, rfl⟩ := hfailed
      simp [VM.runtimeError, VM.resetStack]
    · simp [step, stepWith, hframes] at hstep
  refine runWith_invariant openUpvalues hstep (.inl ?_) hrun
  exact start_typed (init_memory clock) rfl (accepts_arity haccepts) (compile_wellTyped haccepts)

end Lox.Clox
