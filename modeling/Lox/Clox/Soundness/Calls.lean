import Lox.Clox.Soundness.Upvalues

/-!
# Typed machines

A machine is `Typed` when its memory has its types and every frame stands at an instruction of
certified code whose shape the stack has.  A call leads from one to another: the callee finds what
its certificate asks for, and the caller waits for the result.
-/

namespace Lox.Clox

variable {N : Type}

/-! ### Frames -/

/-- The variable of the class that is being declared holds a class. -/
def ClassVarOk (S : List (Ty N)) (vm : VM N (List Addr)) (base height : ℕ) :
    Option ClassVar → Prop
  | none => True
  | some (.local_ i) => i < height ∧ HasKind S (vm.stack (base + i)) .klass
  | some (.global name) => ∃ v, vm.globals name = some v ∧ HasKind S v .klass

/-- The kind of slot 0 of a function. -/
def Signature.bottom (sig : Signature) : Kind := if sig.method then .inst else .any

/-- A frame of a function with annotated code. -/
structure FrameOk (S : List (Ty N)) (frame : CallFrame) (f : ObjFunction N) (sig : Signature)
    (cs : Code) : Prop where
  closure : S[frame.closure]? = some (.closure f sig)
  annotated : Annotated f sig cs

/-- Frames that wait for the result of a call whose callee is above `slots`. -/
def Waiting (S : List (Ty N)) : List CallFrame → List Slot → Prop
  | [], slots => slots = []
  | frame :: frames, slots => ∃ f sig cs r below, FrameOk S frame f sig cs ∧ slots = r ++ below ∧
      r ≠ [] ∧ frame.slots = below.length ∧ cs.Goes frame.ip ⟨⟨.any, false⟩ :: r, none⟩ ∧
      bottomKind r = some sig.bottom ∧ Waiting S frames below

/-- The innermost frame is `frame`, and its part of the stack has the shape `a`. -/
structure Running (S : List (Ty N)) (vm : VM N (List Addr)) (frame : CallFrame)
    (rest : List CallFrame) (f : ObjFunction N) (sig : Signature) (cs : Code) (a : Shape)
    (below : List Slot) : Prop where
  frames : vm.frames = frame :: rest
  frame_ok : FrameOk S frame f sig cs
  base : frame.slots = below.length
  memory : MemoryOk none S vm (a.slots ++ below)
  classVar : ClassVarOk S vm frame.slots a.slots.length a.cls
  bottom : bottomKind a.slots = some sig.bottom
  waiting : Waiting S rest below

/-- A machine in the middle of a program; the objects of `S` have the types they have there. -/
def Typed (S : List (Ty N)) (vm : VM N (List Addr)) : Prop :=
  ∃ S' frame rest f sig cs a below, S <+: S' ∧ Running S' vm frame rest f sig cs a below ∧
    cs.Goes frame.ip a

/-- A machine after `runtimeError`, which was called with the open upvalues `upvalues`. -/
def Failed (S : List (Ty N)) (upvalues : List Addr) (vm' : VM N (List Addr)) : Prop :=
  ∃ S' vm slots message, S <+: S' ∧ MemoryOk none S' vm slots ∧ vm.upvalues = upvalues ∧
    vm' = vm.runtimeError message

/-- A machine after the end of a program: nothing is captured. -/
def Settled (S : List (Ty N)) (vm : VM N (List Addr)) : Prop :=
  vm.frames = [] ∧ ∃ S' slots, S <+: S' ∧ MemoryOk none S' vm slots ∧
    ∀ s ∈ slots, s.captured = false

/-- What an instruction leads to. -/
def Outcome.Sound (S : List (Ty N)) (upvalues : List Addr) : Outcome N (List Addr) → Prop
  | .running vm => Typed S vm ∨ Failed S upvalues vm
  | .finished .ok vm => Settled S vm
  | .finished .runtimeError vm => Failed S upvalues vm
  | .finished .compileError _ => False

/-- The instruction is executed, and leads to something sound. -/
def Executes (S : List (Ty N)) (upvalues : List Addr) (r : Option (Outcome N (List Addr))) : Prop :=
  ∃ o, r = some o ∧ o.Sound S upvalues

/-- The same for calls. -/
def Calls (S : List (Ty N)) (upvalues : List Addr) (r : Option (Bool × VM N (List Addr))) : Prop :=
  ∃ ok vm', r = some (ok, vm') ∧ (ok = true ∧ Typed S vm' ∨ Failed S upvalues vm')

/-! ### Shapes -/

theorem bottomKind_append {as bs : List Slot} (h : bs ≠ []) :
    bottomKind (as ++ bs) = bottomKind bs := by
  unfold bottomKind
  rw [List.getLast?_append_of_ne_nil _ h]

/-- What was popped, and what is left. -/
theorem popSlots_split {k : ℕ} : ∀ {ss rs : List Slot}, popSlots k ss = some rs →
    ∃ top, ss = top ++ rs ∧ top.length = k ∧ (∀ s ∈ top, s.plain = true) ∧ rs ≠ [] := by
  induction k with
  | zero =>
    intro ss rs h
    cases ss with
    | nil => cases h
    | cons s ss =>
      obtain rfl := Option.some.inj h
      exact ⟨[], rfl, rfl, by simp, by simp⟩
  | succ k ih =>
    intro ss rs h
    cases ss with
    | nil => cases h
    | cons s ss =>
      simp only [popSlots] at h
      split at h
      · rename_i hs
        obtain ⟨top, rfl, hlen, htop, hne⟩ := ih h
        refine ⟨s :: top, rfl, by rw [List.length_cons, hlen], fun t ht => ?_, hne⟩
        rcases List.mem_cons.1 ht with rfl | ht
        · exact hs
        · exact htop t ht
      · cases h

theorem Slot.plain_iff {s : Slot} : s.plain = true ↔ s.captured = false ∧ s.kind ≠ .meth := by
  simp [Slot.plain]

/-- A plain slot holds some value. -/
theorem Slot.plain_sub {s : Slot} (h : s.plain = true) : s.Sub ⟨.any, false⟩ := by
  obtain ⟨hcaptured, hkind⟩ := Slot.plain_iff.1 h
  refine ⟨fun ht => ?_, fun _ => .inr ⟨hkind, rfl⟩⟩
  rw [hcaptured] at ht
  cases ht

theorem plain_sub_replicate : ∀ {as : List Slot}, (∀ s ∈ as, s.plain = true) →
    List.Forall₂ Slot.Sub as (List.replicate as.length ⟨.any, false⟩) := by
  intro as
  induction as with
  | nil => exact fun _ => .nil
  | cons a as ih =>
    intro h
    exact .cons (Slot.plain_sub (h a (by simp))) (ih fun s hs => h s (by simp [hs]))

theorem forall₂_sub_refl (slots : List Slot) : List.Forall₂ Slot.Sub slots slots :=
  (Shape.Sub.refl ⟨slots, none⟩).1

/-- Slot 0 keeps its kind. -/
theorem transfer_bottom {I : Info N} {i : Instr} {a b : Shape} (h : transfer I i a = some b)
    (ha : a.slots ≠ []) : bottomKind b.slots = bottomKind a.slots := by
  have hreplace : ∀ {k : ℕ} {ks : List Kind} {b : Shape}, a.replace k ks = some b →
      bottomKind b.slots = bottomKind a.slots := by
    intro k ks b h
    simp only [Shape.replace, Option.map_eq_some_iff] at h
    obtain ⟨r, hr, rfl⟩ := h
    obtain ⟨top, hs, -, -, hne⟩ := popSlots_split hr
    rw [hs, bottomKind_append hne, bottomKind_append hne]
  have hpush : ∀ k, bottomKind (a.push k).slots = bottomKind a.slots :=
    fun k => bottomKind_cons ha
  cases i with
  | closure | jump | jumpIfFalse | loop | return_ => cases h
  | nil | true_ | false_ =>
    obtain rfl := Option.some.inj h
    exact hpush _
  | constant k =>
    simp only [transfer, Option.ite_none_right_eq_some, Option.some.injEq] at h
    obtain ⟨-, rfl⟩ := h
    exact hpush _
  | getLocal k | getGlobal k | getUpvalue k | class_ k =>
    simp only [transfer, Option.bind_eq_bind, Option.bind_eq_some_iff] at h
    obtain ⟨_, -, h⟩ := h
    obtain rfl := Option.some.inj h
    exact hpush _
  | setLocal k | setGlobal k | setUpvalue k =>
    simp only [transfer, Option.bind_eq_bind, Option.bind_eq_some_iff, Option.ite_none_right_eq_some,
      Bool.and_eq_true, Option.some.injEq] at h
    obtain ⟨_, -, h, rfl⟩ := h
    rfl
  | pop | print | equal | greater | less | add | subtract | multiply | divide | not | negate | call =>
    exact hreplace h
  | getProperty k | setProperty k | invoke k =>
    simp only [transfer, Option.bind_eq_bind, Option.bind_eq_some_iff] at h
    obtain ⟨_, -, h⟩ := h
    exact hreplace h
  | superInvoke k | getSuper k =>
    simp only [transfer, Option.bind_eq_bind, Option.bind_eq_some_iff,
      Option.ite_none_right_eq_some] at h
    obtain ⟨_, -, -, h⟩ := h
    exact hreplace h
  | defineGlobal k =>
    simp only [transfer, Option.bind_eq_bind, Option.bind_eq_some_iff] at h
    obtain ⟨_, -, c, hc, h⟩ := h
    obtain rfl := Option.some.inj h
    have hbottom := hreplace hc
    exact hbottom
  | closeUpvalue =>
    simp only [transfer] at h
    split at h
    · rename_i hs
      obtain rfl := Option.some.inj h
      rw [hs]
      simp
    · cases h
  | method k =>
    simp only [transfer, Option.bind_eq_bind, Option.bind_eq_some_iff] at h
    obtain ⟨_, -, h⟩ := h
    split at h
    · rename_i hs
      simp only [Option.ite_none_right_eq_some, Option.some.injEq] at h
      obtain ⟨-, rfl⟩ := h
      rw [hs]
      simp
    · cases h
  | inherit =>
    simp only [transfer] at h
    split at h
    · rename_i hs
      simp only [Option.ite_none_right_eq_some, Option.some.injEq] at h
      obtain ⟨-, rfl⟩ := h
      rw [hs]
      simp
    · cases h

/-! ### Kinds -/

section Kinds

variable {S : List (Ty N)} {v : Value N}

theorem HasKind.inst_iff : HasKind S v .inst ↔ ∃ a, v = .obj a ∧ S[a]? = some .inst := by
  cases v with
  | obj a => simp [HasKind]
  | nil | bool b | number n | string s => simp [HasKind]

theorem HasKind.klass_iff : HasKind S v .klass ↔ ∃ a, v = .obj a ∧ S[a]? = some .klass := by
  cases v with
  | obj a => simp [HasKind]
  | nil | bool b | number n | string s => simp [HasKind]

theorem HasKind.meth_iff : HasKind S v .meth ↔
    ∃ a f sig, v = .obj a ∧ S[a]? = some (.closure f sig) ∧ sig.method = true := by
  cases v with
  | obj a => simp [HasKind]
  | nil | bool b | number n | string s => simp [HasKind]

end Kinds

/-! ### Calls -/

theorem slotAt_middle {α : Type} {top rest : List α} {s : α} :
    slotAt rest.length (top ++ s :: rest) = some s := by
  rw [slotAt_append top (by simp)]
  exact slotAt_cons_self s rest

theorem slotAt_middle_ne {α : Type} {top rest : List α} {s t : α} {j : ℕ} (h : j ≠ rest.length) :
    slotAt j (top ++ s :: rest) = slotAt j (top ++ t :: rest) := by
  induction top with
  | nil =>
    simp only [List.nil_append, slotAt]
    rw [if_neg h.symm, if_neg h.symm]
  | cons a top ih => simp only [List.cons_append, slotAt, List.length_append, List.length_cons, ih]

/-- A slot that nothing points to gets a value of another kind. -/
theorem MemoryOk.poke {hole : Option Addr} {S : List (Ty N)} {vm : VM N (List Addr)}
    {top rest : List Slot} {s : Slot} (h : MemoryOk hole S vm (top ++ s :: rest))
    (hs : s.captured = false) {v : Value N} {k : Kind} (hv : HasKind S v k) :
    MemoryOk hole S (vm.poke top.length v) (top ++ ⟨k, false⟩ :: rest) := by
  have htop := h.top
  rw [List.length_append, List.length_cons] at htop
  have hpos : vm.stackTop - 1 - top.length = rest.length := by omega
  refine ⟨h.heap, h.globals, h.opens, ?_, StackOk.of_slotAt fun j t ht => ?_⟩
  · change vm.stackTop = _
    rw [htop]
    simp
  · simp only [VM.poke, hpos]
    by_cases hj : j = rest.length
    · subst hj
      rw [slotAt_middle] at ht
      obtain rfl := Option.some.inj ht
      refine ⟨by rw [Function.update_self]; exact hv, fun a ha => ?_⟩
      have hcaptured := ((h.stack.slotAt slotAt_middle).2 a ha).1
      rw [hs] at hcaptured
      cases hcaptured
    · rw [slotAt_middle_ne (t := s) hj] at ht
      obtain ⟨hkind, hups⟩ := h.stack.slotAt ht
      exact ⟨by rw [Function.update_of_ne hj]; exact hkind, hups⟩

/-- A slot that nothing points to may be seen as what it holds. -/
theorem MemoryOk.retype {hole : Option Addr} {S : List (Ty N)} {vm : VM N (List Addr)}
    {top rest : List Slot} {s : Slot} (h : MemoryOk hole S vm (top ++ s :: rest))
    (hs : s.captured = false) {k : Kind} (hv : HasKind S (vm.peek top.length) k) :
    MemoryOk hole S vm (top ++ ⟨k, false⟩ :: rest) := by
  have hpoke := h.poke hs hv
  refine hpoke.of_eq rfl rfl rfl rfl ?_
  exact (Function.update_eq_self _ _).symm

theorem FrameOk.mono {S S' : List (Ty N)} (h : S <+: S') {frame : CallFrame} {f : ObjFunction N}
    {sig : Signature} {cs : Code} (hf : FrameOk S frame f sig cs) : FrameOk S' frame f sig cs :=
  ⟨prefix_getElem? h hf.closure, hf.annotated⟩

theorem Waiting.mono {S S' : List (Ty N)} (h : S <+: S') : ∀ {frames : List CallFrame}
    {slots : List Slot}, Waiting S frames slots → Waiting S' frames slots := by
  intro frames
  induction frames with
  | nil => exact fun hw => hw
  | cons frame frames ih =>
    rintro slots ⟨f, sig, cs, r, below, hf, hslots, hne, hbase, hgoes, hbottom, hrest⟩
    exact ⟨f, sig, cs, r, below, hf.mono h, hslots, hne, hbase, hgoes, hbottom, ih hrest⟩

theorem bottomKind_slotAt {slots : List Slot} {k : Kind} (h : bottomKind slots = some k) :
    ∃ s, slotAt 0 slots = some s ∧ s.kind = k := by
  obtain ⟨s, hs, hk⟩ := Option.map_eq_some_iff.1 h
  obtain ⟨ts, rfl⟩ := List.getLast?_eq_some_iff.1 hs
  exact ⟨s, by rw [slotAt_append ts (by simp)]; rfl, hk⟩

theorem slotAt_bottom {slots : List Slot} {k : Kind} (h : bottomKind slots = some k)
    (below : List Slot) : ∃ s, slotAt below.length (slots ++ below) = some s ∧ s.kind = k := by
  rw [slotAt_append_left le_rfl, Nat.sub_self]
  exact bottomKind_slotAt h

/-- Slot 0 of a waiting frame. -/
theorem Waiting.bottom {S : List (Ty N)} {caller : CallFrame} : ∀ {frames : List CallFrame}
    {slots : List Slot}, Waiting S frames slots → caller ∈ frames → ∃ g sig s,
      S[caller.closure]? = some (.closure g sig) ∧ slotAt caller.slots slots = some s ∧
      s.kind = sig.bottom := by
  intro frames
  induction frames with
  | nil =>
    intro slots _ hmem
    cases hmem
  | cons frame frames ih =>
    rintro slots ⟨g, sig, cs, r, below, hframe, rfl, -, hbase, -, hbottom, hrest⟩ hmem
    rcases List.mem_cons.1 hmem with rfl | hmem
    · obtain ⟨s, hs, hk⟩ := slotAt_bottom hbottom below
      exact ⟨g, sig, s, hframe.closure, by rw [hbase]; exact hs, hk⟩
    · obtain ⟨g', sig', s, hclosure, hs, hk⟩ := ih hrest hmem
      exact ⟨g', sig', s, hclosure, by rw [slotAt_append r (slotAt_lt hs)]; exact hs, hk⟩

/-- A call whose result is there. -/
theorem MemoryOk.resume {S : List (Ty N)} {vm : VM N (List Addr)} {slots : List Slot}
    (hm : MemoryOk none S vm (⟨.any, false⟩ :: slots)) (hw : Waiting S vm.frames slots)
    (hne : vm.frames ≠ []) : Typed S vm := by
  cases hframes : vm.frames with
  | nil => exact absurd hframes hne
  | cons frame rest =>
    rw [hframes] at hw
    obtain ⟨f, sig, cs, r, below, hf, rfl, hr, hbase, hgoes, hbottom, hrest⟩ := hw
    exact ⟨S, frame, rest, f, sig, cs, ⟨⟨.any, false⟩ :: r, none⟩, below, List.prefix_rfl, ⟨hframes, hf,
      hbase, hm, trivial, by rw [bottomKind_cons hr, hbottom], hrest⟩, hgoes⟩

/-- A machine that is about to call: the arguments and the callee are on the stack, and the frames
wait for the result. -/
structure CallSite (S : List (Ty N)) (vm : VM N (List Addr)) (args : List Slot) (callee : Slot)
    (slots : List Slot) : Prop where
  memory : MemoryOk none S vm (args ++ callee :: slots)
  args_plain : ∀ s ∈ args, s.plain = true
  callee_plain : callee.plain = true
  waiting : Waiting S vm.frames slots
  frames : vm.frames ≠ []

theorem Typed.mono {S S' : List (Ty N)} (h : S <+: S') {vm : VM N (List Addr)} (ht : Typed S' vm) :
    Typed S vm := by
  obtain ⟨S₁, frame, rest, f, sig, cs, a, below, hS, hrunning⟩ := ht
  exact ⟨S₁, frame, rest, f, sig, cs, a, below, h.trans hS, hrunning⟩

theorem Calls.mono {S S' : List (Ty N)} (h : S <+: S') {upvalues : List Addr}
    {r : Option (Bool × VM N (List Addr))} (hr : Calls S' upvalues r) : Calls S upvalues r := by
  obtain ⟨ok, vm', hr, ⟨hok, ht⟩ | ⟨S₁, vm, slots, message, hS, hfailed⟩⟩ := hr
  · exact ⟨ok, vm', hr, .inl ⟨hok, ht.mono h⟩⟩
  · exact ⟨ok, vm', hr, .inr ⟨S₁, vm, slots, message, h.trans hS, hfailed⟩⟩

/-- An error is reported. -/
theorem Calls.fail {S : List (Ty N)} {vm : VM N (List Addr)} {slots : List Slot}
    (h : MemoryOk none S vm slots) (ok : Bool) (message : String) :
    Calls S vm.upvalues (some (ok, vm.runtimeError message)) :=
  ⟨ok, _, rfl, .inr ⟨S, vm, slots, message, List.prefix_rfl, h, rfl, rfl⟩⟩

namespace CallSite

variable {S : List (Ty N)} {vm : VM N (List Addr)} {args slots : List Slot} {callee : Slot}

/-- The callee is replaced, as by `poke`. -/
theorem poke (h : CallSite S vm args callee slots) {v : Value N} {k : Kind} (hv : HasKind S v k)
    (hk : k ≠ .meth) : CallSite S (vm.poke args.length v) args ⟨k, false⟩ slots :=
  ⟨h.memory.poke (Slot.plain_iff.1 h.callee_plain).1 hv, h.args_plain,
    Slot.plain_iff.2 ⟨rfl, hk⟩, h.waiting, h.frames⟩

/-- The callee is known to be of a kind. -/
theorem retype (h : CallSite S vm args callee slots) {k : Kind}
    (hv : HasKind S (vm.peek args.length) k) (hk : k ≠ .meth) :
    CallSite S vm args ⟨k, false⟩ slots :=
  ⟨h.memory.retype (Slot.plain_iff.1 h.callee_plain).1 hv, h.args_plain,
    Slot.plain_iff.2 ⟨rfl, hk⟩, h.waiting, h.frames⟩

theorem asClosure (h : CallSite S vm args callee slots) {m : Addr} {f : ObjFunction N}
    {sig : Signature} (hm : S[m]? = some (.closure f sig)) :
    WellTyped f sig ∧ ∃ us, vm.asClosure m = some (f, us) := by
  obtain ⟨us, hobject, hwell, -⟩ := h.memory.heap.closure hm
  exact ⟨hwell, us, VM.asClosure_eq_some.2 hobject⟩

/-- `call`. -/
theorem call (h : CallSite S vm args callee slots) {m : Addr} {f : ObjFunction N} {sig : Signature}
    (hm : S[m]? = some (.closure f sig)) (hk : callee.kind.Sub sig.bottom) :
    Calls S vm.upvalues (vm.call m args.length) := by
  obtain ⟨hwell, us, hus⟩ := h.asClosure hm
  simp only [VM.call, hus, Option.bind_eq_bind, Option.bind_some]
  split
  · exact Calls.fail h.memory false _
  rename_i harity
  split
  · exact Calls.fail h.memory false _
  · obtain ⟨cs, hcs⟩ := hwell.annotated
    have htop := h.memory.top
    rw [List.length_append, List.length_cons] at htop
    have hslots : (entryShape f.arity sig.method).slots ++ slots
        = List.replicate args.length ⟨.any, false⟩ ++ ⟨sig.bottom, false⟩ :: slots := by
      rw [← not_not.1 harity]
      simp [entryShape, Signature.bottom]
    refine ⟨true, _, rfl, .inl ⟨rfl, S, _, _, f, sig, cs, entryShape f.arity sig.method, slots,
      List.prefix_rfl, ⟨rfl, ⟨hm, hcs⟩, ?_, ?_, trivial, ?_, h.waiting⟩, hcs.goes_entry⟩⟩
    · change vm.stackTop - args.length - 1 = slots.length
      omega
    · rw [hslots]
      refine (h.memory.sub ?_).of_eq rfl rfl rfl rfl rfl
      refine List.rel_append (plain_sub_replicate h.args_plain) (.cons ?_ (forall₂_sub_refl slots))
      refine ⟨fun ht => ?_, fun _ => hk⟩
      rw [(Slot.plain_iff.1 h.callee_plain).1] at ht
      cases ht
    · simp [bottomKind, entryShape, Signature.bottom]

/-- The result is there at once. -/
theorem result (h : CallSite S vm [] callee slots) : Calls S vm.upvalues (some (true, vm)) := by
  have hresult := h.memory.sub (.cons (Slot.plain_sub h.callee_plain) (forall₂_sub_refl slots))
  exact ⟨true, vm, rfl, .inl ⟨rfl, hresult.resume h.waiting h.frames⟩⟩

/-- The call of a method. -/
theorem callMethod (h : CallSite S vm args ⟨.inst, false⟩ slots) {v : Value N}
    (hv : HasKind S v .meth) :
    Calls S vm.upvalues ((VM.asMethod v).bind fun m => vm.call m args.length) := by
  obtain ⟨m, f, sig, rfl, hm, hmethod⟩ := HasKind.meth_iff.1 hv
  refine h.call hm ?_
  simp [Signature.bottom, hmethod, Kind.Sub]

theorem allocate (h : CallSite S vm args callee slots) {o : Obj N} {T : Ty N}
    (ho : ObjOk (S ++ [T]) (none ≠ some vm.objects.length) o T)
    (hopen : ∀ l v, o ≠ .upvalue (some l) v) :
    CallSite (S ++ [T]) (vm.allocate o).2 args callee slots :=
  ⟨h.memory.allocate ho (fun _ _ h => h) hopen, h.args_plain, h.callee_plain,
    h.waiting.mono (HeapOk.prefix_append S T), h.frames⟩

theorem allocated (h : CallSite S vm args callee slots) (T : Ty N) :
    (S ++ [T])[vm.objects.length]? = some T := by
  rw [← h.memory.heap.length]
  exact List.getElem?_concat_length

/-- The call of a class. -/
theorem callClass (h : CallSite S vm args callee slots) {klass : Addr} {methods : Table N}
    (hklass : S[klass]? = some .klass) (hmethods : TableOk S .meth methods) :
    Calls S vm.upvalues (vm.callClass klass methods args.length) := by
  have hpre := HeapOk.prefix_append S .inst
  have hobj : ObjOk (S ++ [.inst]) (none ≠ some vm.objects.length) (.inst klass Table.empty) .inst :=
    ⟨prefix_getElem? hpre hklass, TableOk.empty _ _⟩
  have hsite := (h.allocate hobj (by simp)).poke (HasKind.inst_iff.2 ⟨_, rfl, h.allocated .inst⟩)
    (by simp)
  unfold VM.callClass
  simp only [VM.allocate]
  cases hinit : methods "init".toList with
  | some initializer =>
    simp only
    exact (hsite.callMethod ((hmethods _ _ hinit).mono hpre)).mono hpre
  | none =>
    simp only
    split
    · exact (Calls.fail hsite.memory true _).mono hpre
    · rename_i hargs
      obtain rfl := List.length_eq_zero_iff.1 (not_not.1 hargs)
      exact hsite.result.mono hpre

/-- The call of a native function. -/
theorem callNative (h : CallSite S vm args callee slots) :
    Calls S vm.upvalues (some (true, vm.callNative args.length)) := by
  refine ⟨true, _, rfl, .inl ⟨rfl, ?_⟩⟩
  have htop := h.memory.top
  rw [List.length_append, List.length_cons] at htop
  have hpop : MemoryOk none S (vm.truncate slots.length) slots := by
    have hall : MemoryOk none S vm ((args ++ [callee]) ++ slots) := by simpa using h.memory
    refine hall.truncate fun s hs => ?_
    rcases List.mem_append.1 hs with hs | hs
    · exact (Slot.plain_iff.1 (h.args_plain s hs)).1
    · rw [List.mem_singleton.1 hs]
      exact (Slot.plain_iff.1 h.callee_plain).1
  have hslots : vm.stackTop - (args.length + 1) = slots.length := by omega
  have hnumber : HasKind S (.number (vm.clock vm.ticks)) .any := trivial
  have hresult : MemoryOk none S (vm.callNative args.length) (⟨.any, false⟩ :: slots) := by
    simp only [VM.callNative, VM.pop, hslots]
    exact (hpop.push hnumber).of_eq rfl rfl rfl rfl rfl
  exact hresult.resume h.waiting h.frames

/-- `callValue`. -/
theorem callValue (h : CallSite S vm args callee slots) {v : Value N} (hv : HasKind S v .any)
    (hcallee : callee.kind = .any) : Calls S vm.upvalues (vm.callValue v args.length) := by
  cases v with
  | nil | bool b | number n | string s => exact Calls.fail h.memory false _
  | obj a =>
    obtain ⟨T, hT, hfirst⟩ := hv
    obtain ⟨o, ho, hok⟩ := h.memory.heap.get hT
    simp only [VM.callValue, ho]
    cases o with
    | boundMethod receiver method =>
      cases T with
      | bound =>
        obtain ⟨hreceiver, hmethod⟩ := hok
        exact (h.poke hreceiver (by simp)).callMethod hmethod
      | _ => exact hok.elim
    | klass name methods =>
      cases T with
      | klass => exact h.callClass hT hok
      | _ => exact hok.elim
    | native => exact h.callNative
    | closure f us =>
      cases T with
      | closure g sig =>
        refine h.call hT ?_
        have hmethod : sig.method = false := hfirst
        simp [Signature.bottom, hmethod, hcallee, Kind.Sub]
      | _ => exact hok.elim
    | upvalue location closed => exact Calls.fail h.memory false _
    | inst klass fields => exact Calls.fail h.memory false _

/-- `invokeFromClass`. -/
theorem invokeFromClass (h : CallSite S vm args ⟨.inst, false⟩ slots) {methods : Table N}
    (hmethods : TableOk S .meth methods) (name : Name) :
    Calls S vm.upvalues (vm.invokeFromClass methods name args.length) := by
  unfold VM.invokeFromClass
  cases hmethod : methods name with
  | none => exact Calls.fail h.memory false _
  | some method => exact h.callMethod (hmethods _ _ hmethod)

/-- `invoke`. -/
theorem invoke (h : CallSite S vm args callee slots) (name : Name) :
    Calls S vm.upvalues (vm.invoke name args.length) := by
  unfold VM.invoke
  cases hinst : vm.asInstance (vm.peek args.length) with
  | none => exact Calls.fail h.memory false _
  | some r =>
    obtain ⟨a, klass, fields⟩ := r
    obtain ⟨hpeek, hobject⟩ := VM.asInstance_eq_some.1 hinst
    obtain ⟨T, hT, hok⟩ := h.memory.heap.type_of hobject
    cases T with
    | inst =>
      obtain ⟨hklass, hfields⟩ := hok
      obtain ⟨className, methods, hclass, hmethods⟩ := h.memory.heap.klass hklass
      simp only
      cases hfield : fields name with
      | some value =>
        have hvalue := hfields _ _ hfield
        exact (h.poke hvalue (by simp)).callValue hvalue rfl
      | none =>
        have hsite := h.retype (HasKind.inst_iff.2 ⟨a, hpeek, hT⟩) (by simp)
        simp only [VM.asClass, hclass, Option.bind_eq_bind, Option.bind_some]
        exact hsite.invokeFromClass hmethods name
    | _ => exact hok.elim

/-- `bindMethod`; the instance is the value on top. -/
theorem bindMethod (h : CallSite S vm [] ⟨.inst, false⟩ slots) {methods : Table N}
    (hmethods : TableOk S .meth methods) (name : Name) :
    Calls S vm.upvalues (vm.bindMethod methods name) := by
  unfold VM.bindMethod
  cases hmethod : methods name with
  | none => exact Calls.fail h.memory false _
  | some method =>
    obtain ⟨m, f, sig, rfl, hm, hsig⟩ := HasKind.meth_iff.1 (hmethods _ _ hmethod)
    have hpre := HeapOk.prefix_append S .bound
    have hreceiver : HasKind S (vm.peek 0) .inst := h.memory.peek (d := 0) (s := ⟨.inst, false⟩) rfl
    have hobj : ObjOk (S ++ [.bound]) (none ≠ some vm.objects.length)
        (.boundMethod (vm.peek 0) m) .bound :=
      ⟨hreceiver.mono hpre, f, sig, prefix_getElem? hpre hm, hsig⟩
    have hsite := h.allocate hobj (by simp)
    have hbound : HasKind (S ++ [.bound]) (.obj vm.objects.length) .any :=
      ⟨.bound, h.allocated .bound, trivial⟩
    have hresult := (hsite.memory.pop_one rfl).push hbound
    exact ⟨true, _, rfl, .inl ⟨rfl, (hresult.resume hsite.waiting h.frames).mono hpre⟩⟩

end CallSite

end Lox.Clox
