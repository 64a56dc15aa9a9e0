import Lox.Clox.Layout
import Lox.Clox.Certify.Stmt

/-!
# Accepted programs are verifiable bytecode

What a bytecode verifier would check of a chunk, stated on its bytes alone: the code decodes into
instructions, jumps go to instructions, and there is one stack height for every instruction that
can be reached, high enough for what the instruction does.  Every function of an accepted program
passes (`Accepts.verifiable`).
-/

namespace Lox.Clox

variable {N : Type}

/-! ### The verifier -/

/-- Decode bytes from the first to the last, as `disassembleChunk` goes through a chunk. -/
def disassemble (constants : List (Constant N)) : ℕ → List UInt8 → Option (List Instr)
  | _, [] => some []
  | 0, _ :: _ => none
  | n + 1, b :: bytes => do
      let i ← decode constants (b :: bytes)
      let is ← disassemble constants n ((b :: bytes).drop i.size)
      return i :: is

/-- The instructions of a chunk, from offset 0. -/
def Function.disassembleChunk (f : ObjFunction N) : Option (List Instr) :=
  disassemble f.constants f.code.length f.code

/-- An instruction starts at an offset of the chunk. -/
def Function.Start (f : ObjFunction N) (o : ℕ) : Prop :=
  ∃ p i q, f.disassembleChunk = some (p ++ i :: q) ∧ o = codeSize p

/-- The offsets and stack heights after an instruction at offset `o` with height `h`: along the
fall-through edge and along the jump, where there are such. -/
def Instr.next (o h : ℕ) (i : Instr) : List (ℕ × ℕ) :=
  match i with
  | .jump d => [(o + 3 + d, h)]
  | .jumpIfFalse d => [(o + 3, h), (o + 3 + d, h)]
  | .loop d => [(o + 3 - d, h)]
  | .return_ => []
  | i => [(o + i.size, h - i.pops + i.pushes)]

/-- The instruction at the offset is statically reachable with this stack height. -/
inductive Function.Reaches (f : ObjFunction N) : ℕ → ℕ → Prop where
  | entry : f.Reaches 0 (f.arity + 1)
  | next {o h o' h' : ℕ} {i : Instr} (reaches : f.Reaches o h) (fetch : f.fetch o = some i)
      (edge : (o', h') ∈ i.next o h) : f.Reaches o' h'

/-- The function itself, a function in its constants, a function in the constants of one of those,
and so on. -/
inductive Function.Contains : ObjFunction N → ObjFunction N → Prop where
  | refl (f : ObjFunction N) : f.Contains f
  | constant {f g h : ObjFunction N} (mem : Constant.function g ∈ f.constants)
      (contains : g.Contains h) : f.Contains h

/-- The jump of an instruction at offset `o`, if it is one, goes to an instruction. -/
def Function.JumpOk (f : ObjFunction N) (o : ℕ) : Instr → Prop
  | .jump d | .jumpIfFalse d => f.Start (o + 3 + d)
  | .loop d => d ≤ o + 3 ∧ f.Start (o + 3 - d)
  | _ => True

/-- The constant of an instruction exists, and it is what `run` casts it to. -/
def Function.ConstantOk (f : ObjFunction N) : Instr → Prop
  | .constant k => k.toNat < f.constants.length
  | .getGlobal k | .defineGlobal k | .setGlobal k | .getProperty k | .setProperty k | .getSuper k
  | .class_ k | .method k | .invoke k _ | .superInvoke k _ =>
      ∃ s, f.constants[k.toNat]? = some (.string s)
  | .closure k _ => ∃ g, f.constants[k.toNat]? = some (.function g)
  | _ => True

/-- The upvalue of an instruction exists. -/
def Function.UpvalueIndexOk (f : ObjFunction N) : Instr → Prop
  | .getUpvalue slot | .setUpvalue slot => slot.toNat < f.upvalueCount
  | _ => True

/-- The slots an instruction names exist when the stack has height `h`; a capture may name the
closure just pushed. -/
def Function.SlotsOk (f : ObjFunction N) (h : ℕ) : Instr → Prop
  | .getLocal slot | .setLocal slot => slot.toNat < h
  | .closure _ captures => ∀ u ∈ captures,
      if u.isLocal then u.index.toNat < h + 1 else u.index.toNat < f.upvalueCount
  | _ => True

/-- A function that a bytecode verifier accepts. -/
structure Function.Verifiable (f : ObjFunction N) : Prop where
  decodes : ∃ is, f.disassembleChunk = some is ∧ encodeAll is = f.code ∧
    is.getLast? = some .return_
  fetches : ∀ o, f.Start o → ∃ i, f.fetch o = some i
  jumps : ∀ o i, f.Start o → f.fetch o = some i → f.JumpOk o i
  constants : ∀ o i, f.Start o → f.fetch o = some i → f.ConstantOk i
  upvalues : ∀ o i, f.Start o → f.fetch o = some i → f.UpvalueIndexOk i
  starts : ∀ o h, f.Reaches o h → f.Start o
  heights : ∀ o h h', f.Reaches o h → f.Reaches o h' → h = h'
  pops : ∀ o h i, f.Reaches o h → f.fetch o = some i → i ≠ .return_ → i.pops < h
  reads : ∀ o h i, f.Reaches o h → f.fetch o = some i → i.reads ≤ h
  slots : ∀ o h i, f.Reaches o h → f.fetch o = some i → f.SlotsOk h i

/-! ### Certified code passes -/

section Annotated

variable {f : ObjFunction N} {sig : Signature} {cs : Code} {o : ℕ} {n : Note} {i : Instr}

theorem disassemble_encodeAll {constants : List (Constant N)} {is : List Instr}
    (h : ∀ i ∈ is, i.Readable constants) : ∀ {m : ℕ}, codeSize is ≤ m →
    disassemble constants m (encodeAll is) = some is := by
  induction is with
  | nil =>
    intro m _
    cases m <;> rfl
  | cons i is ih =>
    intro m hm
    have hsplit : encodeAll (i :: is) = i.encode ++ encodeAll is := by simp [encodeAll]
    have hdecode := decode_encode (h i (by simp)) (encodeAll is)
    have hpos := i.size_pos
    have hsize : codeSize (i :: is) = i.size + codeSize is := by
      simp [codeSize, hsplit, Instr.size]
    have hrest := ih (fun j hj => h j (by simp [hj])) (m := m - 1) (by omega)
    have hdrop : (i.encode ++ encodeAll is).drop i.size = encodeAll is := List.drop_left
    obtain ⟨m, rfl⟩ : ∃ m', m = m' + 1 := ⟨m - 1, by omega⟩
    rw [hsplit]
    cases hb : i.encode ++ encodeAll is with
    | nil =>
      rw [hb] at hdecode
      cases hdecode
    | cons b bytes =>
      rw [hb] at hdecode hdrop
      simp only [disassemble, hdecode, Option.bind_eq_bind, Option.bind_some, hdrop]
      rw [Nat.add_sub_cancel] at hrest
      rw [hrest]
      rfl

theorem Annotated.disassembleChunk (h : Annotated f sig cs) :
    f.disassembleChunk = some cs.instrs := by
  unfold Function.disassembleChunk
  rw [h.code]
  refine disassemble_encodeAll (fun i hi => ?_) le_rfl
  obtain ⟨⟨n, j⟩, hmem, rfl⟩ := List.mem_map.1 hi
  obtain ⟨p, q, hcs⟩ := List.append_of_mem hmem
  exact (h.cert.sound ⟨p, q, hcs, rfl⟩).2.1

/-- The instruction starts are the offsets of the annotated code. -/
theorem Annotated.start_iff (h : Annotated f sig cs) : f.Start o ↔ ∃ n i, cs.At o n i := by
  constructor
  · rintro ⟨p, i, q, hd, rfl⟩
    rw [h.disassembleChunk, Option.some.injEq] at hd
    obtain ⟨p', q', rfl, hp, hq⟩ := List.map_eq_append_iff.1 hd
    obtain ⟨⟨n, j⟩, q', rfl, hj, hq⟩ := List.map_eq_cons_iff.1 hq
    obtain rfl : j = i := hj
    exact ⟨n, j, p', q', rfl, by rw [← hp]; rfl⟩
  · rintro ⟨n, i, p, q, rfl, rfl⟩
    exact ⟨p.instrs, i, q.instrs, by rw [h.disassembleChunk]; simp, rfl⟩

theorem Annotated.at_of_fetch (h : Annotated f sig cs) (hs : f.Start o) (hi : f.fetch o = some i) :
    ∃ n, cs.At o n i := by
  obtain ⟨n, j, hat⟩ := h.start_iff.1 hs
  rw [h.fetch hat] at hi
  obtain rfl := Option.some.inj hi
  exact ⟨n, hat⟩

theorem Code.Goes.length {a : Shape} (h : cs.Goes o a) :
    ∃ n i, cs.At o n i ∧ n.shape.slots.length = a.slots.length := by
  obtain ⟨n, i, hat, hsub⟩ := h
  exact ⟨n, i, hat, hsub.1.length_eq.symm⟩

/-- What follows an instruction has the height that its stack effect gives. -/
theorem Annotated.next (h : Annotated f sig cs) (hat : cs.At o n i) {o' h' : ℕ}
    (hedge : (o', h') ∈ i.next o n.shape.slots.length) :
    ∃ n' i', cs.At o' n' i' ∧ n'.shape.slots.length = h' := by
  obtain ⟨hne, hsound⟩ := h.sound hat
  cases i with
  | jump d =>
    obtain ⟨rfl, rfl⟩ := Prod.mk.inj (List.mem_singleton.1 hedge)
    exact hsound.length
  | jumpIfFalse d =>
    obtain ⟨-, hnext, hjump⟩ := hsound
    simp only [Instr.next, List.mem_cons, Prod.mk.injEq, List.not_mem_nil, or_false] at hedge
    rcases hedge with ⟨rfl, rfl⟩ | ⟨rfl, rfl⟩
    · exact hnext.length
    · exact hjump.length
  | loop d =>
    obtain ⟨rfl, rfl⟩ := Prod.mk.inj (List.mem_singleton.1 hedge)
    exact hsound.2.length
  | return_ => cases hedge
  | closure k captures =>
    obtain ⟨rfl, rfl⟩ := Prod.mk.inj (List.mem_singleton.1 hedge)
    obtain ⟨-, n', i', hat', hsub, -⟩ := hsound
    refine ⟨n', i', hat', ?_⟩
    rw [← hsub.1.length_eq]
    rfl
  | _ =>
    obtain ⟨rfl, rfl⟩ := Prod.mk.inj (List.mem_singleton.1 hedge)
    obtain ⟨b, hb, hgoes⟩ := hsound
    obtain ⟨n', i', hat', hlen⟩ := hgoes.length
    exact ⟨n', i', hat', hlen.trans (transfer_length hb hne).2.2⟩

/-- Along static paths the certificate has the height. -/
theorem Annotated.reaches (h : Annotated f sig cs) {h' : ℕ} (hr : f.Reaches o h') :
    ∃ n i, cs.At o n i ∧ n.shape.slots.length = h' := by
  induction hr with
  | entry =>
    obtain ⟨n, i, hat, hlen⟩ := h.goes_entry.length
    exact ⟨n, i, hat, by simpa [entryShape] using hlen⟩
  | next _ fetch edge ih =>
    obtain ⟨n, i, hat, rfl⟩ := ih
    rw [h.fetch hat] at fetch
    obtain rfl := Option.some.inj fetch
    exact h.next hat edge

theorem Annotated.jumpOk (h : Annotated f sig cs) (hat : cs.At o n i) : f.JumpOk o i := by
  obtain ⟨-, hsound⟩ := h.sound hat
  have hstart : ∀ {o' a}, cs.Goes o' a → f.Start o' := fun ⟨n', i', hat', _⟩ =>
    h.start_iff.2 ⟨n', i', hat'⟩
  cases i with
  | jump d => exact hstart hsound
  | jumpIfFalse d => exact hstart hsound.2.2
  | loop d => exact ⟨hsound.1, hstart hsound.2⟩
  | _ => trivial

theorem stringAt_some {constants : List (Constant N)} {k : UInt8} {s : Name}
    (h : stringAt constants k = some s) : constants[k.toNat]? = some (.string s) := by
  unfold stringAt at h
  split at h
  · rename_i heq
    obtain rfl := Option.some.inj h
    exact heq
  · cases h

theorem functionAt_some {constants : List (Constant N)} {k : UInt8} {g : ObjFunction N}
    (h : functionAt constants k = some g) : constants[k.toNat]? = some (.function g) := by
  unfold functionAt at h
  split at h
  · rename_i heq
    obtain rfl := Option.some.inj h
    exact heq
  · cases h

theorem literalAt_lt {constants : List (Constant N)} {k : UInt8} (h : literalAt constants k = true) :
    k.toNat < constants.length := by
  by_contra hk
  simp [literalAt, List.getElem?_eq_none (Nat.le_of_not_lt hk)] at h

theorem Annotated.constantOk (h : Annotated f sig cs) (hat : cs.At o n i) : f.ConstantOk i := by
  obtain ⟨-, hsound⟩ := h.sound hat
  cases i with
  | constant k =>
    obtain ⟨b, hb, -⟩ := hsound
    simp only [transfer, Option.ite_none_right_eq_some] at hb
    exact literalAt_lt hb.1
  | getGlobal k | defineGlobal k | setGlobal k | getProperty k | setProperty k | getSuper k
  | class_ k | method k | invoke k _ | superInvoke k _ =>
    obtain ⟨b, hb, -⟩ := hsound
    simp only [transfer, Option.bind_eq_bind, Option.bind_eq_some_iff] at hb
    obtain ⟨s, hs, -⟩ := hb
    exact ⟨s, stringAt_some hs⟩
  | closure k captures =>
    obtain ⟨⟨g, hg, -⟩, -⟩ := hsound
    exact ⟨g, functionAt_some hg⟩
  | _ => trivial

theorem Annotated.upvalueIndexOk (h : Annotated f sig cs)
    (hcount : f.upvalueCount = sig.upvalues.length) (hat : cs.At o n i) : f.UpvalueIndexOk i := by
  obtain ⟨-, hsound⟩ := h.sound hat
  cases i with
  | getUpvalue slot | setUpvalue slot =>
    obtain ⟨b, hb, -⟩ := hsound
    simp only [transfer, Option.bind_eq_bind, Option.bind_eq_some_iff] at hb
    obtain ⟨k, hk, -⟩ := hb
    have hlt := (List.getElem?_eq_some_iff.1 hk).1
    simp only [Function.UpvalueIndexOk]
    omega
  | _ => trivial

theorem Annotated.pops (h : Annotated f sig cs) (hat : cs.At o n i) (hi : i ≠ .return_) :
    i.pops < n.shape.slots.length := by
  obtain ⟨hne, hsound⟩ := h.sound hat
  have hpos := List.length_pos_of_ne_nil hne
  cases i with
  | jump d | jumpIfFalse d | loop d | closure k captures => exact hpos
  | return_ => exact absurd rfl hi
  | _ =>
    obtain ⟨b, hb, -⟩ := hsound
    exact (transfer_length hb hne).1

theorem Annotated.reads (h : Annotated f sig cs) (hat : cs.At o n i) :
    i.reads ≤ n.shape.slots.length := by
  obtain ⟨hne, hsound⟩ := h.sound hat
  have hpos := List.length_pos_of_ne_nil hne
  cases i with
  | jump d | loop d | closure k captures => exact Nat.zero_le _
  | jumpIfFalse d | return_ => exact hpos
  | _ =>
    obtain ⟨b, hb, -⟩ := hsound
    exact (transfer_length hb hne).2.1

theorem forall₂_mem_left {α β : Type} {R : α → β → Prop} {as : List α} {bs : List β} {a : α}
    (h : List.Forall₂ R as bs) (ha : a ∈ as) : ∃ b, R a b := by
  obtain ⟨b, -, hr⟩ := mem_forall₂ h ha
  exact ⟨b, hr⟩

theorem Annotated.slotsOk (h : Annotated f sig cs)
    (hcount : f.upvalueCount = sig.upvalues.length) (hat : cs.At o n i) :
    f.SlotsOk n.shape.slots.length i := by
  obtain ⟨-, hsound⟩ := h.sound hat
  cases i with
  | getLocal slot | setLocal slot =>
    obtain ⟨b, hb, -⟩ := hsound
    simp only [transfer, Option.bind_eq_bind, Option.bind_eq_some_iff] at hb
    obtain ⟨s, hs, -⟩ := hb
    exact slotAt_lt hs
  | closure k captures =>
    obtain ⟨-, n', i', -, hsub, hcaptures⟩ := hsound
    intro u hu
    obtain ⟨kind, hkind⟩ := forall₂_mem_left hcaptures hu
    unfold CaptureOk at hkind
    split at hkind
    · rename_i hl
      have hlt := slotAt_lt hkind
      have hlen := hsub.1.length_eq
      simp only [Shape.push, List.length_cons] at hlen
      rw [if_pos hl]
      omega
    · rename_i hl
      have hlt := (List.getElem?_eq_some_iff.1 hkind).1
      simp only at hlt
      rw [if_neg hl]
      omega
  | _ => trivial

end Annotated

theorem WellTyped.verifiable {f : ObjFunction N} {sig : Signature} (h : WellTyped f sig) :
    f.Verifiable := by
  have hcount := h.certified.upvalues
  obtain ⟨cs, ha⟩ := h.annotated
  -- What is known at a reachable instruction: its place in the code and its height.
  have hreach : ∀ {o h' i}, f.Reaches o h' → f.fetch o = some i →
      ∃ n, cs.At o n i ∧ n.shape.slots.length = h' := by
    intro o h' i hr hi
    obtain ⟨n, j, hat, hlen⟩ := ha.reaches hr
    rw [ha.fetch hat] at hi
    obtain rfl := Option.some.inj hi
    exact ⟨n, hat, hlen⟩
  refine ⟨⟨cs.instrs, ha.disassembleChunk, ha.code.symm, ha.last⟩, ?_, ?_, ?_, ?_, ?_, ?_, ?_, ?_, ?_⟩
  · intro o hs
    obtain ⟨n, i, hat⟩ := ha.start_iff.1 hs
    exact ⟨i, ha.fetch hat⟩
  · intro o i hs hi
    obtain ⟨n, hat⟩ := ha.at_of_fetch hs hi
    exact ha.jumpOk hat
  · intro o i hs hi
    obtain ⟨n, hat⟩ := ha.at_of_fetch hs hi
    exact ha.constantOk hat
  · intro o i hs hi
    obtain ⟨n, hat⟩ := ha.at_of_fetch hs hi
    exact ha.upvalueIndexOk hcount hat
  · intro o h' hr
    obtain ⟨n, i, hat, -⟩ := ha.reaches hr
    exact ha.start_iff.2 ⟨n, i, hat⟩
  · intro o h₁ h₂ hr₁ hr₂
    obtain ⟨n₁, i₁, hat₁, hlen₁⟩ := ha.reaches hr₁
    obtain ⟨n₂, i₂, hat₂, hlen₂⟩ := ha.reaches hr₂
    obtain ⟨rfl, -⟩ := hat₁.unique hat₂
    exact hlen₁.symm.trans hlen₂
  · intro o h' i hr hi hret
    obtain ⟨n, hat, rfl⟩ := hreach hr hi
    exact ha.pops hat hret
  · intro o h' i hr hi
    obtain ⟨n, hat, rfl⟩ := hreach hr hi
    exact ha.reads hat
  · intro o h' i hr hi
    obtain ⟨n, hat, rfl⟩ := hreach hr hi
    exact ha.slotsOk hcount hat

theorem WellTyped.contains {f g : ObjFunction N} (hc : f.Contains g) :
    (∃ sig, WellTyped f sig) → ∃ sig, WellTyped g sig := by
  induction hc with
  | refl f => exact id
  | constant mem _ ih =>
    rintro ⟨sig, h⟩
    exact ih (h.certified.functions _ mem)

/-- Every function in a program that `compile` accepts is verifiable bytecode. -/
theorem accepted_verifiable [Double N] (source : List Char) (f g : ObjFunction N)
    (haccepts : Accepts (scanAll source) f) (hcontains : f.Contains g) : g.Verifiable := by
  obtain ⟨sig, h⟩ := WellTyped.contains hcontains ⟨_, compile_wellTyped haccepts⟩
  exact h.verifiable

/-- A function, a class with a method, and a call. -/
theorem accepted_verifiable_class : ∃ f : ObjFunction ℤ,
    Accepts (scanAll "fun f(a) \x7b return a; \x7d class A \x7b m() \x7b return this; \x7d \x7d print f(1);".toList) f ∧
      f.Verifiable := by
  have hsome : ((compile (N := ℤ) 60 (scanAll
      "fun f(a) \x7b return a; \x7d class A \x7b m() \x7b return this; \x7d \x7d print f(1);".toList)).join).isSome := by
    decide +kernel
  obtain ⟨f, hf⟩ := Option.isSome_iff_exists.1 hsome
  have haccepts := Option.join_eq_some_iff.1 hf
  exact ⟨f, ⟨60, haccepts⟩, accepted_verifiable _ f f ⟨60, haccepts⟩ (.refl f)⟩

end Lox.Clox
