import Lox.Clox.Certificate

/-!
# Where instructions are

`run` finds instructions by byte offsets.  `Code.At` says which annotated instruction starts at an
offset; `run` fetches exactly that instruction (`Certified.fetch`), and whatever follows it in an
execution is again an instruction of the code, with a shape that fits (`Sound`).
-/

namespace Lox.Clox

variable {N : Type}

/-! ### Decoding what was encoded -/

/-- The operands of an instruction can be read back. -/
def Instr.Readable (constants : List (Constant N)) : Instr → Prop
  | .jump d | .jumpIfFalse d | .loop d => d ≤ 65535
  | .closure k captures => ∃ f, functionAt constants k = some f ∧ f.upvalueCount = captures.length
  | _ => True

theorem readCaptures_bytes (us : List Upvalue) (rest : List UInt8) :
    readCaptures us.length (us.flatMap Upvalue.bytes ++ rest) = some us := by
  induction us with
  | nil => rfl
  | cons u us ih =>
    obtain ⟨index, isLocal⟩ := u
    simp only [List.flatMap_cons, Upvalue.bytes, List.length_cons, List.cons_append, List.nil_append,
      readCaptures, ih]
    cases isLocal <;> rfl

theorem decode_encode {constants : List (Constant N)} {i : Instr} (h : i.Readable constants)
    (rest : List UInt8) : decode constants (i.encode ++ rest) = some i := by
  cases i with
  | jump d | jumpIfFalse d | loop d =>
    simp only [Instr.encode, shortBytes, List.cons_append, List.nil_append, decode,
      OpCode.ofByte_byte]
    rw [readShort_ofNat h]
  | closure k captures =>
    obtain ⟨f, hf, hcount⟩ := h
    simp only [Instr.encode, List.cons_append, decode, OpCode.ofByte_byte, hf]
    rw [hcount, readCaptures_bytes]
    rfl
  | _ =>
    simp only [Instr.encode, List.cons_append, List.nil_append, decode, OpCode.ofByte_byte]

theorem fetch_encodeAll {f : ObjFunction N} (is js : List Instr) {i : Instr}
    (hcode : f.code = encodeAll (is ++ i :: js)) (hi : i.Readable f.constants) :
    f.fetch (codeSize is) = some i := by
  have hsplit : f.code = encodeAll is ++ (i.encode ++ encodeAll js) := by
    rw [hcode]
    simp [encodeAll]
  unfold Function.fetch codeSize
  rw [hsplit, List.drop_left]
  exact decode_encode hi _

/-! ### Offsets -/

/-- The instruction `i` with the note `n` starts at the offset `o`. -/
def Code.At (cs : Code) (o : ℕ) (n : Note) (i : Instr) : Prop :=
  ∃ p q : Code, cs = p ++ (n, i) :: q ∧ o = p.size

/-- An instruction starts at the offset `o`, with a shape that `a` may stand for. -/
def Code.Goes (cs : Code) (o : ℕ) (a : Shape) : Prop :=
  ∃ n i, cs.At o n i ∧ a.Sub n.shape

/-- Two instructions do not start at one offset. -/
theorem Code.At.unique {cs : Code} {o : ℕ} {n n' : Note} {i i' : Instr} (h : cs.At o n i)
    (h' : cs.At o n' i') : n = n' ∧ i = i' := by
  obtain ⟨p, q, rfl, rfl⟩ := h
  obtain ⟨p', q', heq, ho⟩ := h'
  induction p generalizing p' with
  | nil =>
    cases p' with
    | nil =>
      obtain ⟨heq, -⟩ := List.cons.inj heq
      exact ⟨congrArg Prod.fst heq, congrArg Prod.snd heq⟩
    | cons c p' =>
      obtain ⟨m, j⟩ := c
      have hj := j.size_pos
      rw [Code.size_nil, Code.size_cons] at ho
      omega
  | cons c p ih =>
    obtain ⟨m, j⟩ := c
    cases p' with
    | nil =>
      have hj := j.size_pos
      rw [Code.size_nil, Code.size_cons] at ho
      omega
    | cons c' p' =>
      obtain ⟨rfl, hrest⟩ := List.cons.inj heq
      refine ih p' hrest ?_
      simp only [Code.size_cons] at ho
      omega

/-- A target of a jump is the start of an instruction, or the end of the code. -/
theorem Code.target_some {q : Code} {z b : Shape} {d : ℕ} (h : q.target z d = some b) :
    (∃ n i, q.At d n i ∧ n.shape = b) ∨ (d = q.size ∧ b = z) := by
  induction q generalizing d with
  | nil =>
    simp only [Code.target] at h
    split at h
    · rename_i hd
      exact .inr ⟨hd, (Option.some.inj h).symm⟩
    · cases h
  | cons c q ih =>
    obtain ⟨n, i⟩ := c
    simp only [Code.target] at h
    split at h
    · rename_i hd
      exact .inl ⟨n, i, ⟨[], q, rfl, hd⟩, Option.some.inj h⟩
    · rename_i hd
      split at h
      · cases h
      · rename_i hlt
        rcases ih h with ⟨n', i', ⟨p, q', hq, hp⟩, hb⟩ | ⟨hsize, hb⟩
        · refine .inl ⟨n', i', ⟨(n, i) :: p, q', by rw [hq]; rfl, ?_⟩, hb⟩
          rw [Code.size_cons]
          omega
        · refine .inr ⟨?_, hb⟩
          rw [Code.size_cons]
          omega

/-- The end of a function: nothing goes there. -/
def Shape.end_ : Shape := ⟨[], none⟩

theorem Shape.Sub.slots_ne {a b : Shape} (h : a.Sub b) (ha : a.slots ≠ []) : b.slots ≠ [] := by
  intro hb
  have hlen := h.1.length_eq
  rw [hb, List.length_nil, List.length_eq_zero_iff] at hlen
  exact ha hlen

theorem Code.At.cons {p : Code} {cs : Code} {o : ℕ} {n : Note} {i : Instr} (h : cs.At o n i) :
    Code.At (p ++ cs) (p.size + o) n i := by
  obtain ⟨p', q, rfl, rfl⟩ := h
  exact ⟨p ++ p', q, by simp, by rw [Code.size_append]⟩

theorem Code.goes_target {p q : Code} {a b : Shape} {d : ℕ}
    (h : q.target .end_ d = some b) (hab : a.Sub b) (ha : a.slots ≠ []) :
    Code.Goes (p ++ q) (p.size + d) a := by
  rcases Code.target_some h with ⟨n, i, hat, rfl⟩ | ⟨-, rfl⟩
  · exact ⟨n, i, hat.cons, hab⟩
  · exact absurd rfl (hab.slots_ne ha)

theorem Code.goes_entry {p q : Code} {a : Shape} (h : a.Sub (q.entry .end_)) (ha : a.slots ≠ []) :
    Code.Goes (p ++ q) p.size a :=
  Code.goes_target (d := 0) (Code.target_zero q _) h ha

/-! ### What follows an instruction -/

section Sound

variable (W : ObjFunction N → Signature → Prop) (I : Info N) (cs : Code)

/-- The instruction `i` at the offset `o` with the shape `a` has its operands, and what comes after
it fits. -/
def Sound (o : ℕ) (n : Note) : Instr → Prop
  | .jump d => cs.Goes (o + 3 + d) n.shape
  | .jumpIfFalse d =>
      n.shape.peekable = true ∧ cs.Goes (o + 3) n.shape ∧ cs.Goes (o + 3 + d) n.shape
  | .loop d => d ≤ o + 3 ∧ cs.Goes (o + 3 - d) n.shape
  | .return_ => n.shape.peekable = true
  | .closure k captures =>
      (∃ f, functionAt I.constants k = some f ∧ f.upvalueCount = captures.length ∧ W f n.sig) ∧
      ∃ n' i', cs.At (o + (Instr.closure k captures).size) n' i' ∧
        (n.shape.push (if n.sig.method then .meth else .any)).Sub n'.shape ∧
        List.Forall₂ (CaptureOk I n'.shape) captures n.sig.upvalues
  | i => ∃ b, transfer I i n.shape = some b ∧ cs.Goes (o + i.size) b

end Sound

section Positions

variable {W : ObjFunction N → Signature → Prop} {I : Info N} {a b : Shape}

theorem popSlots_length {k : ℕ} {ss rs : List Slot} (h : popSlots k ss = some rs) :
    k < ss.length ∧ rs.length = ss.length - k := by
  induction k generalizing ss with
  | zero =>
    cases ss with
    | nil => cases h
    | cons s ss =>
      obtain rfl := Option.some.inj h
      simp
  | succ k ih =>
    cases ss with
    | nil => cases h
    | cons s ss =>
      simp only [popSlots] at h
      split at h
      · obtain ⟨hlt, hlen⟩ := ih h
        simp only [List.length_cons]
        omega
      · cases h

theorem Shape.replace_length {k : ℕ} {ks : List Kind} (h : a.replace k ks = some b) :
    k < a.slots.length ∧ b.slots.length = a.slots.length - k + ks.length := by
  simp only [Shape.replace, Option.map_eq_some_iff] at h
  obtain ⟨r, hr, rfl⟩ := h
  obtain ⟨hlt, hlen⟩ := popSlots_length hr
  refine ⟨hlt, ?_⟩
  simp only [List.length_append, List.length_map]
  omega

theorem Shape.length_of_peekable (h : a.peekable = true) : 1 < a.slots.length := by
  unfold Shape.peekable at h
  split at h
  · rename_i hs
    simp [hs]
  · cases h

/-- The stack effect of an instruction on shapes. -/
theorem transfer_length {i : Instr} (h : transfer I i a = some b) (ha : a.slots ≠ []) :
    i.pops < a.slots.length ∧ i.reads ≤ a.slots.length ∧
      b.slots.length = a.slots.length - i.pops + i.pushes := by
  have hpos := List.length_pos_of_ne_nil ha
  cases i with
  | closure | jump | jumpIfFalse | loop | return_ => cases h
  | nil | true_ | false_ =>
    obtain rfl := Option.some.inj h
    exact ⟨hpos, Nat.zero_le _, rfl⟩
  | constant k =>
    simp only [transfer, Option.ite_none_right_eq_some, Option.some.injEq] at h
    obtain ⟨-, rfl⟩ := h
    exact ⟨hpos, Nat.zero_le _, rfl⟩
  | getLocal k | getGlobal k | getUpvalue k | class_ k =>
    simp only [transfer, Option.bind_eq_bind, Option.bind_eq_some_iff] at h
    obtain ⟨_, -, h⟩ := h
    obtain rfl := Option.some.inj h
    exact ⟨hpos, Nat.zero_le _, rfl⟩
  | setLocal k | setGlobal k | setUpvalue k =>
    simp only [transfer, Option.bind_eq_bind, Option.bind_eq_some_iff, Option.ite_none_right_eq_some,
      Bool.and_eq_true, Option.some.injEq] at h
    obtain ⟨_, -, h, rfl⟩ := h
    exact ⟨hpos, hpos, rfl⟩
  | pop | print | equal | greater | less | add | subtract | multiply | divide | not | negate | call =>
    obtain ⟨hlt, hlen⟩ := Shape.replace_length h
    exact ⟨hlt, hlt.le, hlen⟩
  | getProperty k | setProperty k | invoke k =>
    simp only [transfer, Option.bind_eq_bind, Option.bind_eq_some_iff] at h
    obtain ⟨_, -, h⟩ := h
    obtain ⟨hlt, hlen⟩ := Shape.replace_length h
    exact ⟨hlt, hlt.le, hlen⟩
  | superInvoke k | getSuper k =>
    simp only [transfer, Option.bind_eq_bind, Option.bind_eq_some_iff,
      Option.ite_none_right_eq_some] at h
    obtain ⟨_, -, -, h⟩ := h
    obtain ⟨hlt, hlen⟩ := Shape.replace_length h
    exact ⟨hlt, hlt.le, hlen⟩
  | defineGlobal k =>
    simp only [transfer, Option.bind_eq_bind, Option.bind_eq_some_iff] at h
    obtain ⟨_, -, c, hc, h⟩ := h
    obtain rfl := Option.some.inj h
    obtain ⟨hlt, hlen⟩ := Shape.replace_length hc
    exact ⟨hlt, hlt.le, hlen⟩
  | closeUpvalue =>
    simp only [transfer] at h
    split at h
    · rename_i hs
      obtain rfl := Option.some.inj h
      rw [hs]
      exact ⟨Nat.succ_lt_succ (Nat.succ_pos _), Nat.succ_le_succ (Nat.zero_le _), rfl⟩
    · cases h
  | method k =>
    simp only [transfer, Option.bind_eq_bind, Option.bind_eq_some_iff] at h
    obtain ⟨_, -, h⟩ := h
    split at h
    · rename_i hs
      simp only [Option.ite_none_right_eq_some, Option.some.injEq] at h
      obtain ⟨-, rfl⟩ := h
      rw [hs]
      exact ⟨Nat.succ_lt_succ (Nat.succ_pos _), Nat.le_add_left _ _, rfl⟩
    · cases h
  | inherit =>
    simp only [transfer] at h
    split at h
    · rename_i hs
      simp only [Option.ite_none_right_eq_some, Option.some.injEq] at h
      obtain ⟨-, rfl⟩ := h
      rw [hs]
      exact ⟨Nat.succ_lt_succ (Nat.succ_pos _), Nat.le_add_left _ _, rfl⟩
    · cases h

theorem transfer_ne {i : Instr} (h : transfer I i a = some b) (ha : a.slots ≠ []) :
    b.slots ≠ [] := by
  obtain ⟨hpops, -, hlen⟩ := transfer_length h ha
  intro h0
  rw [h0, List.length_nil] at hlen
  omega

theorem Cert.at {p cs q : Code} {z : Shape} (h : Cert W I p cs q z) {o : ℕ} {n : Note} {i : Instr}
    (hat : cs.At o n i) : ∃ p' q', cs = p' ++ (n, i) :: q' ∧ o = Code.size p' ∧
      Ok W I (p ++ p') n i (q' ++ q) z := by
  obtain ⟨p', q', rfl, rfl⟩ := hat
  refine ⟨p', q', rfl, rfl, ?_⟩
  obtain ⟨-, h₂⟩ := Cert.append.1 h
  exact (Cert.cons.1 h₂).1

/-- Certified code is sound everywhere. -/
theorem Cert.sound {cs : Code} (h : Cert W I [] cs [] .end_) {o : ℕ} {n : Note} {i : Instr}
    (hat : cs.At o n i) :
    n.shape.slots ≠ [] ∧ i.Readable I.constants ∧ Sound W I cs o n i := by
  obtain ⟨p, q, hcs, rfl, hne, hok⟩ := h.at hat
  rw [List.append_nil, List.nil_append] at hok
  have hsplit : cs = (p ++ [(n, i)]) ++ q := by simp [hcs]
  have hsize : Code.size (p ++ [(n, i)]) = Code.size p + i.size := by
    rw [Code.size_append, Code.size_cons, Code.size_nil, Nat.add_zero]
  have hnext : ∀ b, Shape.Sub b (Code.entry q .end_) → b.slots ≠ [] →
      cs.Goes (Code.size p + i.size) b := by
    intro b hb hbne
    have hgo := Code.goes_entry (p := p ++ [(n, i)]) hb hbne
    rwa [hsize, ← hsplit] at hgo
  have htarget : ∀ d b, Code.target q .end_ d = some b → n.shape.Sub b →
      cs.Goes (Code.size p + i.size + d) n.shape := by
    intro d b hb hsub
    have hgo := Code.goes_target (p := p ++ [(n, i)]) hb hsub hne
    rwa [hsize, ← hsplit] at hgo
  cases i with
  | jump d =>
    obtain ⟨hd, b, hb, hsub⟩ := hok
    exact ⟨hne, hd, htarget d b hb hsub⟩
  | jumpIfFalse d =>
    obtain ⟨hd, hpeek, hentry, b, hb, hsub⟩ := hok
    exact ⟨hne, hd, hpeek, hnext _ hentry hne, htarget d b hb hsub⟩
  | loop d =>
    obtain ⟨hd, hle, b, hb, hsub⟩ := hok
    have hgo := Code.goes_target (p := []) hb hsub hne
    rw [List.nil_append, ← hcs, Code.size_nil, Nat.zero_add] at hgo
    exact ⟨hne, hd, hle, hgo⟩
  | return_ => exact ⟨hne, trivial, hok⟩
  | closure k captures =>
    obtain ⟨⟨f, hf, hcount, hw⟩, hsub, hcaptures⟩ := hok
    refine ⟨hne, ⟨f, hf, hcount⟩, ⟨f, hf, hcount, hw⟩, ?_⟩
    cases q with
    | nil => exact absurd rfl (hsub.slots_ne (by simp [Shape.push]))
    | cons c q =>
      obtain ⟨n', i'⟩ := c
      exact ⟨n', i', ⟨p ++ [(n, .closure k captures)], q, hsplit, hsize.symm⟩, hsub, hcaptures⟩
  | _ =>
    obtain ⟨b, hb, hsub⟩ := hok
    exact ⟨hne, trivial, b, hb, hnext b hsub (transfer_ne hb hne)⟩

end Positions

/-! ### Functions with a certificate -/

section Functions

variable {W W' : ObjFunction N → Signature → Prop} {I : Info N}

theorem Ok.mono (hW : ∀ g t, W g t → W' g t) {p q : Code} {n : Note} {i : Instr} {z : Shape}
    (h : Ok W I p n i q z) : Ok W' I p n i q z := by
  obtain ⟨hne, h⟩ := h
  refine ⟨hne, ?_⟩
  cases i with
  | closure k captures =>
    obtain ⟨⟨f, hf, hcount, hw⟩, hrest⟩ := h
    exact ⟨⟨f, hf, hcount, hW f _ hw⟩, hrest⟩
  | _ => exact h

theorem Cert.mono (hW : ∀ g t, W g t → W' g t) {p cs q : Code} {z : Shape}
    (h : Cert W I p cs q z) : Cert W' I p cs q z := by
  induction cs generalizing p with
  | nil => trivial
  | cons c cs ih =>
    obtain ⟨n, i⟩ := c
    obtain ⟨hok, hrest⟩ := Cert.cons.1 h
    exact Cert.cons.2 ⟨hok.mono hW, ih hrest⟩

theorem WellTyped.certified {f : ObjFunction N} {sig : Signature} (h : WellTyped f sig) :
    Certified WellTyped f sig := by
  cases h with
  | intro W _ _ nested hcert =>
    obtain ⟨cs, hcode, hlast, hentry, hcs⟩ := hcert.code
    refine ⟨hcert.upvalues, fun g hg => ?_, cs, hcode, hlast, hentry, hcs.mono nested⟩
    obtain ⟨t, ht⟩ := hcert.functions g hg
    exact ⟨t, nested g t ht⟩

/-- A function together with its annotated code. -/
structure Annotated (f : ObjFunction N) (sig : Signature) (cs : Code) : Prop where
  code : f.code = encodeAll cs.instrs
  last : cs.instrs.getLast? = some .return_
  entry : (entryShape f.arity sig.method).Sub (cs.entry .end_)
  cert : Cert WellTyped ⟨f.constants, sig.upvalues⟩ [] cs [] .end_

theorem WellTyped.annotated {f : ObjFunction N} {sig : Signature} (h : WellTyped f sig) :
    ∃ cs, Annotated f sig cs := by
  obtain ⟨cs, hcode, hlast, hentry, hcert⟩ := h.certified.code
  exact ⟨cs, hcode, hlast, hentry, hcert⟩

variable {f : ObjFunction N} {sig : Signature} {cs : Code} {o : ℕ} {n : Note} {i : Instr}

/-- `run` fetches the instruction that is there. -/
theorem Annotated.fetch (h : Annotated f sig cs) (hat : cs.At o n i) : f.fetch o = some i := by
  obtain ⟨-, hreadable, -⟩ := h.cert.sound hat
  obtain ⟨p, q, rfl, rfl⟩ := hat
  exact fetch_encodeAll p.instrs q.instrs (by rw [h.code]; simp) hreadable

theorem Annotated.sound (h : Annotated f sig cs) (hat : cs.At o n i) :
    n.shape.slots ≠ [] ∧ Sound WellTyped ⟨f.constants, sig.upvalues⟩ cs o n i := by
  obtain ⟨hne, -, hsound⟩ := h.cert.sound hat
  exact ⟨hne, hsound⟩

theorem entryShape_ne (arity : ℕ) (method : Bool) : (entryShape arity method).slots ≠ [] := by
  simp [entryShape]

/-- A function starts at its first instruction. -/
theorem Annotated.goes_entry (h : Annotated f sig cs) :
    cs.Goes 0 (entryShape f.arity sig.method) :=
  Code.goes_entry (p := []) h.entry (entryShape_ne _ _)

end Functions

end Lox.Clox
