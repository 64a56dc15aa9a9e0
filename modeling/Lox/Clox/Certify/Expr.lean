import Lox.Clox.Certify.Chain

/-!
# Certificates for expressions

The code of an expression pushes one value on whatever is in the frame and leaves the locals as
they are (`genExpr_ok`).  `ExprOk` states it for any number of pushed values, so that operands,
arguments and operators compose.
-/

namespace Lox.Clox

variable {N : Type}

/-- Slots of temporaries with the given kinds. -/
def temps (ks : List Kind) : List Slot := ks.map fun k => ⟨k, false⟩

@[simp] theorem temps_nil : temps [] = [] := rfl

@[simp] theorem temps_cons (k : Kind) (ks : List Kind) : temps (k :: ks) = ⟨k, false⟩ :: temps ks := rfl

@[simp] theorem temps_append (ks ls : List Kind) : temps (ks ++ ls) = temps ks ++ temps ls := by
  simp [temps]

/-- The code `is` leads from `x` to `x'` and pushes values of the kinds `ks`, the last one first,
on any temporaries. -/
def ExprOk (x x' : Ctx N) (is : List Instr) (ks : List Kind) : Prop :=
  x.Grows x' ∧ ∀ F Fs, Chain x'.compilers (F :: Fs) → ∀ T,
    Frag WellTyped F.info ⟨T ++ x.frame F, none⟩ is ⟨temps ks ++ (T ++ x.frame F), none⟩

theorem ExprOk.nil {x : Ctx N} (h : Good x.compilers) : ExprOk x x [] [] :=
  ⟨Ctx.Grows.refl h, fun _ _ _ _ => Frag.nil (Shape.Sub.refl _)⟩

theorem ExprOk.append {x y z : Ctx N} {is js : List Instr} {ks ls : List Kind}
    (h₁ : ExprOk x y is ks) (h₂ : ExprOk y z js ls) : ExprOk x z (is ++ js) (ls ++ ks) := by
  refine ⟨h₁.1.trans h₂.1, fun F Fs hchain T => ?_⟩
  have f₁ := h₁.2 F Fs (Chain.mono h₁.1.good h₂.1.chain hchain) T
  have f₂ := h₂.2 F Fs hchain (temps ks ++ T)
  rw [h₁.1.frame_eq, List.append_assoc] at f₂
  refine f₁.append ?_
  rw [temps_append, List.append_assoc]
  exact f₂

/-- A context change without code. -/
theorem ExprOk.grow {x y z : Ctx N} {is : List Instr} {ks : List Kind} (h₁ : x.Grows y)
    (h₂ : ExprOk y z is ks) : ExprOk x z is ks := by
  refine ⟨h₁.trans h₂.1, fun F Fs hchain T => ?_⟩
  have f := h₂.2 F Fs hchain T
  rwa [h₁.frame_eq] at f

theorem ExprOk.grow_right {x y z : Ctx N} {is : List Instr} {ks : List Kind}
    (h₁ : ExprOk x y is ks) (h₂ : y.Grows z) : ExprOk x z is ks :=
  ⟨h₁.1.trans h₂, fun F Fs hchain T => h₁.2 F Fs (Chain.mono h₁.1.good h₂.chain hchain) T⟩

/-- An instruction that works on temporaries only. -/
theorem ExprOk.op {x y : Ctx N} {is : List Instr} {ks ls : List Kind} {i : Instr}
    (h : ExprOk x y is ks)
    (hi : ∀ F Fs, Chain y.compilers (F :: Fs) → ∀ R, R ≠ [] →
      transfer F.info i ⟨temps ks ++ R, none⟩ = some ⟨temps ls ++ R, none⟩) :
    ExprOk x y (is ++ [i]) ls := by
  refine ⟨h.1, fun F Fs hchain T => (h.2 F Fs hchain T).append ?_⟩
  have hne : T ++ x.frame F ≠ [] := by
    rw [← h.1.frame_eq]
    simp [Ctx.frame_ne h.1.good]
  refine Frag.instr (by simp [hne]) (hi F Fs hchain _ hne)

theorem ExprOk.push {x : Ctx N} {i : Instr} {k : Kind} (hgood : Good x.compilers)
    (hi : ∀ F Fs, Chain x.compilers (F :: Fs) → ∀ T,
      transfer F.info i ⟨T ++ x.frame F, none⟩ = some ⟨⟨k, false⟩ :: (T ++ x.frame F), none⟩) :
    ExprOk x x [i] [k] :=
  ⟨Ctx.Grows.refl hgood, fun F Fs hchain T =>
    Frag.instr (by simp [Ctx.frame_ne hgood]) (hi F Fs hchain T)⟩

theorem popSlots_temps {ks : List Kind} {R : List Slot} (hks : ∀ k ∈ ks, k ≠ .meth) (hR : R ≠ []) :
    popSlots ks.length (temps ks ++ R) = some R := by
  induction ks with
  | nil =>
    cases R with
    | nil => exact absurd rfl hR
    | cons s ss => rfl
  | cons k ks ih =>
    have hk : k ≠ .meth := hks k (by simp)
    simp only [List.length_cons, temps_cons, List.cons_append, popSlots, Slot.plain, Bool.not_false,
      Bool.true_and]
    rw [if_pos (by simpa using hk)]
    exact ih fun k' hk' => hks k' (by simp [hk'])

theorem replace_temps (ks ls : List Kind) {R : List Slot} (hks : ∀ k ∈ ks, k ≠ .meth) (hR : R ≠ []) :
    Shape.replace ks.length ls ⟨temps ks ++ R, none⟩ = some ⟨temps ls ++ R, none⟩ := by
  simp only [Shape.replace, popSlots_temps hks hR, Option.map_some]
  rfl

/-! ### Variables and constants -/

theorem VarRef.transfer_load {I : Info N} {slots T : List Slot} {name : Name} {kind : Option Kind}
    {ref : VarRef} (h : ref.Has I slots name kind) :
    transfer I ref.load ⟨T ++ slots, none⟩
      = some ⟨⟨kind.getD .any, false⟩ :: (T ++ slots), none⟩ := by
  cases ref with
  | local_ slot =>
    obtain ⟨s, hs, rfl⟩ := h
    simp [VarRef.load, transfer, slotAt_append T (slotAt_lt hs), hs, Shape.push]
  | upvalue index =>
    obtain ⟨k, hk, rfl⟩ := h
    simp [VarRef.load, transfer, hk, Shape.push]
  | global k =>
    obtain ⟨hk, rfl⟩ := h
    simp [VarRef.load, transfer, hk, Shape.push]

theorem VarRef.transfer_store {I : Info N} {slots T : List Slot} {name : Name} {kind : Option Kind}
    {ref : VarRef} (h : ref.Has I slots name kind) (hkind : kind.getD .any = .any)
    (hne : T ++ slots ≠ []) :
    transfer I ref.store ⟨⟨.any, false⟩ :: (T ++ slots), none⟩
      = some ⟨⟨.any, false⟩ :: (T ++ slots), none⟩ := by
  have hpeek : Shape.peekable ⟨⟨.any, false⟩ :: (T ++ slots), none⟩ = true := by
    unfold Shape.peekable
    cases hT : T ++ slots with
    | nil => exact absurd hT hne
    | cons s ss => simp
  cases ref with
  | local_ slot =>
    obtain ⟨s, hs, rfl⟩ := h
    rw [Option.getD_some] at hkind
    have hs' : slotAt slot.toNat (⟨.any, false⟩ :: (T ++ slots)) = some s := by
      rw [← List.cons_append, slotAt_append _ (slotAt_lt hs)]
      exact hs
    simp [VarRef.store, transfer, hs', hkind, hpeek, Shape.forget]
  | upvalue index =>
    obtain ⟨k, hk, rfl⟩ := h
    rw [Option.getD_some] at hkind
    simp [VarRef.store, transfer, hk, hkind, hpeek, Shape.forget]
  | global k =>
    obtain ⟨hk, rfl⟩ := h
    simp [VarRef.store, transfer, hk, hpeek, Shape.forget]

theorem loadVariable_ok {name : Name} {ref : VarRef} {x x' : Ctx N} {k : Kind}
    (h : x.resolveVariable name = some (ref, x')) (hgood : Good x.compilers)
    (hk : (scopeKind name x.compilers).getD .any = k) : ExprOk x x' [ref.load] [k] := by
  obtain ⟨hgrow, hhas⟩ := resolveVariable_ok h hgood
  refine ⟨hgrow, fun F Fs hchain T => Frag.instr ?_ ?_⟩
  · simp [Ctx.frame_ne hgood]
  · rw [VarRef.transfer_load (hhas F Fs hchain), hk]
    rfl

theorem plain_kind {name : Name} (hname : PlainName name) {cs : List (Compiler N)} (h : Good cs) :
    (scopeKind name cs).getD .any = .any := by
  cases hs : scopeKind name cs with
  | none => rfl
  | some k => exact scopeKind_plain hname h hs

theorem stringAt_of_getElem? {constants : List (Constant N)} {k : UInt8} {name : Name}
    (h : constants[k.toNat]? = some (.string name)) : stringAt constants k = some name := by
  simp [stringAt, h]

theorem constant_ok {v : Constant N} {k : UInt8} {x x' : Ctx N}
    (h : x.makeConstant v = some (k, x')) (hgood : Good x.compilers)
    (hv : ∀ g, v ≠ .function g) : ExprOk x x' [.constant k] [.any] := by
  obtain ⟨hgrow, hk⟩ := makeConstant_ok h hgood fun g hg => absurd hg (hv g)
  refine ⟨hgrow, fun F Fs hchain T => Frag.instr (by simp [Ctx.frame_ne hgood]) ?_⟩
  have hconst := hk F Fs hchain
  simp only [transfer, literalAt, show F.info.constants = F.constants from rfl, hconst]
  cases v with
  | number n => rfl
  | string s => rfl
  | function g => exact absurd rfl (hv g)

theorem Shape.sub_any {k : Kind} (hk : k ≠ .meth) {R : List Slot} (hR : R ≠ []) :
    Shape.Sub ⟨⟨k, false⟩ :: R, none⟩ ⟨⟨.any, false⟩ :: R, none⟩ := by
  refine ⟨.cons ⟨fun h => ?_, fun _ => .inr ⟨hk, rfl⟩⟩ (Shape.Sub.refl ⟨R, none⟩).1, .inl rfl, ?_⟩
  · cases h
  · simp [hR]

/-! ### The expressions -/

theorem code_ok (op : BinaryOp) {x y : Ctx N} {is : List Instr}
    (h : ExprOk x y is [.any, .any]) : ExprOk x y (is ++ op.code) [.any] := by
  have two : ∀ (I : Info N) (R : List Slot), R ≠ [] →
      Shape.replace 2 [.any] ⟨temps [.any, .any] ++ R, none⟩ = some ⟨temps [.any] ++ R, none⟩ :=
    fun _ _ hR => replace_temps [.any, .any] _ (by simp) hR
  have one : ∀ R : List Slot, R ≠ [] →
      Shape.replace 1 [.any] ⟨temps [.any] ++ R, none⟩ = some ⟨temps [.any] ++ R, none⟩ :=
    fun _ hR => replace_temps [.any] _ (by simp) hR
  have single : ∀ i : Instr, (∀ I : Info N, transfer I i = Shape.replace 2 [.any]) →
      ExprOk x y (is ++ [i]) [.any] :=
    fun i hi => h.op fun F _ _ R hR => by rw [hi]; exact two F.info R hR
  have negated : ∀ i : Instr, (∀ I : Info N, transfer I i = Shape.replace 2 [.any]) →
      ExprOk x y (is ++ [i, .not]) [.any] := by
    intro i hi
    have hnot : ExprOk x y ((is ++ [i]) ++ [.not]) [.any] :=
      (single i hi).op fun F _ _ R hR => one R hR
    simpa using hnot
  cases op with
  | bangEqual => exact negated _ fun _ => rfl
  | equalEqual => exact single _ fun _ => rfl
  | greater => exact single _ fun _ => rfl
  | greaterEqual => exact negated _ fun _ => rfl
  | less => exact single _ fun _ => rfl
  | lessEqual => exact negated _ fun _ => rfl
  | plus => exact single _ fun _ => rfl
  | minus => exact single _ fun _ => rfl
  | star => exact single _ fun _ => rfl
  | slash => exact single _ fun _ => rfl

theorem peekable_temp {T : List Slot} (hT : T ≠ []) :
    Shape.peekable ⟨⟨.any, false⟩ :: T, none⟩ = true := by
  cases T with
  | nil => exact absurd rfl hT
  | cons s ss => simp [Shape.peekable]

theorem transfer_pop {I : Info N} {T : List Slot} (hT : T ≠ []) :
    transfer I .pop ⟨⟨.any, false⟩ :: T, none⟩ = some ⟨T, none⟩ :=
  replace_temps [.any] [] (by simp) hT

/-- The right operand of `and` and `or`, after the left one has been dropped. -/
theorem ExprOk.dropped {x z : Ctx N} {js : List Instr} (h : ExprOk x z js [.any]) (F : Final N)
    (Fs : List (Final N)) (hchain : Chain z.compilers (F :: Fs)) (T : List Slot) :
    Frag WellTyped F.info ⟨⟨.any, false⟩ :: (T ++ x.frame F), none⟩ (.pop :: js)
      ⟨⟨.any, false⟩ :: (T ++ x.frame F), none⟩ := by
  have hne : T ++ x.frame F ≠ [] := by
    rw [← h.1.frame_eq]
    simp [Ctx.frame_ne h.1.good]
  exact (Frag.instr (by simp) (transfer_pop hne)).append (h.2 F Fs hchain T)

theorem args_lt {es : List (Expr N)} {x x' : Ctx N} {is : List Instr}
    (h : genArgs es x = some (is, x')) : es.length ≤ 255 := by
  cases es with
  | nil => simp
  | cons e es =>
    simp only [genArgs, Option.bind_eq_bind, Option.bind_eq_some_iff, Prod.exists] at h
    obtain ⟨_, _, -, _, _, -, h⟩ := h
    split at h
    · cases h
    · simp only [List.length_cons]
      omega

theorem replicate_ne_meth {n : ℕ} : ∀ k ∈ List.replicate n Kind.any ++ [Kind.any], k ≠ .meth := by
  intro k hk
  simp only [List.mem_append, List.mem_replicate, List.mem_singleton] at hk
  rcases hk with ⟨-, rfl⟩ | rfl <;> simp

theorem replace_call {n : ℕ} (hn : n ≤ 255) {R : List Slot} (hR : R ≠ []) :
    Shape.replace ((UInt8.ofNat n).toNat + 1) [.any]
      ⟨temps (List.replicate n .any ++ [.any]) ++ R, none⟩ = some ⟨temps [.any] ++ R, none⟩ := by
  have h := replace_temps (List.replicate n Kind.any ++ [.any]) [.any]
    replicate_ne_meth hR
  rw [UInt8.toNat_ofNat', Nat.mod_eq_of_lt (by omega)]
  simpa using h

mutual

/-- The code of an expression pushes its value. -/
theorem genExpr_ok (e : Expr N) : ∀ {x x' : Ctx N} {is : List Instr},
    genExpr e x = some (is, x') → e.Named → Good x.compilers → ScopeOk x →
    ExprOk x x' is [.any] := by
  intro x x' is h hn hgood hscope
  cases e with
  | nil =>
    obtain ⟨rfl, rfl⟩ := Prod.mk.inj (Option.some.inj h)
    exact ExprOk.push hgood fun _ _ _ _ => rfl
  | true_ =>
    obtain ⟨rfl, rfl⟩ := Prod.mk.inj (Option.some.inj h)
    exact ExprOk.push hgood fun _ _ _ _ => rfl
  | false_ =>
    obtain ⟨rfl, rfl⟩ := Prod.mk.inj (Option.some.inj h)
    exact ExprOk.push hgood fun _ _ _ _ => rfl
  | number v =>
    simp only [genExpr, Option.bind_eq_bind, Option.bind_eq_some_iff, Prod.exists] at h
    obtain ⟨k, y, hk, h⟩ := h
    obtain ⟨rfl, rfl⟩ := Prod.mk.inj (Option.some.inj h)
    exact constant_ok hk hgood fun _ hg => by cases hg
  | string v =>
    simp only [genExpr, Option.bind_eq_bind, Option.bind_eq_some_iff, Prod.exists] at h
    obtain ⟨k, y, hk, h⟩ := h
    obtain ⟨rfl, rfl⟩ := Prod.mk.inj (Option.some.inj h)
    exact constant_ok hk hgood fun _ hg => by cases hg
  | grouping e =>
    simp only [genExpr] at h
    exact genExpr_ok e h hn hgood hscope
  | unary op e =>
    simp only [genExpr, Option.bind_eq_bind, Option.bind_eq_some_iff, Prod.exists] at h
    obtain ⟨is, y, h₁, h⟩ := h
    obtain ⟨rfl, rfl⟩ := Prod.mk.inj (Option.some.inj h)
    refine (genExpr_ok e h₁ hn hgood hscope).op fun F _ _ R hR => ?_
    cases op <;> exact replace_temps [.any] _ (by simp) hR
  | binary op l r =>
    simp only [genExpr, Option.bind_eq_bind, Option.bind_eq_some_iff, Prod.exists] at h
    obtain ⟨is, y, h₁, js, z, h₂, h⟩ := h
    obtain ⟨rfl, rfl⟩ := Prod.mk.inj (Option.some.inj h)
    have ok₁ := genExpr_ok l h₁ hn.1 hgood hscope
    exact code_ok op (ok₁.append (genExpr_ok r h₂ hn.2 ok₁.1.good (ok₁.1.scopeOk hscope)))
  | and_ l r =>
    simp only [genExpr, Option.bind_eq_bind, Option.bind_eq_some_iff, Prod.exists] at h
    obtain ⟨is, y, h₁, js, z, h₂, jump, hj, h⟩ := h
    obtain ⟨rfl, rfl⟩ := Prod.mk.inj (Option.some.inj h)
    obtain ⟨hle, rfl⟩ := jumpOver_some hj
    have ok₁ := genExpr_ok l h₁ hn.1 hgood hscope
    have ok₂ := genExpr_ok r h₂ hn.2 ok₁.1.good (ok₁.1.scopeOk hscope)
    refine ⟨ok₁.1.trans ok₂.1, fun F Fs hchain T => ?_⟩
    have drop := ok₂.dropped F Fs hchain T
    rw [ok₁.1.frame_eq] at drop
    rw [List.append_assoc]
    exact (ok₁.2 F Fs (Chain.mono ok₁.1.good ok₂.1.chain hchain) T).append
      (Frag.skip (peekable_temp (by simp [Ctx.frame_ne hgood])) (Shape.Sub.refl _) hle drop)
  | or_ l r =>
    simp only [genExpr, Option.bind_eq_bind, Option.bind_eq_some_iff, Prod.exists] at h
    obtain ⟨is, y, h₁, js, z, h₂, jump, hj, h⟩ := h
    obtain ⟨rfl, rfl⟩ := Prod.mk.inj (Option.some.inj h)
    obtain ⟨hle, rfl⟩ := jumpOver_some hj
    have ok₁ := genExpr_ok l h₁ hn.1 hgood hscope
    have ok₂ := genExpr_ok r h₂ hn.2 ok₁.1.good (ok₁.1.scopeOk hscope)
    refine ⟨ok₁.1.trans ok₂.1, fun F Fs hchain T => ?_⟩
    have drop := ok₂.dropped F Fs hchain T
    rw [ok₁.1.frame_eq] at drop
    rw [List.append_assoc]
    exact (ok₁.2 F Fs (Chain.mono ok₁.1.good ok₂.1.chain hchain) T).append
      (Frag.skipUnless (peekable_temp (by simp [Ctx.frame_ne hgood])) (Shape.Sub.refl _) hle drop)
  | variable_ name =>
    simp only [genExpr, Option.bind_eq_bind, Option.bind_eq_some_iff, Prod.exists] at h
    obtain ⟨ref, y, h₁, h⟩ := h
    obtain ⟨rfl, rfl⟩ := Prod.mk.inj (Option.some.inj h)
    exact loadVariable_ok h₁ hgood (plain_kind hn hgood)
  | assign name e =>
    simp only [genExpr, Option.bind_eq_bind, Option.bind_eq_some_iff, Prod.exists] at h
    obtain ⟨ref, y, h₁, is, z, h₂, h⟩ := h
    obtain ⟨rfl, rfl⟩ := Prod.mk.inj (Option.some.inj h)
    obtain ⟨hgrow, hhas⟩ := resolveVariable_ok h₁ hgood
    have ok := genExpr_ok e h₂ hn.2 hgrow.good (hgrow.scopeOk hscope)
    refine ⟨hgrow.trans ok.1, fun F Fs hchain T => ?_⟩
    have f := ok.2 F Fs hchain T
    rw [hgrow.frame_eq] at f
    refine f.append (Frag.instr (by simp) ?_)
    exact VarRef.transfer_store (T := T)
      (hhas F Fs (Chain.mono hgrow.good ok.1.chain hchain)) (plain_kind hn.1 hgood) (by simp [Ctx.frame_ne hgood])
  | call callee args =>
    simp only [genExpr, Option.bind_eq_bind, Option.bind_eq_some_iff, Prod.exists] at h
    obtain ⟨is, y, h₁, js, z, h₂, h⟩ := h
    obtain ⟨rfl, rfl⟩ := Prod.mk.inj (Option.some.inj h)
    have ok₁ := genExpr_ok callee h₁ hn.1 hgood hscope
    have ok₂ := genArgs_ok args h₂ hn.2 ok₁.1.good (ok₁.1.scopeOk hscope)
    exact (ok₁.append ok₂).op fun F _ _ R hR => replace_call (args_lt h₂) hR
  | get object name =>
    simp only [genExpr, Option.bind_eq_bind, Option.bind_eq_some_iff, Prod.exists] at h
    obtain ⟨is, y, h₁, k, z, h₂, h⟩ := h
    obtain ⟨rfl, rfl⟩ := Prod.mk.inj (Option.some.inj h)
    have ok₁ := genExpr_ok object h₁ hn hgood hscope
    obtain ⟨hgrow, hk⟩ := identifierConstant_ok h₂ ok₁.1.good
    refine (ok₁.grow_right hgrow).op fun F Fs hchain R hR => ?_
    simp only [transfer, show F.info.constants = F.constants from rfl,
      stringAt_of_getElem? (hk F Fs hchain), Option.bind_eq_bind, Option.bind_some]
    exact replace_temps [.any] _ (by simp) hR
  | set object name value =>
    simp only [genExpr, Option.bind_eq_bind, Option.bind_eq_some_iff, Prod.exists] at h
    obtain ⟨is, y, h₁, k, z, h₂, js, w, h₃, h⟩ := h
    obtain ⟨rfl, rfl⟩ := Prod.mk.inj (Option.some.inj h)
    have ok₁ := genExpr_ok object h₁ hn.1 hgood hscope
    obtain ⟨hgrow, hk⟩ := identifierConstant_ok h₂ ok₁.1.good
    have ok₃ := genExpr_ok value h₃ hn.2 hgrow.good (hgrow.scopeOk (ok₁.1.scopeOk hscope))
    refine ((ok₁.grow_right hgrow).append ok₃).op fun F Fs hchain R hR => ?_
    simp only [transfer, show F.info.constants = F.constants from rfl,
      stringAt_of_getElem? (hk F Fs (Chain.mono hgrow.good ok₃.1.chain hchain)),
      Option.bind_eq_bind, Option.bind_some]
    exact replace_temps [.any, .any] _ (by simp) hR
  | invoke object name args =>
    simp only [genExpr, Option.bind_eq_bind, Option.bind_eq_some_iff, Prod.exists] at h
    obtain ⟨is, y, h₁, k, z, h₂, js, w, h₃, h⟩ := h
    obtain ⟨rfl, rfl⟩ := Prod.mk.inj (Option.some.inj h)
    have ok₁ := genExpr_ok object h₁ hn.1 hgood hscope
    obtain ⟨hgrow, hk⟩ := identifierConstant_ok h₂ ok₁.1.good
    have ok₃ := genArgs_ok args h₃ hn.2 hgrow.good (hgrow.scopeOk (ok₁.1.scopeOk hscope))
    refine ((ok₁.grow_right hgrow).append ok₃).op fun F Fs hchain R hR => ?_
    simp only [transfer, show F.info.constants = F.constants from rfl,
      stringAt_of_getElem? (hk F Fs (Chain.mono hgrow.good ok₃.1.chain hchain)),
      Option.bind_eq_bind, Option.bind_some]
    exact replace_call (args_lt h₃) hR
  | this_ =>
    simp only [genExpr] at h
    split at h
    · cases h
    · rename_i hclass
      simp only [Option.bind_eq_bind, Option.bind_eq_some_iff, Prod.exists] at h
      obtain ⟨ref, y, h₁, h⟩ := h
      obtain ⟨rfl, rfl⟩ := Prod.mk.inj (Option.some.inj h)
      have hthis := scopeKind_this hgood (hscope.this_ (by simpa using hclass))
      obtain ⟨hgrow, hfrag⟩ := loadVariable_ok h₁ hgood (k := .inst) (by rw [hthis]; rfl)
      exact ⟨hgrow, fun F Fs hchain T =>
        (hfrag F Fs hchain T).weaken (Shape.Sub.refl _) (Shape.sub_any (by simp)
          (by simp [Ctx.frame_ne hgood]))⟩
  | super_ method =>
    simp only [genExpr] at h
    split at h
    · rename_i hsuper
      simp only [Option.bind_eq_bind, Option.bind_eq_some_iff, Prod.exists] at h
      obtain ⟨k, y, hk, receiver, z, h₁, superclass, w, h₂, h⟩ := h
      obtain ⟨rfl, rfl⟩ := Prod.mk.inj (Option.some.inj h)
      obtain ⟨hgrow, hk⟩ := identifierConstant_ok hk hgood
      have hclass : x.classes ≠ [] := by rintro h0; simp [h0] at hsuper
      have hscope₁ := hgrow.scopeOk hscope
      have ok₁ := loadVariable_ok h₁ hgrow.good (k := .inst)
        (by rw [scopeKind_this hgrow.good (hscope₁.this_ (by rw [hgrow.classes]; exact hclass))]; rfl)
      have hscope₂ := ok₁.1.scopeOk hscope₁
      have ok₂ := loadVariable_ok h₂ ok₁.1.good (k := .klass)
        (by rw [scopeKind_super (hscope₂.super_ (by
          rw [ok₁.1.classes, hgrow.classes]; exact hsuper))]; rfl)
      refine ExprOk.grow hgrow ?_
      refine (ok₁.append ok₂).op fun F Fs hchain R hR => ?_
      simp only [transfer, show F.info.constants = F.constants from rfl,
        stringAt_of_getElem? (hk F Fs (Chain.mono hgrow.good (ok₁.1.trans ok₂.1).chain hchain)),
        Option.bind_eq_bind, Option.bind_some]
      rw [if_pos (by simp)]
      exact replace_temps [.klass, .inst] _ (by simp) hR
    · cases h
  | superInvoke method args =>
    simp only [genExpr] at h
    split at h
    · rename_i hsuper
      simp only [Option.bind_eq_bind, Option.bind_eq_some_iff, Prod.exists] at h
      obtain ⟨k, y, hk, receiver, z, h₁, js, v, h₃, superclass, w, h₂, h⟩ := h
      obtain ⟨rfl, rfl⟩ := Prod.mk.inj (Option.some.inj h)
      obtain ⟨hgrow, hk⟩ := identifierConstant_ok hk hgood
      have hclass : x.classes ≠ [] := by rintro h0; simp [h0] at hsuper
      have hscope₁ := hgrow.scopeOk hscope
      have ok₁ := loadVariable_ok h₁ hgrow.good (k := .inst)
        (by rw [scopeKind_this hgrow.good (hscope₁.this_ (by rw [hgrow.classes]; exact hclass))]; rfl)
      have hscope₂ := ok₁.1.scopeOk hscope₁
      have ok₃ := genArgs_ok args h₃ hn ok₁.1.good hscope₂
      have hscope₃ := ok₃.1.scopeOk hscope₂
      have ok₂ := loadVariable_ok h₂ ok₃.1.good (k := .klass)
        (by rw [scopeKind_super (hscope₃.super_ (by
          rw [ok₃.1.classes, ok₁.1.classes, hgrow.classes]; exact hsuper))]; rfl)
      refine ExprOk.grow hgrow ?_
      suffices ok : ExprOk _ _ (([receiver.load] ++ js ++ [superclass.load]) ++
          [.superInvoke k (UInt8.ofNat args.length)]) [.any] by
        simpa using ok
      refine ((ok₁.append ok₃).append ok₂).op fun F Fs hchain R hR => ?_
      · have hlen : (UInt8.ofNat args.length).toNat = args.length := by
          rw [UInt8.toNat_ofNat', Nat.mod_eq_of_lt (by have := args_lt h₃; omega)]
        simp only [transfer, show F.info.constants = F.constants from rfl,
          stringAt_of_getElem? (hk F Fs (Chain.mono hgrow.good
            ((ok₁.1.trans ok₃.1).trans ok₂.1).chain hchain)), Option.bind_eq_bind, Option.bind_some,
          hlen]
        rw [if_pos ⟨by simp, by simp [temps, List.getElem?_append_right]⟩]
        have hreplace := replace_temps (.klass :: (List.replicate args.length Kind.any ++ [.inst]))
          [.any] (R := R) (by
            intro k hk
            simp only [List.mem_cons, List.mem_append, List.mem_replicate, List.not_mem_nil,
              or_false] at hk
            rcases hk with rfl | ⟨-, rfl⟩ | rfl <;> simp) hR
        simpa using hreplace
    · cases h

/-- The code of arguments pushes them in order. -/
theorem genArgs_ok (es : List (Expr N)) : ∀ {x x' : Ctx N} {is : List Instr},
    genArgs es x = some (is, x') → Expr.AllNamed es → Good x.compilers → ScopeOk x →
    ExprOk x x' is (List.replicate es.length .any) := by
  intro x x' is h hn hgood hscope
  cases es with
  | nil =>
    obtain ⟨rfl, rfl⟩ := Prod.mk.inj (Option.some.inj h)
    exact ExprOk.nil hgood
  | cons e es =>
    simp only [genArgs, Option.bind_eq_bind, Option.bind_eq_some_iff, Prod.exists] at h
    obtain ⟨is, y, h₁, js, z, h₂, h⟩ := h
    split at h
    · cases h
    · obtain ⟨rfl, rfl⟩ := Prod.mk.inj (Option.some.inj h)
      have ok₁ := genExpr_ok e h₁ hn.1 hgood hscope
      have ok₂ := genArgs_ok es h₂ hn.2 ok₁.1.good (ok₁.1.scopeOk hscope)
      have ok := ok₁.append ok₂
      rw [List.length_cons, List.replicate_succ']
      exact ok

end

end Lox.Clox
