import Lox.Clox.Certify.Function

/-!
# Certificates for class declarations

Between `OP_CLASS` and the last `OP_METHOD` of a declaration no other code can run, so the variable
that the class was just assigned to still holds it when it is loaded again.  `ClassScope` says that
the name of the class refers to that variable; `classHead_ok`, `superclass_ok` and `method_ok` are
the pieces of a declaration.
-/

namespace Lox.Clox

variable {N : Type}

/-! ### The variable of a class -/

/-- The name of the class being declared refers to the variable `v`. -/
def ClassScope (name : Name) : ClassVar → List (Compiler N) → Prop
  | .local_ n, cs => ∃ c cs', cs = c :: cs' ∧ (resolveLocal name c.locals).map Prod.fst = some n
  | .global m, cs => m = name ∧ scopeKind name cs = none

theorem resolveLocal_grows (name : Name) {ls ms : List Local} (h : List.Forall₂ Local.Grows ls ms) :
    (resolveLocal name ms).map Prod.fst = (resolveLocal name ls).map Prod.fst := by
  induction h with
  | nil => rfl
  | cons hl hs ih =>
    simp only [resolveLocal, hl.1, hs.length_eq]
    split
    · rfl
    · exact ih

theorem scopeKind_grows {name : Name} {cs ds : List (Compiler N)}
    (h : List.Forall₂ (Compiler.Grows []) cs ds) : scopeKind name ds = scopeKind name cs := by
  induction h with
  | nil => rfl
  | @cons c d cs ds hc _ ih =>
    have hr := resolveLocal_grows name hc.locals_eq
    simp only [scopeKind]
    cases hl : resolveLocal name c.locals with
    | none =>
      rw [hl] at hr
      simp only [Option.map_none, Option.map_eq_none_iff] at hr
      rw [hr]
      exact ih
    | some found =>
      rw [hl] at hr
      simp only [Option.map_some, Option.map_eq_some_iff] at hr
      obtain ⟨found', hf, heq⟩ := hr
      rw [hf]
      simp [heq, hc.type]

theorem ClassScope.grows {name : Name} {v : ClassVar} {x x' : Ctx N}
    (h : ClassScope name v x.compilers) (hg : x.Grows x') : ClassScope name v x'.compilers := by
  cases v with
  | local_ n =>
    obtain ⟨c, cs, hc, hn⟩ := h
    obtain ⟨d, d', ds, ds', hd, hd', head, -⟩ := hg.chain.inv
    rw [hc] at hd
    obtain ⟨rfl, rfl⟩ := List.cons.inj hd
    exact ⟨d', ds', hd', (resolveLocal_grows name head.locals_eq).trans hn⟩
  | global m => exact ⟨h.1, (scopeKind_grows hg.chain.forall₂).trans h.2⟩

/-- A local of another name does not get in the way. -/
theorem ClassScope.declares {name : Name} {v : ClassVar} {x x' : Ctx N} {l : Local}
    (h : ClassScope name v x.compilers) (hd : x.Declares x' l) (hl : l.name ≠ name) :
    ClassScope name v x'.compilers := by
  obtain ⟨c, c', cs, cs', hx, hx', head, tail⟩ := hd.chain.inv
  obtain ⟨ls, hls, hg⟩ := head.locals
  have hrest : resolveLocal name c'.locals = resolveLocal name ls := by
    rw [hls]
    simp only [List.singleton_append, resolveLocal]
    exact if_neg hl
  cases v with
  | local_ n =>
    obtain ⟨d, ds, hd, hn⟩ := h
    rw [hx] at hd
    obtain ⟨rfl, rfl⟩ := List.cons.inj hd
    exact ⟨c', cs', hx', by rw [hrest, resolveLocal_grows name hg]; exact hn⟩
  | global m =>
    refine ⟨h.1, ?_⟩
    have hnone := h.2
    rw [hx'] at *
    rw [hx] at hnone
    simp only [scopeKind] at hnone ⊢
    cases hl' : resolveLocal name c.locals with
    | some found => simp [hl'] at hnone
    | none =>
      have hr := resolveLocal_grows name hg
      rw [hl', Option.map_none, Option.map_eq_none_iff] at hr
      rw [hrest, hr]
      rw [hl'] at hnone
      exact (scopeKind_grows tail).trans hnone

theorem ClassScope.beginScope {name : Name} {v : ClassVar} {x : Ctx N}
    (h : ClassScope name v x.compilers) : ClassScope name v x.beginScope.compilers := by
  cases hc : x.compilers with
  | nil =>
    have hx : x.beginScope.compilers = x.compilers := by simp [Ctx.beginScope, Ctx.mapCurrent, hc]
    rw [hx]
    exact h
  | cons c cs =>
    rw [beginScope_cons hc]
    rw [hc] at h
    cases v with
    | local_ n =>
      obtain ⟨d, ds, hd, hn⟩ := h
      obtain ⟨rfl, rfl⟩ := List.cons.inj hd
      exact ⟨_, _, rfl, hn⟩
    | global m => exact h

theorem slotAt_of_lt {α : Type} {i : ℕ} {as : List α} (h : i < as.length) :
    ∃ a, slotAt i as = some a := by
  induction as with
  | nil => cases h
  | cons b bs ih =>
    simp only [slotAt]
    split
    · exact ⟨b, rfl⟩
    · rename_i hne
      refine ih ?_
      simp only [List.length_cons] at h
      omega

/-- Loading the class that is being declared. -/
theorem loadClass_ok {name : Name} {v : ClassVar} {x x' : Ctx N} {ref : VarRef}
    (h : x.resolveVariable name = some (ref, x')) (hgood : Good x.compilers)
    (hv : ClassScope name v x.compilers) :
    x.Grows x' ∧ ∀ F Fs, Chain x'.compilers (F :: Fs) → ∀ slots,
      (∀ n, v = .local_ n → n < slots.length) →
      transfer F.info ref.load ⟨slots, some v⟩ = some ⟨⟨.klass, false⟩ :: slots, some v⟩ := by
  obtain ⟨hgrow, hhas⟩ := resolveVariable_ok h hgood
  refine ⟨hgrow, fun F Fs hchain slots hslots => ?_⟩
  cases v with
  | local_ n =>
    obtain ⟨c, cs, hc, hn⟩ := hv
    simp only [Option.map_eq_some_iff, Prod.exists] at hn
    obtain ⟨n', u, hr, rfl⟩ := hn
    have hlocals : x.locals = c.locals := by simp [Ctx.locals, hc]
    unfold Ctx.resolveVariable at h
    simp only [hlocals, hr] at h
    split at h
    · cases h
    · obtain ⟨rfl, rfl⟩ := Prod.mk.inj (Option.some.inj h)
      obtain ⟨l, hslot, -⟩ := resolveLocal_some hr
      rw [hc] at hgood
      have h256 : (UInt8.ofNat n').toNat = n' := by
        have h1 := slotAt_lt hslot
        have h2 := hgood.head.locals_le
        rw [UInt8.toNat_ofNat']
        omega
      obtain ⟨s, hs⟩ := slotAt_of_lt (hslots n' rfl)
      simp [VarRef.load, transfer, h256, hs, Shape.push]
  | global m =>
    obtain ⟨rfl, hnone⟩ := hv
    have hf := hhas F Fs hchain
    rw [hnone] at hf
    cases ref with
    | local_ slot => obtain ⟨s, -, hs⟩ := hf; cases hs
    | upvalue index => obtain ⟨k, -, hk⟩ := hf; cases hk
    | global k => simp [VarRef.load, transfer, hf.1, Shape.push]

/-- Loading any other variable meanwhile. -/
theorem VarRef.transfer_load_cls {I : Info N} {slots : List Slot} {name : Name}
    {kind : Option Kind} {ref : VarRef} (h : ref.Has I slots name kind)
    (hkind : kind.getD .any = .any) (cls : Option ClassVar) :
    ∃ k, k ≠ .meth ∧ transfer I ref.load ⟨slots, cls⟩ = some ⟨⟨k, false⟩ :: slots, cls⟩ := by
  cases ref with
  | local_ slot =>
    obtain ⟨s, hs, rfl⟩ := h
    rw [Option.getD_some] at hkind
    refine ⟨if cls = some (.local_ slot.toNat) then .klass else s.kind, ?_, ?_⟩
    · split
      · simp
      · simp [hkind]
    · simp [VarRef.load, transfer, hs, Shape.push]
  | upvalue index =>
    obtain ⟨k, hk, rfl⟩ := h
    rw [Option.getD_some] at hkind
    exact ⟨k, by simp [hkind], by simp [VarRef.load, transfer, hk, Shape.push]⟩
  | global k =>
    obtain ⟨hk, rfl⟩ := h
    refine ⟨if cls = some (.global name) then .klass else .any, ?_, ?_⟩
    · split <;> simp
    · simp [VarRef.load, transfer, hk, Shape.push]

/-! ### The start of a declaration -/

/-- The variable a class declared at `x` goes to. -/
def Ctx.classVar (name : Name) (x : Ctx N) : ClassVar :=
  if x.scopeDepth = 0 then .global name else .local_ x.locals.length

/-- `OP_CLASS` and the definition of its variable. -/
theorem classHead_ok {name : Name} {k : UInt8} {x x₁ x₂ : Ctx N}
    (hk : x.identifierConstant name = some (k, x₁)) (hd : x₁.declareVariable name = some x₂)
    (hname : PlainName name) (hgood : Good x.compilers) (hready : x.Ready) :
    x.Extends (x₂.defineVariable k).2 ∧
      ClassScope name (x.classVar name) (x₂.defineVariable k).2.compilers ∧
      (∀ n F, x.classVar name = .local_ n → n < ((x₂.defineVariable k).2.frame F).length) ∧
      ∀ F Fs, Chain (x₂.defineVariable k).2.compilers (F :: Fs) →
        Frag WellTyped F.info ⟨x.frame F, none⟩ ([.class_ k] ++ (x₂.defineVariable k).1)
          ⟨(x₂.defineVariable k).2.frame F, some (x.classVar name)⟩ := by
  obtain ⟨hgrow, hfinal⟩ := identifierConstant_ok hk hgood
  have hdepth := hgrow.chain.scopeDepth
  have hready₁ := hgrow.ready hready
  have hclass : ∀ F Fs, Chain x₁.compilers (F :: Fs) →
      Frag WellTyped F.info ⟨x.frame F, none⟩ [.class_ k]
        ⟨⟨.klass, false⟩ :: x.frame F, some (.local_ (x.frame F).length)⟩ := by
    intro F Fs hchain
    refine Frag.instr (Ctx.frame_ne hgood F) ?_
    have hs : stringAt F.info.constants k = some name := stringAt_of_getElem? (hfinal F Fs hchain)
    simp [transfer, hs, Shape.push]
  rcases Nat.eq_zero_or_pos x.scopeDepth with h0 | h0
  · obtain rfl := declareVariable_zero hd (hdepth.trans h0)
    have hv : x.classVar name = .global name := if_pos h0
    rw [defineVariable_zero k (hdepth.trans h0), hv]
    refine ⟨hgrow.extends hready, ⟨rfl, ?_⟩, by simp, fun F Fs hchain => ?_⟩
    · -- At the top level the script has no locals of its own.
      cases hc : x₂.compilers with
      | nil => exact absurd hc hgrow.good.ne_nil
      | cons c cs =>
        have hg := hgrow.good
        rw [hc] at hg
        have hsd : c.scopeDepth = 0 := by
          have := hdepth.trans h0
          simpa [Ctx.scopeDepth, hc] using this
        obtain ⟨htype, hlen⟩ := hg.head.script hsd
        have hcs : cs = [] := by
          cases cs with
          | nil => rfl
          | cons e cs => exact absurd htype hg.2.1
        subst hcs
        obtain ⟨b, hb, -, hbname⟩ := hg.head.base
        rw [htype, if_neg (by simp)] at hbname
        have hlocals : c.locals = [b] := by
          obtain ⟨b', hb'⟩ := List.length_eq_one_iff.1 hlen
          rw [hb'] at hb ⊢
          simpa [slotAt] using hb
        have hne : ¬ b.name = name := fun h => hname.1 (h.symm.trans hbname)
        simp [scopeKind, hlocals, resolveLocal, hne]
    · simp only [hgrow.frame_eq]
      refine (hclass F Fs hchain).append (Frag.instr (by simp) ?_)
      have hs : stringAt F.info.constants k = some name := stringAt_of_getElem? (hfinal F Fs hchain)
      have hreplace := replace_temps [.klass] [] (R := x.frame F) (by simp)
        (Ctx.frame_ne hgood F)
      cases hf : x.frame F with
      | nil => exact absurd hf (Ctx.frame_ne hgood F)
      | cons s ss => simp [transfer, hs, Shape.replace, popSlots, Slot.plain]
  · have h0' : 0 < x₁.scopeDepth := by omega
    have hadd := declareVariable_pos hd h0'
    have hdecl := addLocal_ok hadd hgrow.good hready₁ h0' hname.1
    have hv : x.classVar name = .local_ x.locals.length := if_neg (by omega)
    rw [defineVariable_pos k (by rw [hdecl.chain.scopeDepth]; exact h0'), hv]
    obtain ⟨hmark, hmready, hmchain⟩ := hdecl.mark hgrow.good hready₁ h0'
    have hframe : ∀ F, x₂.markInitialized.frame F
        = ⟨.any, F.captured (x.frame F).length⟩ :: x.frame F := by
      intro F
      rw [hmark.frame_eq hready₁ (by simp only; omega), hgrow.frame_eq]
      rw [localKind_plain hname (frame_pos hgood F)]
    have hlen : ∀ F, (x.frame F).length = x.locals.length := fun F => Ctx.frame_length hready F
    refine ⟨((hgrow.extends hready).trans (hmark.extends hmready rfl h0')), ?_, ?_,
      fun F Fs hchain => ?_⟩
    · obtain ⟨c, c', cs, cs', hx, hx', head, -⟩ := hmark.chain.inv
      obtain ⟨ls, hls, hg⟩ := head.locals
      refine ⟨c', cs', hx', ?_⟩
      have hxl : x₁.locals.length = x.locals.length := by
        rw [← Ctx.frame_length hready ⟨[], [], fun _ => false⟩,
          ← Ctx.frame_length hready₁ ⟨[], [], fun _ => false⟩, hgrow.frame_eq]
      have hlsl : ls.length = x.locals.length := by
        rw [← hxl, ← hg.length_eq]
        simp [Ctx.locals, hx]
      rw [hls]
      simp [resolveLocal, hlsl]
    · rintro n F ⟨⟩
      rw [hframe, List.length_cons, hlen]
      omega
    · rw [hframe, List.append_nil]
      refine (hclass F Fs ?_).weaken (Shape.Sub.refl _) ?_
      · exact Chain.mono hgrow.good hdecl.chain (hmchain F Fs hchain)
      · rw [hlen]
        exact Shape.sub_local (by simp) (Ctx.frame_ne hgood F) _ _

/-! ### The superclass -/

/-- The value of the superclass becomes the local `super`, once `OP_INHERIT` has found it to be a
class. -/
theorem superclass_ok {name sup : Name} {v : ClassVar} {w w' : Ctx N} {ss : List Instr}
    (h : genSuperclass name (some sup) w = some (ss, w')) (hname : PlainName name)
    (hsup : PlainName sup) (hgood : Good w.compilers) (hready : w.Ready)
    (hv : ClassScope name v w.compilers)
    (hslots : ∀ n F, v = .local_ n → n < (w.frame F).length) :
    w'.classes = w.classes.modifyHead (fun _ => ⟨true⟩) ∧ Good w'.compilers ∧ w'.Ready ∧
      HasSuper w'.compilers ∧ ClassScope name v w'.compilers ∧
      (∀ n F, v = .local_ n → n < (w'.frame F).length) ∧
      ∃ (w₁ : Ctx N) (l : Local), w.Grows w₁ ∧ l.depth = w₁.scopeDepth + 1 ∧
        ChainGrows [l] w₁.beginScope.compilers w'.compilers ∧
        ∀ F Fs, Chain w'.compilers (F :: Fs) →
          Frag WellTyped F.info ⟨w.frame F, some v⟩ ss ⟨w'.frame F, some v⟩ := by
  simp only [genSuperclass, Option.bind_eq_bind, Option.bind_eq_some_iff, Prod.exists] at h
  obtain ⟨ref, w₁, href, h⟩ := h
  split at h
  · cases h
  simp only [Option.bind_eq_some_iff, Prod.exists] at h
  obtain ⟨y, hadd, cls, z, hcls, h⟩ := h
  obtain ⟨hgrow, hhas⟩ := resolveVariable_ok href hgood
  have hready₁ := beginScope_ready (hgrow.ready hready)
  have hgood₁ := beginScope_good hgrow.good
  have hdepth : w₁.beginScope.scopeDepth = w₁.scopeDepth + 1 := beginScope_depth hgrow.good
  have hpos : 0 < w₁.beginScope.scopeDepth := by omega
  have hdecl := addLocal_ok hadd hgood₁ hready₁ hpos (by decide)
  rw [defineVariable_pos 0 (by rw [hdecl.chain.scopeDepth]; exact hpos)] at h hcls
  obtain ⟨hmark, hmready, -⟩ := hdecl.mark hgood₁ hready₁ hpos
  have hv₁ : ClassScope name v y.markInitialized.compilers :=
    (hv.grows hgrow).beginScope.declares hmark hname.2.symm
  obtain ⟨hgrow₂, hload⟩ := loadClass_ok hcls hmark.good hv₁
  obtain ⟨l, hl, hdecl'⟩ := hmark.grows hgrow₂
  have hldepth : l.depth = w₁.scopeDepth + 1 := by
    rw [hl.2.1]
    simp only [hdepth]
    push_cast
    rfl
  obtain ⟨rfl, rfl⟩ := Prod.mk.inj (Option.some.inj h)
  have hframe : ∀ F, z.frame F = ⟨.klass, F.captured (w.frame F).length⟩ :: w.frame F := by
    intro F
    rw [hdecl'.frame_eq hready₁ (by omega), beginScope_frame, hgrow.frame_eq, hl.1]
    simp [localKind]
  have hv₂ := hv₁.grows hgrow₂
  refine ⟨?_, hgrow₂.good, hgrow₂.ready hmready, ?_, hv₂, ?_, w₁, l, hgrow, hldepth,
    hdecl'.chain, ?_⟩
  · have hclasses : z.classes = w.classes := hdecl'.classes.trans hgrow.classes
    simp only [hclasses]
  · obtain ⟨c, c', cs, cs', -, hz, head, -⟩ := hdecl'.chain.inv
    obtain ⟨ls, hls, -⟩ := head.locals
    refine ⟨c', by simp [hz], l, by simp [hls], hl.1⟩
  · intro n F hn
    have := hslots n F hn
    change n < (z.frame F).length
    rw [hframe, List.length_cons]
    omega
  · intro F Fs hchain
    change Chain z.compilers (F :: Fs) at hchain
    change Frag WellTyped F.info ⟨w.frame F, some v⟩ _ ⟨z.frame F, some v⟩
    have hchain₁ : Chain w₁.compilers (F :: Fs) := by
      have h₁ : Chain w₁.beginScope.compilers (F :: Fs) := Chain.mono hgood₁ hdecl'.chain hchain
      cases hc : w₁.compilers with
      | nil => exact absurd hc hgrow.good.ne_nil
      | cons c cs =>
        rw [beginScope_cons hc] at h₁
        exact h₁.congr_head rfl rfl fun i l hi hcap => ⟨l, hi, hcap⟩
    obtain ⟨k, hk, hkload⟩ := VarRef.transfer_load_cls (hhas F Fs hchain₁)
      (plain_kind hsup hgood) (some v)
    have hne := Ctx.frame_ne hgood F
    have hsecond := hload F Fs hchain (⟨k, false⟩ :: w.frame F) fun n hn => by
      have := hslots n F hn
      rw [List.length_cons]
      omega
    rw [hframe]
    refine Frag.cons (Frag.instr hne hkload) (Frag.cons (Frag.instr (by simp) hsecond) ?_)
    have hinherit : transfer F.info .inherit
        ⟨⟨.klass, false⟩ :: ⟨k, false⟩ :: w.frame F, some v⟩
        = some ⟨⟨.klass, false⟩ :: w.frame F, some v⟩ := by
      cases hf : w.frame F with
      | nil => exact absurd hf hne
      | cons s ss =>
        have hother : v ≠ .local_ (ss.length + 2) := by
          intro hv
          have := hslots _ F hv
          rw [hf, List.length_cons] at this
          omega
        simp [transfer, Slot.plain, hk, hother]
    refine (Frag.instr (by simp) hinherit).weaken (Shape.Sub.refl _)
      ⟨.cons ⟨?_, ?_⟩ ?_, .inr rfl, ?_⟩
    · intro h
      cases h
    · exact fun _ => Kind.Sub.refl _
    · exact (Shape.Sub.refl ⟨w.frame F, none⟩).1
    · rw [bottomKind_cons hne, bottomKind_cons hne]

/-! ### The methods -/

/-- The code `is` adds methods to the class on top of the stack. -/
def MethodsOk (x x' : Ctx N) (is : List Instr) : Prop :=
  x.Grows x' ∧ ∀ F Fs, Chain x'.compilers (F :: Fs) → ∀ cls,
    Frag WellTyped F.info ⟨⟨.klass, false⟩ :: x.frame F, cls⟩ is
      ⟨⟨.klass, false⟩ :: x.frame F, cls⟩

theorem MethodsOk.nil {x : Ctx N} (h : Good x.compilers) : MethodsOk x x [] :=
  ⟨Ctx.Grows.refl h, fun _ _ _ _ => Frag.nil (Shape.Sub.refl _)⟩

theorem MethodsOk.append {x y z : Ctx N} {is js : List Instr} (h₁ : MethodsOk x y is)
    (h₂ : MethodsOk y z js) : MethodsOk x z (is ++ js) := by
  refine ⟨h₁.1.trans h₂.1, fun F Fs hchain cls => ?_⟩
  have f₂ := h₂.2 F Fs hchain cls
  rw [h₁.1.frame_eq] at f₂
  exact (h₁.2 F Fs (Chain.mono h₁.1.good h₂.1.chain hchain) cls).append f₂

theorem methodType_isMethod (name : Name) : (methodType name).isMethod = true := by
  unfold methodType
  split <;> rfl

/-- One method: its closure and `OP_METHOD`. -/
theorem method_ok {name : Name} {k : UInt8} {params : List Name} {is js : List Instr}
    {x x₁ y y' x' : Ctx N} (hk : x.identifierConstant name = some (k, x₁))
    (hgood : Good x.compilers) (hready : x.Ready) (hplain : ∀ p ∈ params, PlainName p)
    (hparams : (x₁.initCompiler (methodType name) name).beginScope.parameters params = some y)
    (hbody : StmtOk y y' is) (hclos : y'.closure is = some (js, x')) :
    MethodsOk x x' (js ++ [.method k]) := by
  obtain ⟨hgrow, hfinal⟩ := identifierConstant_ok hk hgood
  have htype : methodType name ≠ .script := by
    unfold methodType
    split <;> simp
  obtain ⟨hgrow', hclosure⟩ := closure_ok htype hgrow.good (hgrow.ready hready) hplain hparams
    hbody hclos
  refine ⟨hgrow.trans hgrow', fun F Fs hchain cls => ?_⟩
  have hkind : (methodType name).closureKind = .meth := by
    simp [FunctionType.closureKind, methodType_isMethod]
  have hclosure' := hclosure F Fs hchain ⟨⟨.klass, false⟩ :: x.frame F, cls⟩
    ⟨⟨.meth, false⟩ :: ⟨.klass, false⟩ :: x.frame F, cls⟩ [⟨.meth, false⟩, ⟨.klass, false⟩]
    (by simp) (by rw [hgrow.frame_eq]; rfl) (by rw [hkind]; exact Shape.Sub.refl _)
  refine hclosure'.append (Frag.instr (by simp) ?_)
  have hs : stringAt F.info.constants k = some name :=
    stringAt_of_getElem? (hfinal F Fs (Chain.mono hgrow.good hgrow'.chain hchain))
  cases hf : x.frame F with
  | nil => exact absurd hf (Ctx.frame_ne hgood F)
  | cons s ss => simp [transfer, hs]

/-- The class is loaded again, gets its methods and is dropped. -/
theorem classBody_ok {name : Name} {v : ClassVar} {cls : VarRef} {w w₁ w' : Ctx N}
    {ms : List Instr} (hcls : w.resolveVariable name = some (cls, w₁)) (hgood : Good w.compilers)
    (hv : ClassScope name v w.compilers)
    (hslots : ∀ n F, v = .local_ n → n < (w.frame F).length) (hms : MethodsOk w₁ w' ms) :
    w.Grows w' ∧ ∀ F Fs, Chain w'.compilers (F :: Fs) →
      Frag WellTyped F.info ⟨w.frame F, some v⟩ ([cls.load] ++ ms ++ [.pop]) ⟨w.frame F, none⟩ := by
  obtain ⟨hgrow, hload⟩ := loadClass_ok hcls hgood hv
  refine ⟨hgrow.trans hms.1, fun F Fs hchain => ?_⟩
  have hchain₁ := Chain.mono hgrow.good hms.1.chain hchain
  have hne := Ctx.frame_ne hgood F
  have f := hms.2 F Fs hchain (some v)
  rw [hgrow.frame_eq] at f
  refine ((Frag.instr hne (hload F Fs hchain₁ _ fun n hn => hslots n F hn)).append f).append
    (Frag.instr (by simp) ?_)
  cases hf : w.frame F with
  | nil => exact absurd hf hne
  | cons s ss => simp [transfer, Shape.replace, popSlots, Slot.plain]

/-! ### The scope of a class -/

/-- Inside a class with a superclass there is a `super`. -/
def SuperOk (x : Ctx N) : Prop :=
  (x.classes.head?.map (·.hasSuperclass)).getD false = true → HasSuper x.compilers

/-- From the class's variable to its methods, and, once there are methods, out of the class again:
with a superclass there is a scope around the methods. -/
theorem genSuperclass_ok {name : Name} {superclass : Option Name} {v : ClassVar}
    {w w' : Ctx N} {classes : List ClassCompiler} {ss : List Instr}
    (h : genSuperclass name superclass w = some (ss, w')) (hclasses : w.classes = ⟨false⟩ :: classes)
    (hname : PlainName name) (hsup : SuperclassNamed superclass) (hgood : Good w.compilers)
    (hready : w.Ready) (hv : ClassScope name v w.compilers)
    (hslots : ∀ n F, v = .local_ n → n < (w.frame F).length) :
    Good w'.compilers ∧ w'.Ready ∧ SuperOk w' ∧ ClassScope name v w'.compilers ∧
      (∀ n F, v = .local_ n → n < (w'.frame F).length) ∧
      ∀ z, w'.Grows z →
        Good z.endClass.2.compilers ∧ z.endClass.2.classes = classes ∧
        ChainGrows [] w.compilers z.endClass.2.compilers ∧
        ∀ F Fs, Chain z.endClass.2.compilers (F :: Fs) → ∃ F₁ : Final N, F₁.info = F.info ∧
          Chain z.compilers (F₁ :: Fs) ∧ w.frame F₁ = w.frame F ∧
          Frag WellTyped F.info ⟨w.frame F₁, some v⟩ ss ⟨w'.frame F₁, some v⟩ ∧
          Frag WellTyped F.info ⟨w'.frame F₁, none⟩ z.endClass.1 ⟨w.frame F, none⟩ := by
  cases superclass with
  | none =>
    obtain ⟨rfl, rfl⟩ := Prod.mk.inj (Option.some.inj h)
    refine ⟨hgood, hready, ?_, hv, hslots, fun z hz => ?_⟩
    · intro hs
      simp [hclasses] at hs
    · have hend : z.endClass = ([], { z with classes := classes }) := by
        simp [Ctx.endClass, hz.classes, hclasses]
      rw [hend]
      exact ⟨hz.good, rfl, hz.chain, fun F Fs hchain => ⟨F, rfl, hchain, rfl,
        Frag.nil (Shape.Sub.refl _), Frag.nil (Shape.Sub.refl _)⟩⟩
  | some sup =>
    obtain ⟨hcl', hgood', hready', hhas, hv', hslots', w₁, l, hgrow, hl, hchain₁, hfrag⟩ :=
      superclass_ok h hname hsup hgood hready hv hslots
    have hcl : w'.classes = ⟨true⟩ :: classes := by
      rw [hcl', hclasses]
      rfl
    refine ⟨hgood', hready', fun _ => hhas, hv', hslots', fun z hz => ?_⟩
    obtain ⟨extra, hextra, hchain₂⟩ := hchain₁.trans_extra hz.chain
    rw [List.nil_append] at hchain₂
    have hdepth : ∀ m ∈ extra, m.depth = w₁.scopeDepth + 1 := by
      intro m hm
      obtain ⟨m', hm', hg⟩ := Local.Grows.mem hextra hm
      rw [List.mem_singleton.1 hm'] at hg
      rw [hg.2.1, hl]
    obtain ⟨hgood₂, hgrow₂, hcl₂, hend⟩ := endScope_ok hgrow.good (hgrow.ready hready) hz.good
      (hz.ready hready') hchain₂ hdepth
    have hclass : z.endClass = (z.endScope.1, { z.endScope.2 with classes := classes }) := by
      simp [Ctx.endClass, hz.classes, hcl, hcl₂]
    rw [hclass]
    refine ⟨hgood₂, rfl, hgrow.chain.trans hgrow₂, fun F Fs hchain => ?_⟩
    obtain ⟨F₁, hinfo, hz₁, hframe, hf⟩ := hend F Fs hchain
    simp only [hgrow.frame_eq] at hframe hf
    refine ⟨F₁, hinfo, hz₁, hframe, ?_, ?_⟩
    · rw [← hinfo]
      exact hfrag F₁ Fs (Chain.mono hgood' hz.chain hz₁)
    · rw [← hz.frame_eq]
      exact hf

/-- A whole class declaration, given its methods. -/
theorem class_ok {name : Name} {superclass : Option Name} {k : UInt8} {ss ms : List Instr}
    {cls : VarRef} {x x₁ x₂ x₃ w w₁ z : Ctx N}
    (hk : x.identifierConstant name = some (k, x₁)) (hd : x₁.declareVariable name = some x₂)
    (hx₃ : x₃ = { (x₂.defineVariable k).2 with
      classes := ⟨false⟩ :: (x₂.defineVariable k).2.classes })
    (hss : genSuperclass name superclass x₃ = some (ss, w))
    (hcls : w.resolveVariable name = some (cls, w₁))
    (hms : Good w₁.compilers → w₁.Ready → SuperOk w₁ → MethodsOk w₁ z ms)
    (hname : PlainName name) (hsup : SuperclassNamed superclass) (hgood : Good x.compilers)
    (hready : x.Ready) :
    StmtOk x z.endClass.2 ([.class_ k] ++ (x₂.defineVariable k).1 ++ ss ++ [cls.load] ++ ms ++
      [.pop] ++ z.endClass.1) := by
  obtain ⟨hext, hv, hslots, hhead⟩ := classHead_ok hk hd hname hgood hready
  have hframe : ∀ F, x₃.frame F = (x₂.defineVariable k).2.frame F := by
    intro F
    rw [hx₃]
    rfl
  have hcomp : x₃.compilers = (x₂.defineVariable k).2.compilers := by rw [hx₃]
  have hready₃ : x₃.Ready := by
    rw [hx₃]
    exact hext.ready
  obtain ⟨hgood', hready', hsuper, hv', hslots', hend⟩ := genSuperclass_ok hss (by rw [hx₃]) hname
    hsup (hcomp ▸ hext.good) hready₃ (hcomp ▸ hv) fun n F hn => by
      rw [hframe]
      exact hslots n F hn
  obtain ⟨hgrow₁, -⟩ := resolveVariable_ok hcls hgood'
  have hmethods := hms hgrow₁.good (hgrow₁.ready hready') fun hs => by
    rw [hgrow₁.classes] at hs
    exact (hsuper hs).chainGrows hgrow₁.chain
  obtain ⟨hgrow, hbody⟩ := classBody_ok hcls hgood' hv' hslots' hmethods
  obtain ⟨hgood₂, hcl₂, hchain₂, hend⟩ := hend z hgrow
  have hgrow₂ : (x₂.defineVariable k).2.Grows z.endClass.2 := ⟨hcl₂, hgood₂, hcomp ▸ hchain₂⟩
  refine ⟨hext.trans (hgrow₂.extends hext.ready), fun F Fs hchain => ?_⟩
  obtain ⟨F₁, hinfo, hz, hframe₁, hf₁, hf₂⟩ := hend F Fs hchain
  have hb := hbody F₁ Fs hz
  have hh := hhead F Fs (Chain.mono hext.good hgrow₂.chain hchain)
  rw [hinfo] at hb
  rw [hframe₁, hframe] at hf₁
  rw [hframe] at hf₂
  rw [hgrow₂.frame_eq]
  have hall := ((hh.append hf₁).append hb).append hf₂
  simpa only [List.append_assoc] using hall

end Lox.Clox
