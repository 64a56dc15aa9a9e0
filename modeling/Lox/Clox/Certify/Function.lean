import Lox.Clox.Certify.Scope

/-!
# Certificates for variables, functions and closures

A variable declaration turns the value of its initializer into a global or into a new slot
(`genVar_ok`).  A function gets its own frame, with the parameters above slot 0, and its closure
captures slots and upvalues of the frame around it (`closure_ok`).
-/

namespace Lox.Clox

variable {N : Type}

/-! ### Variables -/

theorem localKind_plain {type : FunctionType} {slot : ℕ} {name : Name} (hname : PlainName name)
    (hslot : slot ≠ 0) : localKind type slot name = .any := by
  unfold localKind
  rw [if_neg hname.2, if_neg (by simp [hslot])]

theorem declareVariable_zero {name : Name} {x y : Ctx N} (h : x.declareVariable name = some y)
    (h0 : x.scopeDepth = 0) : y = x := by
  unfold Ctx.declareVariable at h
  rw [if_pos h0] at h
  exact (Option.some.inj h).symm

theorem declareVariable_pos {name : Name} {x y : Ctx N} (h : x.declareVariable name = some y)
    (h0 : 0 < x.scopeDepth) : x.addLocal name = some y := by
  unfold Ctx.declareVariable at h
  rw [if_neg (by omega)] at h
  split at h
  · exact h
  · cases h

theorem parseVariable_cases {name : Name} {x y : Ctx N} {k : UInt8}
    (h : x.parseVariable name = some (k, y)) :
    (x.scopeDepth = 0 ∧ x.identifierConstant name = some (k, y)) ∨
      (0 < x.scopeDepth ∧ x.addLocal name = some y) := by
  simp only [Ctx.parseVariable, Option.bind_eq_bind, Option.bind_eq_some_iff] at h
  obtain ⟨z, hz, h⟩ := h
  rcases Nat.eq_zero_or_pos x.scopeDepth with h0 | h0
  · obtain rfl := declareVariable_zero hz h0
    rw [if_neg (by omega)] at h
    exact .inl ⟨h0, h⟩
  · have hadd := declareVariable_pos hz h0
    rw [if_pos (by rw [Ctx.scopeDepth_addLocal hadd]; omega)] at h
    obtain ⟨-, rfl⟩ := Prod.mk.inj (Option.some.inj h)
    exact .inr ⟨h0, hadd⟩

theorem genOption_ok {init : Option (Expr N)} {x x' : Ctx N} {is : List Instr}
    (h : genOption [.nil] init x = some (is, x')) (hn : Expr.OptionNamed init)
    (hgood : Good x.compilers) (hscope : ScopeOk x) : ExprOk x x' is [.any] := by
  cases init with
  | none =>
    obtain ⟨rfl, rfl⟩ := Prod.mk.inj (Option.some.inj h)
    exact ExprOk.push hgood fun _ _ _ _ => rfl
  | some e => exact genExpr_ok e h hn hgood hscope

theorem defineVariable_zero {x : Ctx N} (k : UInt8) (h : x.scopeDepth = 0) :
    x.defineVariable k = ([.defineGlobal k], x) := by
  unfold Ctx.defineVariable
  exact if_neg (by omega)

theorem defineVariable_pos {x : Ctx N} (k : UInt8) (h : 0 < x.scopeDepth) :
    x.defineVariable k = ([], x.markInitialized) := by
  unfold Ctx.defineVariable
  exact if_pos h

theorem transfer_defineGlobal {I : Info N} {k : UInt8} {name : Name} {R : List Slot}
    (hk : stringAt I.constants k = some name) (hR : R ≠ []) :
    transfer I (.defineGlobal k) ⟨⟨.any, false⟩ :: R, none⟩ = some ⟨R, none⟩ := by
  have hreplace := replace_temps [.any] [] (R := R) (by simp) hR
  simp only [List.length_singleton, temps_cons, temps_nil, List.cons_append, List.nil_append]
    at hreplace
  simp [transfer, hk, hreplace]

/-- A value on top becomes a new slot, captured or not. -/
theorem Shape.sub_local {k : Kind} (hk : k ≠ .meth) {R : List Slot} (hR : R ≠ []) (captured : Bool)
    (cls : Option ClassVar) : Shape.Sub ⟨⟨k, false⟩ :: R, cls⟩ ⟨⟨.any, captured⟩ :: R, cls⟩ := by
  refine ⟨.cons ⟨fun h => ?_, fun _ => .inr ⟨hk, rfl⟩⟩ (Shape.Sub.refl ⟨R, none⟩).1, .inr rfl, ?_⟩
  · cases h
  · simp [hR]

theorem frame_pos {x : Ctx N} (hgood : Good x.compilers) (F : Final N) : (x.frame F).length ≠ 0 :=
  fun h => Ctx.frame_ne hgood F (List.length_eq_zero_iff.1 h)

theorem genVar_ok {name : Name} {init : Option (Expr N)} {x x' : Ctx N} {is : List Instr}
    (h : genVar name init x = some (is, x')) (hname : PlainName name)
    (hn : Expr.OptionNamed init) (hgood : Good x.compilers) (hready : x.Ready)
    (hscope : ScopeOk x) : StmtOk x x' is := by
  simp only [genVar, Option.bind_eq_bind, Option.bind_eq_some_iff, Prod.exists] at h
  obtain ⟨k, y, hk, is, z, hz, h⟩ := h
  obtain ⟨rfl, rfl⟩ := Prod.mk.inj (Option.some.inj h)
  rcases parseVariable_cases hk with ⟨h0, hconst⟩ | ⟨h0, hadd⟩
  · obtain ⟨hgrow, hfinal⟩ := identifierConstant_ok hconst hgood
    have ok := genOption_ok hz hn hgrow.good (hgrow.scopeOk hscope)
    have hgrow' := hgrow.trans ok.1
    rw [defineVariable_zero k (by rw [hgrow'.chain.scopeDepth]; exact h0)]
    refine ⟨hgrow'.extends hready, fun F Fs hchain => ?_⟩
    have f := ok.2 F Fs hchain []
    rw [hgrow.frame_eq, List.nil_append] at f
    rw [hgrow'.frame_eq]
    exact f.append (Frag.instr (by simp) (transfer_defineGlobal
      (stringAt_of_getElem? (hfinal F Fs (Chain.mono hgrow.good ok.1.chain hchain)))
      (Ctx.frame_ne hgood F)))
  · have hdecl := addLocal_ok hadd hgood hready h0 hname.1
    have hscope₁ := hscope.grows hdecl.classes hdecl.chain
    have ok := genOption_ok hz hn hdecl.good hscope₁
    obtain ⟨l, hl, hdecl'⟩ := hdecl.grows ok.1
    rw [defineVariable_pos k (by rw [hdecl'.chain.scopeDepth]; exact h0)]
    obtain ⟨hmark, hmready, hmchain⟩ := hdecl'.mark hgood hready h0
    refine ⟨hmark.extends hmready rfl h0, fun F Fs hchain => ?_⟩
    have f := ok.2 F Fs (hmchain F Fs hchain) []
    rw [hdecl.frame_pending hready rfl, List.nil_append] at f
    rw [List.append_nil, hmark.frame_eq hready (by simp only; omega)]
    refine f.weaken (Shape.Sub.refl _) ?_
    simp only [hl.1]
    rw [localKind_plain hname (frame_pos hgood F)]
    exact Shape.sub_local (by simp) (Ctx.frame_ne hgood F) _ _

/-! ### Parameters -/

/-- The new function at `y` has the parameters that the function at `x` still waits for. -/
structure ParamsOk (x y : Ctx N) (n : ℕ) : Prop where
  classes : y.classes = x.classes
  good : Good y.compilers
  ready : y.Ready
  compilers : ∃ c c' cs cs', x.compilers = c :: cs ∧ y.compilers = c' :: cs' ∧
    List.Forall₂ (Compiler.Grows []) cs cs' ∧ c'.type = c.type ∧ c'.name = c.name ∧
    c'.arity = c.arity + n ∧ c'.locals.length = c.locals.length + n ∧
    ((∀ l ∈ c.locals, l.name ≠ "super".toList) → ∀ l ∈ c'.locals, l.name ≠ "super".toList)

theorem parameters_ok : ∀ {names : List Name} {x y : Ctx N}, x.parameters names = some y →
    (∀ n ∈ names, PlainName n) → Good x.compilers → x.Ready → 0 < x.scopeDepth →
    ParamsOk x y names.length := by
  intro names
  induction names with
  | nil =>
    intro x y h _ hgood hready _
    obtain rfl := Option.some.inj h
    refine ⟨rfl, hgood, hready, ?_⟩
    cases hc : x.compilers with
    | nil => exact absurd hc hgood.ne_nil
    | cons c cs =>
      exact ⟨c, c, cs, cs, rfl, rfl, compilersGrow_refl cs, rfl, rfl, rfl, rfl, fun h => h⟩
  | cons name names ih =>
    intro x y h hplain hgood hready hdepth
    simp only [Ctx.parameters, Option.bind_eq_bind] at h
    split at h
    · cases h
    simp only [Option.bind_eq_some_iff, Prod.exists] at h
    obtain ⟨k, x₂, hk, h⟩ := h
    cases hc : x.compilers with
    | nil => exact absurd hc hgood.ne_nil
    | cons c cs =>
      set x₁ : Ctx N := x.mapCurrent fun c => { c with arity := c.arity + 1 } with hx₁
      have hcs : x₁.compilers = { c with arity := c.arity + 1 } :: cs := by
        simp [hx₁, Ctx.mapCurrent, hc]
      have hname := hplain name (by simp)
      have hgood₁ : Good x₁.compilers := by
        rw [hcs]
        rw [hc] at hgood
        have hg := hgood.head
        exact hgood.replace_head ⟨hg.base, hg.names, hg.depth, hg.ready, hg.script, hg.locals_le,
          hg.upvalues_le, hg.functions⟩ rfl rfl
      have hready₁ : x₁.Ready := by
        intro d hd
        rw [hcs] at hd
        obtain rfl := Option.some.inj hd
        exact hready c (by simp [hc])
      have hdepth₁ : 0 < x₁.scopeDepth := by
        simpa [Ctx.scopeDepth, hcs, hc] using hdepth
      rcases parseVariable_cases hk with ⟨h0, -⟩ | ⟨-, hadd⟩
      · omega
      have hdecl := addLocal_ok hadd hgood₁ hready₁ hdepth₁ hname.1
      rw [defineVariable_pos 0 (by rw [hdecl.chain.scopeDepth]; exact hdepth₁)] at h
      obtain ⟨hmark, hmready, -⟩ := hdecl.mark hgood₁ hready₁ hdepth₁
      have hrest := ih h (fun n hn => hplain n (by simp [hn])) hmark.good hmready
        (by rw [hmark.chain.scopeDepth]; exact hdepth₁)
      obtain ⟨d, d', ds, ds', hd, hd', htail, htype, hnm, harity, hlen, hsuper⟩ := hrest.compilers
      obtain ⟨e, e', es, es', he, he', head, htail'⟩ := hmark.chain.inv
      rw [hd] at he'
      obtain ⟨rfl, rfl⟩ := List.cons.inj he'
      rw [hcs] at he
      obtain ⟨rfl, rfl⟩ := List.cons.inj he
      obtain ⟨ls, hls, hg⟩ := head.locals
      refine ⟨hrest.classes.trans hmark.classes, hrest.good, hrest.ready,
        c, d', cs, ds', hc, hd', compilersGrow_trans htail' htail, htype.trans head.type,
        hnm.trans head.name, ?_, ?_, fun hns => hsuper fun l hl => ?_⟩
      · have ha : d.arity = c.arity + 1 := head.arity
        rw [harity, List.length_cons]
        omega
      · have hle := hg.length_eq
        simp only at hle
        rw [hlen, hls, List.length_append, List.length_singleton, List.length_cons, ← hle]
        omega
      · rw [hls] at hl
        rcases List.mem_append.1 hl with hl | hl
        · obtain rfl := List.mem_singleton.1 hl
          exact hname.2
        · obtain ⟨m, hm, hgm⟩ := Local.Grows.mem hg hl
          rw [hgm.1]
          exact hns m hm

/-! ### The frame of a new function -/

/-- Whether slot 0 of a function holds an instance. -/
def FunctionType.isMethod (t : FunctionType) : Bool := t = .method || t = .initializer

theorem initCompiler_good {type : FunctionType} (name : Name) {x : Ctx N} (htype : type ≠ .script)
    (hgood : Good x.compilers) (hready : x.Ready) :
    Good (x.initCompiler type name).beginScope.compilers ∧
      (x.initCompiler type name).beginScope.Ready ∧
      0 < (x.initCompiler type name).beginScope.scopeDepth := by
  cases hc : x.compilers with
  | nil => exact absurd hc hgood.ne_nil
  | cons e cs =>
    have hcs : (x.initCompiler type name).compilers = newCompiler type (some name) :: e :: cs := by
      simp [Ctx.initCompiler, hc]
    have hcs' := beginScope_cons hcs
    rw [hc] at hgood
    refine ⟨?_, ?_, ?_⟩
    · rw [hcs']
      refine ⟨⟨⟨_, rfl, rfl, rfl⟩, ?_, ?_, ?_, ?_, ?_, ?_, by simp [newCompiler]⟩, htype, ?_,
        hready e (by simp [hc]), hgood⟩
      · intro i l hi h0
        have hlt := slotAt_lt hi
        simp only [newCompiler, List.length_singleton] at hlt
        omega
      · intro l hl
        simp only [newCompiler, List.mem_singleton] at hl ⊢
        rw [hl]
        simp
      · simp [newCompiler]
      · simp [newCompiler]
      · simp [newCompiler]
      · simp [newCompiler]
      · simp [newCompiler]
    · intro d hd
      rw [hcs'] at hd
      obtain rfl := Option.some.inj hd
      intro l hl
      simp only [newCompiler, List.mem_singleton] at hl
      rw [hl]
    · simp [Ctx.scopeDepth, hcs', newCompiler]

/-- What a function starts with: its parameters, none of them called `super`. -/
theorem function_entry {type : FunctionType} {name : Name} {params : List Name} {x y : Ctx N}
    (htype : type ≠ .script) (hgood : Good x.compilers) (hready : x.Ready)
    (hplain : ∀ p ∈ params, PlainName p)
    (h : (x.initCompiler type name).beginScope.parameters params = some y) :
    y.classes = x.classes ∧ Good y.compilers ∧ y.Ready ∧
      ∃ c cs, y.compilers = c :: cs ∧ List.Forall₂ (Compiler.Grows []) x.compilers cs ∧
        c.type = type ∧ c.arity = params.length ∧ c.locals.length = params.length + 1 ∧
        ∀ l ∈ c.locals, l.name ≠ "super".toList := by
  obtain ⟨hg, hr, hd⟩ := initCompiler_good name htype hgood hready
  have hp := parameters_ok h hplain hg hr hd
  obtain ⟨c, c', cs, cs', hc, hc', htail, ht, -, harity, hlen, hsuper⟩ := hp.compilers
  have hcs : (x.initCompiler type name).beginScope.compilers
      = { newCompiler type (some name) with scopeDepth := 1 } :: x.compilers :=
    beginScope_cons rfl
  rw [hcs] at hc
  obtain ⟨rfl, rfl⟩ := List.cons.inj hc
  refine ⟨hp.classes, hp.good, hp.ready, c', cs', hc', htail, ht, ?_, ?_, hsuper ?_⟩
  · simpa [newCompiler] using harity
  · rw [hlen]
    simp only [newCompiler, List.length_singleton]
    omega
  · intro l hl
    simp only [newCompiler, List.mem_singleton] at hl
    rw [hl]
    cases type <;> simp

theorem entryShape_sub (type : FunctionType) (captured : ℕ → Bool) : ∀ {ls : List Local},
    ls ≠ [] → (∀ l ∈ ls, l.name ≠ "super".toList) →
    (entryShape (ls.length - 1) type.isMethod).Sub ⟨localSlots type captured ls, none⟩ := by
  intro ls
  induction ls with
  | nil => exact fun h => absurd rfl h
  | cons l ls ih =>
    intro _ hns
    have hl := hns l (by simp)
    cases ls with
    | nil =>
      have hkind : localKind type 0 l.name = if type.isMethod then .inst else .any := by
        simp only [localKind]
        rw [if_neg hl]
        cases type <;> rfl
      refine ⟨.cons ⟨fun h => (by cases h), fun _ => ?_⟩ .nil, .inl rfl, ?_⟩
      · rw [List.length_nil, hkind]
        exact Kind.Sub.refl _
      · simp [bottomKind, localSlots, entryShape, hkind]
    | cons m ls =>
      obtain ⟨hrest, -, hbottom⟩ := ih (by simp) fun l hl => hns l (by simp [hl])
      refine ⟨.cons ⟨fun h => (by cases h), fun _ => ?_⟩ hrest, .inl rfl, ?_⟩
      · simp only [localKind, List.length_cons]
        rw [if_neg hl, if_neg (by simp)]
        exact Kind.Sub.refl _
      · have hslots : localSlots type captured (m :: ls) ≠ [] := by simp [localSlots]
        rw [localSlots, bottomKind_cons hslots, hbottom]
        simp [entryShape, bottomKind]

/-! ### Returning -/

section Return

variable {W : ObjFunction N → Signature → Prop} {I : Info N}

/-- Nothing comes after a return. -/
theorem Frag.ret {a b : Shape} (ha : a.peekable = true) : Frag W I a [.return_] b := by
  have hne : a.slots ≠ [] := by
    intro h0; simp [Shape.peekable, h0] at ha
  exact ⟨[(⟨a, noSig⟩, .return_)], rfl, Shape.Sub.refl a, fun p q z _ => Cert.single.2 ⟨hne, ha⟩⟩

theorem returnCode_frag {x : Ctx N} (hgood : Good x.compilers) (F : Final N) (b : Shape) :
    Frag W I ⟨x.frame F, none⟩ x.returnCode b := by
  have hne := Ctx.frame_ne hgood F
  unfold Ctx.returnCode
  split
  · cases hc : x.compilers with
    | nil => exact absurd hc hgood.ne_nil
    | cons c cs =>
      rw [hc] at hgood
      obtain ⟨base, hbase, hdepth, -⟩ := hgood.head.base
      have hslot : slotAt 0 (x.frame F)
          = some ⟨localKind c.type 0 base.name, F.captured 0⟩ := by
        simp only [Ctx.frame, hc]
        exact slotAt_localSlots _ _ (slotAt_readyLocals hbase (by omega))
      refine Frag.cons (b := ⟨⟨localKind c.type 0 base.name, false⟩ :: x.frame F, none⟩)
        (Frag.instr hne ?_) (Frag.ret ?_)
      · simp [transfer, hslot, Shape.push]
      · cases hf : x.frame F with
        | nil => exact absurd hf hne
        | cons s ss => simpa [Shape.peekable] using localKind_ne_meth c.type 0 base.name
  · exact Frag.cons (Frag.instr hne rfl) (Frag.ret (peekable_temp hne))

end Return

/-! ### Closures -/

theorem upvalueKind_some {e : Compiler N} {cs : List (Compiler N)} {F : Final N}
    {Fs : List (Final N)} (hgood : Good (e :: cs)) (hchain : Chain (e :: cs) (F :: Fs)) {j : ℕ}
    (hj : j < e.upvalues.length) : ∃ k, F.upvalues[j]? = some k := by
  cases cs with
  | nil =>
    rw [hgood.2.2] at hj
    cases hj
  | cons d cs =>
    cases Fs with
    | nil => exact hchain.elim
    | cons G Fs =>
      obtain ⟨k, hk, -⟩ := hchain.2.1 j _ (List.getElem?_eq_getElem hj)
      exact ⟨k, hk⟩

theorem captureKind_some {e : Compiler N} {cs : List (Compiler N)} {F : Final N}
    {Fs : List (Final N)} (hgood : Good (e :: cs)) (hchain : Chain (e :: cs) (F :: Fs))
    {u : Upvalue} (hu : UpvalueOk e u) : ∃ k, captureKind e F u = some k := by
  unfold captureKind
  unfold UpvalueOk at hu
  split at hu
  · rename_i hl
    obtain ⟨l, hi, -⟩ := hu
    rw [if_pos hl, hi]
    exact ⟨_, rfl⟩
  · rename_i hl
    rw [if_neg hl]
    exact upvalueKind_some hgood hchain hu

/-- The captures of a closure fit the frame it is made in. -/
theorem captureOk {c e : Compiler N} {cs : List (Compiler N)} {F : Final N} {Fs : List (Final N)}
    (hchain : Chain (e :: cs) (F :: Fs)) (hgrow : c.Grows [] e) (hready : c.Ready) {u : Upvalue}
    (hu : UpvalueOk e u) {k : Kind} (hk : captureKind e F u = some k) {b : Shape} {T : List Slot}
    (hb : b.slots = T ++ c.frame F) : CaptureOk F.info b u k := by
  unfold CaptureOk
  unfold captureKind at hk
  unfold UpvalueOk at hu
  split at hu
  · rename_i hl
    obtain ⟨l, hi, hcap⟩ := hu
    rw [if_pos hl, hi] at hk
    obtain rfl := Option.some.inj hk
    rw [if_pos hl, hb, ← hgrow.frame_eq]
    have hslot := slotAt_localSlots e.type F.captured hi
    rw [hchain.within.2 _ l hi hcap] at hslot
    have hframe : e.frame F = localSlots e.type F.captured e.locals := by
      unfold Compiler.frame
      rw [(hgrow.ready hready).readyLocals_eq]
    rw [hframe, slotAt_append T (slotAt_lt hslot)]
    exact hslot
  · rename_i hl
    rw [if_neg hl] at hk ⊢
    exact hk

theorem CaptureOk.sub {I : Info N} {a b : Shape} {u : Upvalue} {k : Kind} (h : CaptureOk I a u k)
    (hab : a.Sub b) : CaptureOk I b u k := by
  unfold CaptureOk at h ⊢
  split at h
  · rename_i hl
    rw [if_pos hl]
    obtain ⟨s, hs, hsub⟩ := slotAt_forall₂ hab.1 h
    rw [hs, hsub.1 rfl]
  · rename_i hl
    rw [if_neg hl]
    exact h

/-- The kind of the closure of a function. -/
def FunctionType.closureKind (t : FunctionType) : Kind := if t.isMethod then .meth else .any

/-- The kinds of the upvalues of a compiler, where `e` and `F` are those around it. -/
def Compiler.upvalueKinds (c e : Compiler N) (F : Final N) : List Kind :=
  c.upvalues.map fun u => (captureKind e F u).getD .any

/-- What is known of a compiler, where `ks` are the kinds of its upvalues, if nothing is added. -/
def Compiler.final (c : Compiler N) (ks : List Kind) : Final N :=
  ⟨c.constants, ks, fun i => ((slotAt i c.locals).map (·.isCaptured)).getD false⟩

theorem Compiler.within_final (c : Compiler N) (ks : List Kind) : c.Within (c.final ks) :=
  ⟨List.prefix_rfl, fun i l hi hcap => by simp [Compiler.final, hi, hcap]⟩

theorem captureKind_getD {c e : Compiler N} {cs : List (Compiler N)} {F : Final N}
    {Fs : List (Final N)} (hgood : Good (c :: e :: cs)) (hF : Chain (e :: cs) (F :: Fs)) :
    ∀ u ∈ c.upvalues, captureKind e F u = some ((captureKind e F u).getD .any) := by
  intro u hu
  obtain ⟨k, hk⟩ := captureKind_some hgood.tail hF (hgood.2.2.1 u hu)
  rw [hk]
  rfl

theorem Chain.cons_final {c e : Compiler N} {cs : List (Compiler N)} {F : Final N}
    {Fs : List (Final N)} (hgood : Good (c :: e :: cs)) (hF : Chain (e :: cs) (F :: Fs)) :
    Chain (c :: e :: cs) (c.final (c.upvalueKinds e F) :: F :: Fs) := by
  refine ⟨c.within_final _, fun j u hj => ?_, hF⟩
  refine ⟨(captureKind e F u).getD .any, ?_, captureKind_getD hgood hF u (List.mem_of_getElem? hj)⟩
  simp [Compiler.final, Compiler.upvalueKinds, hj]

/-- A chain that ends here. -/
theorem Good.exists_chain : ∀ {cs : List (Compiler N)}, Good cs → ∃ F Fs, Chain cs (F :: Fs) := by
  intro cs
  induction cs with
  | nil => exact fun h => h.elim
  | cons c cs ih =>
    intro hgood
    cases cs with
    | nil => exact ⟨c.final [], [], c.within_final []⟩
    | cons e cs =>
      obtain ⟨F, Fs, hF⟩ := ih hgood.tail
      exact ⟨_, _, Chain.cons_final hgood hF⟩

/-- A finished function has a certificate. -/
theorem finish_wellTyped {type : FunctionType} {params : List Name} {is : List Instr}
    {y y' : Ctx N} {c c' e : Compiler N} {cs es : List (Compiler N)} {F : Final N}
    {Fs : List (Final N)} (hy : y.compilers = c :: cs) (hyready : y.Ready) (hty : c.type = type)
    (harity : c.arity = params.length) (hlen : c.locals.length = params.length + 1)
    (hns : ∀ l ∈ c.locals, l.name ≠ "super".toList) (hbody : StmtOk y y' is)
    (hy' : y'.compilers = c' :: e :: es) (hF : Chain (e :: es) (F :: Fs)) :
    WellTyped (c'.finish (encodeAll (is ++ y'.returnCode)))
      ⟨type.isMethod, c'.upvalueKinds e F⟩ := by
  obtain ⟨extra, hchain, -⟩ := hbody.1.chain
  obtain ⟨c₁, c₁', cs₁, cs₁', hc₁, hc₁', head, -⟩ := hchain.inv
  rw [hy] at hc₁
  rw [hy'] at hc₁'
  obtain ⟨rfl, rfl⟩ := List.cons.inj hc₁
  obtain ⟨rfl, rfl⟩ := List.cons.inj hc₁'
  have hgood' : Good (c' :: e :: es) := hy' ▸ hbody.1.good
  set G := c'.final (c'.upvalueKinds e F) with hG
  have hfrag := (hbody.2 G (F :: Fs) (by rw [hy']; exact Chain.cons_final hgood' hF)).append
    (returnCode_frag hbody.1.good G ⟨[], none⟩)
  obtain ⟨code, hcode, hentry, hcert⟩ := hfrag
  refine .intro WellTyped _ _ (fun _ _ h => h) ⟨by simp [Compiler.finish, Compiler.upvalueKinds],
    hgood'.head.functions, code, ?_, ?_, ?_, hcert [] [] ⟨[], none⟩ (Shape.Sub.refl _)⟩
  · simp [Compiler.finish, hcode]
  · rw [hcode]
    unfold Ctx.returnCode
    split <;> simp
  · have hlocals : c.locals ≠ [] := by
      intro h0
      rw [h0] at hlen
      simp at hlen
    have hsub := entryShape_sub type G.captured hlocals hns
    rw [hlen, Nat.add_sub_cancel] at hsub
    have hframe : y.frame G = localSlots type G.captured c.locals := by
      simp only [Ctx.frame, hy, Compiler.frame, (hyready c (by simp [hy])).readyLocals_eq, hty]
    rw [hframe] at hentry
    have harity' : (c'.finish (encodeAll (is ++ y'.returnCode))).arity = params.length :=
      head.arity.trans harity
    rw [harity']
    exact hsub.trans hentry

theorem closure_ok {type : FunctionType} {name : Name} {params : List Name} {is js : List Instr}
    {x y y' x' : Ctx N} (htype : type ≠ .script) (hgood : Good x.compilers) (hready : x.Ready)
    (hplain : ∀ p ∈ params, PlainName p)
    (hparams : (x.initCompiler type name).beginScope.parameters params = some y)
    (hbody : StmtOk y y' is) (hclos : y'.closure is = some (js, x')) :
    x.Grows x' ∧ ∀ F Fs, Chain x'.compilers (F :: Fs) → ∀ a b T, a.slots ≠ [] →
      b.slots = T ++ x.frame F → (a.push type.closureKind).Sub b →
      Frag WellTyped F.info a js b := by
  obtain ⟨hclasses, hygood, hyready, c₁, cs₁, hy, htail₁, hty, harity, hlen, hns⟩ :=
    function_entry htype hgood hready hplain hparams
  obtain ⟨extra, hchain', -⟩ := hbody.1.chain
  obtain ⟨c₁', c', cs₁', cs', hy', hy'', head, htail'⟩ := hchain'.inv
  rw [hy] at hy'
  obtain ⟨rfl, rfl⟩ := List.cons.inj hy'
  have htail := compilersGrow_trans htail₁ htail'
  simp only [Ctx.closure, hy'', Option.bind_eq_bind, Option.bind_eq_some_iff, Prod.exists] at hclos
  obtain ⟨k, w, hk, h⟩ := hclos
  obtain ⟨rfl, rfl⟩ := Prod.mk.inj (Option.some.inj h)
  cases hx : x.compilers with
  | nil => exact absurd hx hgood.ne_nil
  | cons c cs =>
    rw [hx] at htail
    cases htail with
    | @cons _ e _ es hce hces =>
      have hgood' : Good (c' :: e :: es) := hy'' ▸ hbody.1.good
      have hwell : ∀ {F : Final N} {Fs : List (Final N)}, Chain (e :: es) (F :: Fs) →
          WellTyped (c'.finish (encodeAll (is ++ y'.returnCode)))
            ⟨type.isMethod, c'.upvalueKinds e F⟩ :=
        finish_wellTyped hy hyready hty harity hlen hns hbody hy''
      obtain ⟨F₀, Fs₀, hF₀⟩ := hgood'.tail.exists_chain
      obtain ⟨hgrow, hfinal⟩ := makeConstant_ok hk hgood'.tail fun g hg => by
        obtain rfl := Constant.function.inj hg
        exact ⟨_, hwell hF₀⟩
      have hxgrow : x.Grows { y' with compilers := e :: es } :=
        ⟨hbody.1.classes.trans hclasses, hgood'.tail, by rw [hx]; exact .cons hce hces⟩
      refine ⟨hxgrow.trans hgrow, fun F Fs hFs a b T ha hb hab => ?_⟩
      have hF : Chain (e :: es) (F :: Fs) := Chain.mono hgood'.tail hgrow.chain hFs
      refine ⟨[(⟨a, ⟨type.isMethod, c'.upvalueKinds e F⟩⟩, .closure k c'.upvalues)], rfl,
        Shape.Sub.refl a, fun p q z hz => Cert.single.2 ⟨ha, ⟨_, ?_, rfl, hwell hF⟩, hab.trans hz, ?_⟩⟩
      · have hconst := hfinal F Fs hFs
        simp only [functionAt, show F.info.constants = F.constants from rfl, hconst]
      · simp only [Compiler.upvalueKinds, List.forall₂_map_right_iff]
        refine List.forall₂_same.2 fun u hu => ?_
        have hxframe : x.frame F = c.frame F := by simp [Ctx.frame, hx]
        rw [hxframe] at hb
        exact (captureOk hF hce (hready c (by simp [hx])) (hgood'.2.2.1 u hu)
          (captureKind_getD hgood' hF u hu) hb).sub hz

end Lox.Clox
