import Lox.Clox.Certify.Expr

/-!
# Certificates for declarations and scopes

What declaring a local, opening and leaving a scope do to the frame: a declaration turns the value
on top into the slot of the new local (`Declares`), and the code at the end of a scope drops
exactly the slots of its locals (`endScope_ok`), closing those that were captured.
-/

namespace Lox.Clox

variable {N : Type}

/-- No local of the innermost compiler is waiting for its initializer. -/
def Ctx.Ready (x : Ctx N) : Prop := ∀ c ∈ x.compilers.head?, c.Ready

/-- From `x` to `x'` statements were compiled: there may be new locals of the present scope. -/
structure Ctx.Extends (x x' : Ctx N) : Prop where
  classes : x'.classes = x.classes
  good : Good x'.compilers
  ready : x'.Ready
  chain : ∃ extra, ChainGrows extra x.compilers x'.compilers ∧
    (∀ l ∈ extra, l.depth = x.scopeDepth) ∧ (x.scopeDepth = 0 → extra = [])

/-- The code `is` leads from `x` to `x'`, with no temporaries before and after. -/
def StmtOk (x x' : Ctx N) (is : List Instr) : Prop :=
  x.Extends x' ∧ ∀ F Fs, Chain x'.compilers (F :: Fs) →
    Frag WellTyped F.info ⟨x.frame F, none⟩ is ⟨x'.frame F, none⟩

/-! ### Growing by locals -/

theorem forall₂_append_split {α β : Type} {R : α → β → Prop} {as bs : List α} {cs : List β}
    (h : List.Forall₂ R (as ++ bs) cs) :
    ∃ as' bs', cs = as' ++ bs' ∧ List.Forall₂ R as as' ∧ List.Forall₂ R bs bs' := by
  induction as generalizing cs with
  | nil => exact ⟨[], cs, rfl, .nil, h⟩
  | cons a as ih =>
    cases h with
    | cons hab hs =>
      obtain ⟨as', bs', rfl, h₁, h₂⟩ := ih hs
      exact ⟨_ :: as', bs', rfl, .cons hab h₁, h₂⟩

theorem Compiler.Grows.trans_extra {e₁ e₂ : List Local} {c d e : Compiler N} (h₁ : c.Grows e₁ d)
    (h₂ : d.Grows e₂ e) :
    ∃ e₁', List.Forall₂ Local.Grows e₁ e₁' ∧ c.Grows (e₂ ++ e₁') e := by
  obtain ⟨ls, hls, hg⟩ := h₁.locals
  obtain ⟨ms, hms, hg'⟩ := h₂.locals
  rw [hls] at hg'
  obtain ⟨e₁', ls', rfl, hg₁, hg₂⟩ := forall₂_append_split hg'
  exact ⟨e₁', hg₁, ⟨h₂.type.trans h₁.type, h₂.name.trans h₁.name, h₂.arity.trans h₁.arity,
    h₂.scopeDepth.trans h₁.scopeDepth, h₁.constants.trans h₂.constants,
    h₁.upvalues.trans h₂.upvalues, ls', by rw [hms, List.append_assoc],
    forall₂_trans (R := Local.Grows) (fun _ _ _ h k => h.trans k) hg hg₂⟩⟩

theorem ChainGrows.trans_extra {e₁ e₂ : List Local} {cs ds es : List (Compiler N)}
    (h₁ : ChainGrows e₁ cs ds) (h₂ : ChainGrows e₂ ds es) :
    ∃ e₁', List.Forall₂ Local.Grows e₁ e₁' ∧ ChainGrows (e₂ ++ e₁') cs es := by
  cases h₁ with
  | cons head tail =>
    cases h₂ with
    | cons head' tail' =>
      obtain ⟨e₁', hg, hc⟩ := head.trans_extra head'
      exact ⟨e₁', hg, .cons hc (compilersGrow_trans tail tail')⟩

theorem ChainGrows.scopeDepth {extra : List Local} {x x' : Ctx N}
    (h : ChainGrows extra x.compilers x'.compilers) : x'.scopeDepth = x.scopeDepth := by
  unfold Ctx.scopeDepth
  generalize x.compilers = cs at h
  generalize x'.compilers = ds at h
  cases h with
  | cons head tail => simp [head.scopeDepth]

theorem ChainGrows.type_eq {extra : List Local} {x x' : Ctx N}
    (h : ChainGrows extra x.compilers x'.compilers) : x'.type = x.type := by
  unfold Ctx.type
  generalize x.compilers = cs at h
  generalize x'.compilers = ds at h
  cases h with
  | cons head tail => simp [head.type]

theorem Ctx.Grows.ready {x x' : Ctx N} (h : x.Grows x') (hr : x.Ready) : x'.Ready := by
  have hc := h.chain
  unfold Ctx.Ready at hr ⊢
  generalize x.compilers = cs at hc hr
  generalize x'.compilers = ds at hc
  cases hc with
  | cons head tail =>
    rintro c ⟨⟩
    exact head.ready (hr _ rfl)

theorem Ctx.Grows.extends {x x' : Ctx N} (h : x.Grows x') (hr : x.Ready) : x.Extends x' :=
  ⟨h.classes, h.good, h.ready hr, [], h.chain, by simp, fun _ => rfl⟩

theorem Ctx.Extends.trans {x y z : Ctx N} (h₁ : x.Extends y) (h₂ : y.Extends z) : x.Extends z := by
  obtain ⟨e₁, hc₁, hd₁, hz₁⟩ := h₁.chain
  obtain ⟨e₂, hc₂, hd₂, hz₂⟩ := h₂.chain
  obtain ⟨e₁', hg, hc⟩ := hc₁.trans_extra hc₂
  have hdepth := hc₁.scopeDepth
  refine ⟨h₂.classes.trans h₁.classes, h₂.good, h₂.ready, e₂ ++ e₁', hc, ?_, ?_⟩
  · intro l hl
    rcases List.mem_append.1 hl with hl | hl
    · rw [hd₂ l hl, hdepth]
    · obtain ⟨l', hl', hgl⟩ := Local.Grows.mem hg hl
      rw [hgl.2.1, hd₁ l' hl']
  · intro h0
    have h1 := hz₁ h0
    have h2 := hz₂ (hdepth.trans h0)
    subst h1 h2
    cases hg
    rfl

theorem Ctx.Extends.scopeOk {x x' : Ctx N} (h : x.Extends x') (hs : ScopeOk x) : ScopeOk x' := by
  obtain ⟨extra, hc, -⟩ := h.chain
  exact hs.grows h.classes hc

theorem StmtOk.nil {x : Ctx N} (hgood : Good x.compilers) (hready : x.Ready) : StmtOk x x [] :=
  ⟨(Ctx.Grows.refl hgood).extends hready, fun _ _ _ => Frag.nil (Shape.Sub.refl _)⟩

theorem StmtOk.append {x y z : Ctx N} {is js : List Instr} (h₁ : StmtOk x y is)
    (h₂ : StmtOk y z js) : StmtOk x z (is ++ js) := by
  refine ⟨h₁.1.trans h₂.1, fun F Fs hchain => ?_⟩
  obtain ⟨extra, hc, -⟩ := h₂.1.chain
  exact (h₁.2 F Fs (Chain.mono h₁.1.good hc hchain)).append (h₂.2 F Fs hchain)

/-- The value of an expression is used up by one instruction. -/
theorem ExprOk.stmt {x y : Ctx N} {is : List Instr} {i : Instr} (h : ExprOk x y is [.any])
    (hready : x.Ready) (hi : ∀ I : Info N, transfer I i = Shape.replace 1 []) :
    StmtOk x y (is ++ [i]) := by
  refine ⟨h.1.extends hready, fun F Fs hchain => ?_⟩
  rw [h.1.frame_eq]
  have f := h.2 F Fs hchain []
  refine f.append (Frag.instr (by simp) ?_)
  rw [hi]
  refine replace_temps [.any] [] (by simp) ?_
  rw [List.nil_append, ← h.1.frame_eq]
  exact Ctx.frame_ne h.1.good F

/-! ### Changing the innermost compiler -/

theorem Chain.within {c : Compiler N} {cs : List (Compiler N)} {F : Final N} {Fs : List (Final N)}
    (h : Chain (c :: cs) (F :: Fs)) : c.Within F := by
  cases cs with
  | nil =>
    cases Fs with
    | nil => exact h
    | cons G Fs => exact h.elim
  | cons e cs =>
    cases Fs with
    | nil => exact h.elim
    | cons G Fs => exact h.1

theorem Chain.replace_head {c c' : Compiler N} {cs : List (Compiler N)} {F F' : Final N}
    {Fs : List (Final N)} (h : Chain (c :: cs) (F :: Fs)) (hw : c'.Within F')
    (hu : c'.upvalues = c.upvalues) (hF : F'.upvalues = F.upvalues) :
    Chain (c' :: cs) (F' :: Fs) := by
  cases cs with
  | nil =>
    cases Fs with
    | nil => exact hw
    | cons G Fs => exact h.elim
  | cons e cs =>
    cases Fs with
    | nil => exact h.elim
    | cons G Fs =>
      obtain ⟨-, hup, hrest⟩ := h
      refine ⟨hw, fun j u hj => ?_, hrest⟩
      rw [hu] at hj
      rw [hF]
      exact hup j u hj

/-- The same chain as far as finished functions are concerned. -/
theorem Chain.congr_head {c c' : Compiler N} {cs : List (Compiler N)} {F : Final N}
    {Fs : List (Final N)} (h : Chain (c :: cs) (F :: Fs)) (hk : c'.constants = c.constants)
    (hu : c'.upvalues = c.upvalues)
    (hl : ∀ i l', slotAt i c'.locals = some l' → l'.isCaptured = true →
      ∃ l, slotAt i c.locals = some l ∧ l.isCaptured = true) : Chain (c' :: cs) (F :: Fs) := by
  refine h.replace_head ⟨?_, fun i l' hi hcap => ?_⟩ hu rfl
  · rw [hk]
    exact h.within.1
  · obtain ⟨l, hi', hc⟩ := hl i l' hi hcap
    exact h.within.2 i l hi' hc

/-! ### Declaring a local -/

/-- `x'` has one more local than `x`. -/
structure Ctx.Declares (x x' : Ctx N) (l : Local) : Prop where
  classes : x'.classes = x.classes
  good : Good x'.compilers
  chain : ChainGrows [l] x.compilers x'.compilers

theorem Ctx.frame_length {x : Ctx N} (hready : x.Ready) (F : Final N) :
    (x.frame F).length = x.locals.length := by
  unfold Ctx.frame Ctx.locals
  cases hc : x.compilers with
  | nil => simp
  | cons c cs =>
    have hr := hready c (by simp [hc])
    simp [Compiler.frame, hr.readyLocals_eq]

theorem ChainGrows.inv {extra : List Local} {cs ds : List (Compiler N)}
    (h : ChainGrows extra cs ds) : ∃ c c' cs' ds', cs = c :: cs' ∧ ds = c' :: ds' ∧
      c.Grows extra c' ∧ List.Forall₂ (Compiler.Grows []) cs' ds' := by
  cases h with
  | cons head tail => exact ⟨_, _, _, _, rfl, rfl, head, tail⟩

theorem Ctx.Declares.frame_pending {x x' : Ctx N} {l : Local} (h : x.Declares x' l)
    (hready : x.Ready) (hl : l.depth = -1) (F : Final N) : x'.frame F = x.frame F := by
  obtain ⟨c, c', cs, cs', hx, hx', head, -⟩ := h.chain.inv
  obtain ⟨ls, hls, hg⟩ := head.locals
  have hr := hready c (by simp [hx])
  have hpending : readyLocals c'.locals = ls := by
    rw [hls]
    exact if_pos hl
  simp only [Ctx.frame, hx, hx', Compiler.frame, hpending, hr.readyLocals_eq, head.type]
  exact localSlots_grows hg

theorem Ctx.Declares.frame_eq {x x' : Ctx N} {l : Local} (h : x.Declares x' l)
    (hready : x.Ready) (hl : l.depth ≠ -1) (F : Final N) :
    x'.frame F = ⟨localKind x.type (x.frame F).length l.name, F.captured (x.frame F).length⟩ ::
      x.frame F := by
  obtain ⟨c, c', cs, cs', hx, hx', head, -⟩ := h.chain.inv
  obtain ⟨ls, hls, hg⟩ := head.locals
  have hr := hready c (by simp [hx])
  have hdone : readyLocals c'.locals = l :: ls := by
    rw [hls]
    exact if_neg hl
  simp only [Ctx.frame, Ctx.type, hx, hx', Compiler.frame, hdone, hr.readyLocals_eq, head.type,
    length_localSlots, List.head?_cons, Option.map_some, Option.getD_some, localSlots,
    localSlots_grows hg, ← hg.length_eq]

theorem addLocal_ok {name : Name} {x x' : Ctx N} (h : x.addLocal name = some x')
    (hgood : Good x.compilers) (hready : x.Ready) (hdepth : 0 < x.scopeDepth)
    (hname : name ≠ "this".toList) : x.Declares x' ⟨name, -1, false⟩ := by
  unfold Ctx.addLocal at h
  split at h
  · cases h
  · rename_i hlen
    obtain rfl := Option.some.inj h
    cases hc : x.compilers with
    | nil => exact absurd hc hgood.ne_nil
    | cons c cs =>
      have hr := hready c (by simp [hc])
      rw [hc] at hgood
      have hg := hgood.head
      have hlen' : c.locals.length ≠ 256 := by simpa [Ctx.locals, hc] using hlen
      have hd : 0 < c.scopeDepth := by simpa [Ctx.scopeDepth, hc] using hdepth
      have hcs : (x.mapCurrent fun c => { c with locals := ⟨name, -1, false⟩ :: c.locals }).compilers
          = { c with locals := ⟨name, -1, false⟩ :: c.locals } :: cs := by
        simp [Ctx.mapCurrent, hc]
      obtain ⟨b, hb, hbd, hbn⟩ := hg.base
      have hpos := slotAt_lt hb
      refine ⟨rfl, ?_, ?_⟩
      · rw [hcs]
        refine hgood.replace_head ⟨⟨b, ?_, hbd, hbn⟩, ?_, ?_, ?_, ?_, ?_, hg.upvalues_le,
          hg.functions⟩ rfl rfl
        · simp only [slotAt]
          rw [if_neg (by omega)]
          exact hb
        · intro i l hi h0
          simp only [slotAt] at hi
          split at hi
          · obtain rfl := Option.some.inj hi
            exact hname
          · exact hg.names i l hi h0
        · intro l hl
          rcases List.mem_cons.1 hl with rfl | hl
          · simp only
            omega
          · exact hg.depth l hl
        · exact hr
        · intro h0
          simp only at h0
          omega
        · simp only [List.length_cons]
          have := hg.locals_le
          omega
      · rw [hc, hcs]
        exact .cons ⟨rfl, rfl, rfl, rfl, List.prefix_rfl, List.prefix_rfl, c.locals, rfl,
          List.forall₂_same.2 fun l _ => Local.Grows.refl l⟩ (compilersGrow_refl cs)

theorem Ctx.Declares.grows {x x' x'' : Ctx N} {l : Local} (h : x.Declares x' l)
    (hg : x'.Grows x'') : ∃ l', l.Grows l' ∧ x.Declares x'' l' := by
  obtain ⟨e, he, hc⟩ := h.chain.trans_extra hg.chain
  cases he with
  | cons hl hnil =>
    cases hnil
    exact ⟨_, hl, hg.classes.trans h.classes, hg.good, hc⟩

/-- Marking the new local as initialized. -/
theorem Ctx.Declares.mark {x x' : Ctx N} {l : Local} (h : x.Declares x' l)
    (hgood : Good x.compilers) (hready : x.Ready) (hdepth : 0 < x.scopeDepth) :
    x.Declares x'.markInitialized { l with depth := x.scopeDepth } ∧ x'.markInitialized.Ready ∧
      ∀ F Fs, Chain x'.markInitialized.compilers (F :: Fs) → Chain x'.compilers (F :: Fs) := by
  obtain ⟨c, c', cs, cs', hx, hx', head, tail⟩ := h.chain.inv
  obtain ⟨ls, hls, hg⟩ := head.locals
  have hr := hready c (by simp [hx])
  have hd : x.scopeDepth = c.scopeDepth := by simp [Ctx.scopeDepth, hx]
  have hgood' := h.good
  rw [hx'] at hgood'
  have hg' := hgood'.head
  have hlocals : c'.locals = l :: ls := hls
  set c'' : Compiler N := { c' with locals := { l with depth := (c.scopeDepth : ℤ) } :: ls } with hc''
  have hmark : x'.markInitialized = { x' with compilers := c'' :: cs' } := by
    unfold Ctx.markInitialized
    rw [if_neg (by rw [h.chain.scopeDepth]; omega)]
    simp [Ctx.mapCurrent, hx', hc'', hls, head.scopeDepth]
  have hls_ready : ∀ m ∈ ls, 0 ≤ m.depth := by
    intro m hm
    obtain ⟨m', hm', hgm⟩ := Local.Grows.mem hg hm
    rw [hgm.2.1]
    exact hr m' hm'
  have hne : 0 < ls.length := by
    rw [hx] at hgood
    obtain ⟨b, hb, -⟩ := hgood.head.base
    have := slotAt_lt hb
    rw [hg.length_eq] at this
    omega
  -- The same locals as before, but for the depth of the last one.
  have hslot : ∀ i m, slotAt i c''.locals = some m →
      ∃ m', slotAt i c'.locals = some m' ∧ m'.name = m.name ∧ m'.isCaptured = m.isCaptured := by
    intro i m hi
    simp only [hc'', hlocals, slotAt] at hi ⊢
    split at hi
    · rename_i hlen
      obtain rfl := Option.some.inj hi
      exact ⟨l, if_pos hlen, rfl, rfl⟩
    · rename_i hlen
      exact ⟨m, (if_neg hlen).trans hi, rfl, rfl⟩
  rw [hmark]
  refine ⟨⟨h.classes, ?_, ?_⟩, ?_, ?_⟩
  · refine hgood'.replace_head ⟨?_, ?_, ?_, ?_, ?_, ?_, hg'.upvalues_le, hg'.functions⟩ rfl rfl
    · obtain ⟨b, hb, hbd, hbn⟩ := hg'.base
      refine ⟨b, ?_, hbd, hbn⟩
      simp only [hlocals, hc'', slotAt] at hb ⊢
      rw [if_neg (by omega)] at hb ⊢
      exact hb
    · intro i m hi h0
      obtain ⟨m', hm', hname, -⟩ := hslot i m hi
      rw [← hname]
      exact hg'.names i m' hm' h0
    · intro m hm
      simp only [hc'', List.mem_cons] at hm
      rcases hm with rfl | hm
      · simp [hc'', head.scopeDepth]
      · exact hg'.depth m (by rw [hlocals]; simp [hm])
    · exact hls_ready
    · intro h0
      have : c'.scopeDepth = 0 := h0
      rw [head.scopeDepth] at this
      omega
    · have := hg'.locals_le
      simpa [hlocals, hc''] using this
  · rw [hx, hd]
    exact .cons ⟨head.type, head.name, head.arity, head.scopeDepth, head.constants, head.upvalues, ls,
      rfl, hg⟩ tail
  · rintro d ⟨⟩
    intro m hm
    simp only [hc'', List.mem_cons] at hm
    rcases hm with rfl | hm
    · simp
    · exact hls_ready m hm
  · intro F Fs hchain
    rw [hx']
    refine hchain.congr_head rfl rfl fun i m hi hcap => ?_
    simp only [hc'', hlocals, slotAt] at hi ⊢
    split at hi
    · rename_i hlen
      obtain rfl := Option.some.inj hi
      exact ⟨_, if_pos hlen, hcap⟩
    · rename_i hlen
      exact ⟨m, (if_neg hlen).trans hi, hcap⟩

theorem Ctx.Declares.extends {x x' : Ctx N} {l : Local} (h : x.Declares x' l)
    (hready : x'.Ready) (hl : l.depth = x.scopeDepth) (hdepth : 0 < x.scopeDepth) :
    x.Extends x' :=
  ⟨h.classes, h.good, hready, [l], h.chain, by simpa using hl, fun h0 => by omega⟩

/-! ### Opening and leaving a scope -/

section BeginScope

variable {x : Ctx N}

theorem beginScope_cons {c : Compiler N} {cs : List (Compiler N)} (h : x.compilers = c :: cs) :
    x.beginScope.compilers = { c with scopeDepth := c.scopeDepth + 1 } :: cs := by
  simp [Ctx.beginScope, Ctx.mapCurrent, h]

theorem beginScope_good (h : Good x.compilers) : Good x.beginScope.compilers := by
  cases hc : x.compilers with
  | nil => exact absurd hc h.ne_nil
  | cons c cs =>
    rw [beginScope_cons hc]
    rw [hc] at h
    have hg := h.head
    refine h.replace_head ⟨hg.base, hg.names, fun l hl => ?_, hg.ready, fun h0 => ?_, hg.locals_le,
      hg.upvalues_le, hg.functions⟩ rfl rfl
    · have := hg.depth l hl
      push_cast
      omega
    · simp at h0

theorem beginScope_ready (h : x.Ready) : x.beginScope.Ready := by
  unfold Ctx.Ready at h ⊢
  cases hc : x.compilers with
  | nil => simp [Ctx.beginScope, Ctx.mapCurrent, hc]
  | cons c cs =>
    rw [beginScope_cons hc]
    rintro d ⟨⟩
    exact h c (by simp [hc])

theorem beginScope_frame (F : Final N) : x.beginScope.frame F = x.frame F := by
  unfold Ctx.frame
  cases hc : x.compilers with
  | nil => simp [Ctx.beginScope, Ctx.mapCurrent, hc]
  | cons c cs =>
    rw [beginScope_cons hc]
    rfl

theorem beginScope_depth (h : Good x.compilers) : x.beginScope.scopeDepth = x.scopeDepth + 1 := by
  unfold Ctx.scopeDepth
  cases hc : x.compilers with
  | nil => exact absurd hc h.ne_nil
  | cons c cs =>
    rw [beginScope_cons hc]
    simp

theorem beginScope_scopeOk (h : ScopeOk x) : ScopeOk x.beginScope := by
  cases hc : x.compilers with
  | nil =>
    have hx : x.beginScope = x := by
      cases x
      simp_all [Ctx.beginScope, Ctx.mapCurrent]
    rw [hx]
    exact h
  | cons c cs =>
    have hcs := beginScope_cons hc
    refine ⟨fun hclass => ?_, fun hclass => ?_⟩
    · have h1 := h.this_ hclass
      rw [hc] at h1
      rw [hcs]
      exact h1
    · obtain ⟨d, hd, l, hl, hname⟩ := h.super_ hclass
      rw [hc] at hd
      rw [hcs]
      rcases List.mem_cons.1 hd with rfl | hd
      · exact ⟨_, List.mem_cons_self, l, hl, hname⟩
      · exact ⟨d, by simp [hd], l, hl, hname⟩

end BeginScope

theorem dropLocals_extra {depth : ℕ} {extra ls : List Local} (he : ∀ l ∈ extra, depth < l.depth)
    (hls : ∀ l ∈ ls, l.depth ≤ depth) :
    dropLocals depth (extra ++ ls) = (extra.map (·.isCaptured), ls) := by
  induction extra with
  | nil =>
    cases ls with
    | nil => rfl
    | cons l ls =>
      have hl := hls l (by simp)
      simp only [List.nil_append, dropLocals]
      rw [if_neg (by omega)]
      rfl
  | cons l extra ih =>
    have hl := he l (by simp)
    simp only [List.cons_append, dropLocals]
    rw [if_pos hl, ih fun m hm => he m (by simp [hm])]
    rfl

theorem localKind_ne_meth (type : FunctionType) (slot : ℕ) (name : Name) :
    localKind type slot name ≠ .meth := by
  unfold localKind
  split
  · simp
  · split <;> simp

theorem localSlots_congr {type : FunctionType} {f g : ℕ → Bool} {ls : List Local}
    (h : ∀ i < ls.length, f i = g i) : localSlots type f ls = localSlots type g ls := by
  induction ls with
  | nil => rfl
  | cons l ls ih =>
    simp only [localSlots]
    rw [ih fun i hi => h i (by simp only [List.length_cons]; omega), h ls.length (by simp)]

/-- The code at the end of a scope drops the slots of its locals. -/
theorem dropCode_frag {W : ObjFunction N → Signature → Prop} {I : Info N} {type : FunctionType}
    {captured : ℕ → Bool} {ls : List Local} (hne : ls ≠ []) : ∀ {extra : List Local},
    (∀ i l, slotAt i (extra ++ ls) = some l → ls.length ≤ i → captured i = l.isCaptured) →
    Frag W I ⟨localSlots type captured (extra ++ ls), none⟩ (dropCode (extra.map (·.isCaptured)))
      ⟨localSlots type captured ls, none⟩ := by
  intro extra
  induction extra with
  | nil => exact fun _ => Frag.nil (Shape.Sub.refl _)
  | cons l extra ih =>
    intro hcap
    have hlast := hcap _ l (slotAt_cons_self l (extra ++ ls)) (by simp)
    have hrest := ih fun i m hi hle => hcap i m (by
      have hlt := slotAt_lt hi
      simp only [List.cons_append, slotAt]
      rw [if_neg (by omega)]
      exact hi) hle
    have hrne : localSlots type captured (extra ++ ls) ≠ [] := by
      intro h0
      have hlen := congrArg List.length h0
      simp only [length_localSlots, List.length_append, List.length_nil] at hlen
      exact hne (List.length_eq_zero_iff.1 (by omega))
    refine Frag.cons (Frag.instr (by simp [localSlots]) ?_) hrest
    simp only [List.cons_append, localSlots, hlast]
    by_cases hl : l.isCaptured = true
    · simp only [hl, if_true, transfer]
      cases hr : localSlots type captured (extra ++ ls) with
      | nil => exact absurd hr hrne
      | cons s ss => rfl
    · have hk := localKind_ne_meth type (extra ++ ls).length l.name
      rw [Bool.not_eq_true] at hl
      simp only [hl, Bool.false_eq_true, if_false]
      exact replace_temps [localKind type (extra ++ ls).length l.name] []
        (by simpa using hk) hrne

/-- Leaving the scope that was opened at `w`. -/
theorem endScope_ok {w z : Ctx N} {extra : List Local} (hgood : Good w.compilers)
    (hready : w.Ready) (hz : Good z.compilers) (hzr : z.Ready)
    (hc : ChainGrows extra w.beginScope.compilers z.compilers)
    (hd : ∀ l ∈ extra, l.depth = w.scopeDepth + 1) :
    Good z.endScope.2.compilers ∧ ChainGrows [] w.compilers z.endScope.2.compilers ∧
      z.endScope.2.classes = z.classes ∧
      ∀ F Fs, Chain z.endScope.2.compilers (F :: Fs) → ∃ F₁ : Final N, F₁.info = F.info ∧
        Chain z.compilers (F₁ :: Fs) ∧ w.frame F₁ = w.frame F ∧
        Frag WellTyped F.info ⟨z.frame F₁, none⟩ z.endScope.1 ⟨w.frame F, none⟩ := by
  cases hw : w.compilers with
  | nil => exact absurd hw hgood.ne_nil
  | cons c cs =>
    rw [beginScope_cons hw] at hc
    obtain ⟨c₀, c', cs₀, cs', heq, hz', head, tail⟩ := hc.inv
    obtain ⟨rfl, rfl⟩ := List.cons.inj heq
    obtain ⟨ls, hls, hg⟩ := head.locals
    have hgc : c.Good := by rw [hw] at hgood; exact hgood.head
    have hrc : c.Ready := hready c (by simp [hw])
    have hdepth : w.scopeDepth = c.scopeDepth := by simp [Ctx.scopeDepth, hw]
    have hdrop : dropLocals c.scopeDepth c'.locals = (extra.map (·.isCaptured), ls) := by
      rw [hls]
      refine dropLocals_extra (fun l hl => ?_) fun l hl => ?_
      · have := hd l hl
        omega
      · obtain ⟨m, hm, hgm⟩ := Local.Grows.mem hg hl
        rw [hgm.2.1]
        exact hgc.depth m hm
    set c₂ : Compiler N := { c' with scopeDepth := c.scopeDepth, locals := ls } with hc₂
    have hend : z.endScope = (dropCode (extra.map (·.isCaptured)), { z with compilers := c₂ :: cs' }) := by
      unfold Ctx.endScope
      simp only [hz', head.scopeDepth, Nat.add_sub_cancel, hdrop, hc₂]
    have hgrow : c.Grows [] c₂ :=
      ⟨head.type, head.name, head.arity, rfl, head.constants, head.upvalues, ls, rfl, hg⟩
    have hzgood := hz
    rw [hz'] at hzgood
    have hlsne : ls ≠ [] := by
      rintro rfl
      obtain ⟨b, hb, -⟩ := hgc.base
      have hlt := slotAt_lt hb
      have hlen : c.locals.length = 0 := hg.length_eq
      omega
    have hzc' : readyLocals c'.locals = extra ++ ls := by
      rw [(hzr c' (by simp [hz'])).readyLocals_eq, hls]
    rw [hend]
    refine ⟨hzgood.replace_head (hgrow.good hgc hzgood.head.upvalues_le
      hzgood.head.functions) rfl rfl,
      .cons hgrow tail, rfl, fun F Fs hchain => ?_⟩
    refine ⟨{ F with captured := fun i => if i < ls.length then F.captured i
      else ((slotAt i c'.locals).map (·.isCaptured)).getD false }, rfl, ?_, ?_, ?_⟩
    · rw [hz']
      refine hchain.replace_head ⟨hchain.within.1, fun i l hi hcap => ?_⟩ rfl rfl
      simp only
      split
      · rename_i hlt
        rw [hls, slotAt_append _ hlt] at hi
        exact hchain.within.2 i l hi hcap
      · simp [hi, hcap]
    · simp only [Ctx.frame, hw, Compiler.frame, hrc.readyLocals_eq]
      refine localSlots_congr fun i hi => ?_
      rw [hg.length_eq] at hi
      simp [hi]
    · have hframe : w.frame F = localSlots c'.type F.captured ls := by
        simp only [Ctx.frame, hw, Compiler.frame, hrc.readyLocals_eq]
        rw [show c'.type = c.type from head.type, localSlots_grows hg]
      have hcongr : localSlots c'.type (fun i => if i < ls.length then F.captured i
          else ((slotAt i c'.locals).map (·.isCaptured)).getD false) ls
          = localSlots c'.type F.captured ls :=
        localSlots_congr fun i hi => by simp [hi]
      rw [hframe, ← hcongr]
      simp only [Ctx.frame, hz', Compiler.frame, hzc']
      refine dropCode_frag hlsne fun i l hi hle => ?_
      rw [← hls] at hi
      rw [if_neg (by omega), hi]
      rfl

end Lox.Clox
