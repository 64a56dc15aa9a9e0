import Lox.Clox.Certify.Class
import Lox.Clox.Factor.Program

/-!
# Certificates for statements and programs

The code of a statement turns the slots of the locals before it into those after it
(`genStmt_ok`).  A branch of an `if` or the body of a loop is no declaration, so it leaves them as
they are.  Together with the factorization of the compiler this gives every accepted program a
certificate (`compile_wellTyped`).
-/

namespace Lox.Clox

variable {N : Type}

/-! ### The pieces of statements -/

/-- A block drops the locals declared in it. -/
theorem block_ok {x y : Ctx N} {is : List Instr} (hgood : Good x.compilers) (hready : x.Ready)
    (h : StmtOk x.beginScope y is) :
    x.Grows y.endScope.2 ∧ StmtOk x y.endScope.2 (is ++ y.endScope.1) := by
  obtain ⟨extra, hchain, hdepth, -⟩ := h.1.chain
  rw [beginScope_depth hgood] at hdepth
  obtain ⟨hgood', hgrow, hclasses, hend⟩ := endScope_ok hgood hready h.1.good h.1.ready hchain
    (by simpa using hdepth)
  have hgrows : x.Grows y.endScope.2 :=
    ⟨hclasses.trans h.1.classes, hgood', hgrow⟩
  refine ⟨hgrows, hgrows.extends hready, fun F Fs hF => ?_⟩
  obtain ⟨F₁, hinfo, hF₁, hframe, hf⟩ := hend F Fs hF
  have hbody := h.2 F₁ Fs hF₁
  rw [hinfo, beginScope_frame, hframe] at hbody
  rw [hgrows.frame_eq]
  exact hbody.append hf

/-- The two branches of an `if`. -/
theorem if_ok {x y z z' : Ctx N} {is ts es : List Instr} {past skip : Instr}
    (hc : ExprOk x y is [.any]) (ht : StmtOk y z ts) (htg : y.Grows z) (he : StmtOk z z' es)
    (heg : z.Grows z') (hready : x.Ready) (hpast : jumpOver .jump (.pop :: es) = some past)
    (hskip : jumpOver .jumpIfFalse ([.pop] ++ ts ++ [past]) = some skip) :
    x.Grows z' ∧ StmtOk x z' (is ++ [skip, .pop] ++ ts ++ [past, .pop] ++ es) := by
  obtain ⟨hpast_le, rfl⟩ := jumpOver_some hpast
  obtain ⟨hskip_le, rfl⟩ := jumpOver_some hskip
  have hgrow := hc.1.trans (htg.trans heg)
  refine ⟨hgrow, hgrow.extends hready, fun F Fs hF => ?_⟩
  have hF₂ := Chain.mono htg.good heg.chain hF
  have hF₁ := Chain.mono hc.1.good htg.chain hF₂
  have fc := hc.2 F Fs hF₁ []
  have ft := ht.2 F Fs hF₂
  have fe := he.2 F Fs hF
  have hne : x.frame F ≠ [] := by
    rw [← hgrow.frame_eq]
    exact Ctx.frame_ne hgrow.good F
  rw [htg.frame_eq, hc.1.frame_eq] at ft
  rw [heg.frame_eq, htg.frame_eq, hc.1.frame_eq] at fe
  rw [hgrow.frame_eq]
  have hpop : Frag WellTyped F.info ⟨⟨.any, false⟩ :: x.frame F, none⟩ [.pop] ⟨x.frame F, none⟩ :=
    Frag.instr (by simp) (transfer_pop hne)
  have hsize : codeSize ([.pop] ++ ts ++ [.jump (codeSize (.pop :: es))])
      = codeSize ([.pop] ++ ts ++ [.jump 0]) := codeSize_jump _ [] _ _
  rw [hsize] at hskip_le ⊢
  have hbranch := Frag.branch (peekable_temp hne) hne hskip_le hpast_le (hpop.append ft)
    (hpop.append fe)
  have hall := fc.append hbranch
  simpa only [List.append_assoc, List.cons_append, List.nil_append, List.singleton_append]
    using hall

theorem genClause_ok {e : Option (Expr N)} {clause : Option (List Instr)} {x x' : Ctx N}
    (h : genClause e x = some (clause, x')) (hn : Expr.OptionNamed e) (hgood : Good x.compilers)
    (hscope : ScopeOk x) :
    x.Grows x' ∧ ∀ F Fs, Chain x'.compilers (F :: Fs) → ∀ is, clause = some is →
      Frag WellTyped F.info ⟨x.frame F, none⟩ is (Shape.push .any ⟨x.frame F, none⟩) := by
  cases e with
  | none =>
    obtain ⟨rfl, rfl⟩ := Prod.mk.inj (Option.some.inj h)
    exact ⟨Ctx.Grows.refl hgood, fun _ _ _ _ h => by cases h⟩
  | some e =>
    simp only [genClause, Option.bind_eq_bind, Option.bind_eq_some_iff, Prod.exists] at h
    obtain ⟨is, y, he, h⟩ := h
    obtain ⟨rfl, rfl⟩ := Prod.mk.inj (Option.some.inj h)
    have ok := genExpr_ok e he hn hgood hscope
    refine ⟨ok.1, fun F Fs hF js hjs => ?_⟩
    obtain rfl := Option.some.inj hjs
    exact ok.2 F Fs hF []

/-- A loop from its clauses and its body. -/
theorem loop_ok {x y z z' : Ctx N} {condition increment : Option (List Instr)}
    {bs loop : List Instr} {c i : Option (Expr N)} (hc : genClause c x = some (condition, y))
    (hi : genClause i y = some (increment, z)) (hcn : Expr.OptionNamed c)
    (hin : Expr.OptionNamed i) (hgood : Good x.compilers) (hscope : ScopeOk x) (hready : x.Ready)
    (hb : StmtOk z z' bs) (hbg : z.Grows z') (h : loopCode condition increment bs = some loop) :
    x.Grows z' ∧ StmtOk x z' loop := by
  obtain ⟨hcg, hcf⟩ := genClause_ok hc hcn hgood hscope
  obtain ⟨hig, hif⟩ := genClause_ok hi hin hcg.good (hcg.scopeOk hscope)
  have hgrow := hcg.trans (hig.trans hbg)
  refine ⟨hgrow, hgrow.extends hready, fun F Fs hF => ?_⟩
  have hF₂ := Chain.mono hig.good hbg.chain hF
  have hF₁ := Chain.mono hcg.good hig.chain hF₂
  have fc := hcf F Fs hF₁
  have fi := hif F Fs hF₂
  have fb := hb.2 F Fs hF
  rw [hcg.frame_eq] at fi
  rw [hbg.frame_eq, hig.frame_eq, hcg.frame_eq] at fb
  rw [hgrow.frame_eq]
  exact Frag.loop (Ctx.frame_ne hgood F) rfl fc fi fb h

theorem genForInit_ok {init : ForInit N} {x x' : Ctx N} {is : List Instr}
    (h : genForInit init x = some (is, x')) (hn : init.Named) (hgood : Good x.compilers)
    (hready : x.Ready) (hscope : ScopeOk x) : StmtOk x x' is := by
  cases init with
  | empty =>
    obtain ⟨rfl, rfl⟩ := Prod.mk.inj (Option.some.inj h)
    exact StmtOk.nil hgood hready
  | var name init => exact genVar_ok h hn.1 hn.2 hgood hready hscope
  | expression e =>
    simp only [genForInit, Option.bind_eq_bind, Option.bind_eq_some_iff, Prod.exists] at h
    obtain ⟨is, y, he, h⟩ := h
    obtain ⟨rfl, rfl⟩ := Prod.mk.inj (Option.some.inj h)
    exact (genExpr_ok e he hn hgood hscope).stmt hready fun _ => rfl

theorem return_ok {value : Option (Expr N)} {x x' : Ctx N} {is : List Instr}
    (h : genStmt (.return_ value) x = some (is, x')) (hn : Expr.OptionNamed value)
    (hgood : Good x.compilers) (hready : x.Ready) (hscope : ScopeOk x) :
    x.Grows x' ∧ StmtOk x x' is := by
  simp only [genStmt] at h
  split at h
  · cases h
  cases value with
  | none =>
    obtain ⟨rfl, rfl⟩ := Prod.mk.inj (Option.some.inj h)
    have hgrow := Ctx.Grows.refl hgood
    exact ⟨hgrow, hgrow.extends hready, fun F Fs _ => returnCode_frag hgood F _⟩
  | some e =>
    simp only at h
    split at h
    · cases h
    simp only [Option.bind_eq_bind, Option.bind_eq_some_iff, Prod.exists] at h
    obtain ⟨is, y, he, h⟩ := h
    obtain ⟨rfl, rfl⟩ := Prod.mk.inj (Option.some.inj h)
    have ok := genExpr_ok e he hn hgood hscope
    exact ⟨ok.1, ok.1.extends hready, fun F Fs hF =>
      (ok.2 F Fs hF []).append (Frag.ret (peekable_temp (Ctx.frame_ne hgood F)))⟩

/-! ### Functions -/

theorem function_scopeOk {type : FunctionType} {name : Name} {params : List Name} {x y : Ctx N}
    (htype : type ≠ .script) (hgood : Good x.compilers) (hready : x.Ready)
    (hplain : ∀ p ∈ params, PlainName p)
    (h : (x.initCompiler type name).beginScope.parameters params = some y)
    (hthis : type.isMethod = false → x.classes ≠ [] → HasThis x.compilers) (hsuper : SuperOk x) :
    Good y.compilers ∧ y.Ready ∧ ScopeOk y := by
  obtain ⟨hclasses, hygood, hyready, c, cs, hy, htail, hty, -, -, -⟩ :=
    function_entry htype hgood hready hplain h
  refine ⟨hygood, hyready, fun hcl => ?_, fun hcl => ?_⟩
  · rw [hy]
    rw [hclasses] at hcl
    cases type with
    | script => exact absurd rfl htype
    | method => exact .inl hty
    | initializer => exact .inr (.inl hty)
    | function => exact .inr (.inr ⟨hty, (hthis rfl hcl).grows htail⟩)
  · rw [hclasses] at hcl
    obtain ⟨c', hc', l, hl, hname⟩ := hsuper hcl
    obtain ⟨d, hd, hg⟩ := mem_forall₂ htail hc'
    obtain ⟨l', hl', hn⟩ := hg.mem_locals hl
    exact ⟨d, by simp [hy, hd], l', hl', hn.trans hname⟩

theorem markInitialized_zero {x : Ctx N} (h : x.scopeDepth = 0) : x.markInitialized = x := by
  unfold Ctx.markInitialized
  exact if_pos h

/-- A function declaration, given its body. -/
theorem functionDeclaration_ok {name : Name} {params : List Name} {k : UInt8} {is js : List Instr}
    {x x₁ y y' x' : Ctx N} (hk : x.parseVariable name = some (k, x₁))
    (hparams : (x₁.markInitialized.initCompiler .function name).beginScope.parameters params = some y)
    (hbody : Good y.compilers → y.Ready → ScopeOk y → StmtOk y y' is)
    (hclos : y'.closure is = some (js, x')) (hname : PlainName name)
    (hplain : ∀ p ∈ params, PlainName p) (hgood : Good x.compilers) (hready : x.Ready)
    (hscope : ScopeOk x) :
    StmtOk x (x'.defineVariable k).2 (js ++ (x'.defineVariable k).1) := by
  have htype : FunctionType.function ≠ .script := by simp
  rcases parseVariable_cases hk with ⟨h0, hconst⟩ | ⟨h0, hadd⟩
  · obtain ⟨hgrow, hfinal⟩ := identifierConstant_ok hconst hgood
    rw [markInitialized_zero (by rw [hgrow.chain.scopeDepth]; exact h0)] at hparams
    have hready₁ := hgrow.ready hready
    have hscope₁ := hgrow.scopeOk hscope
    obtain ⟨hy, hyr, hys⟩ := function_scopeOk htype hgrow.good hready₁ hplain hparams
      (fun _ => hscope₁.this_) hscope₁.super_
    obtain ⟨hgrow', hclosure⟩ := closure_ok htype hgrow.good hready₁ hplain hparams
      (hbody hy hyr hys) hclos
    have hgrows := hgrow.trans hgrow'
    rw [defineVariable_zero k (by rw [hgrows.chain.scopeDepth]; exact h0)]
    refine ⟨hgrows.extends hready, fun F Fs hF => ?_⟩
    have hf := hclosure F Fs hF ⟨x.frame F, none⟩ ⟨⟨.any, false⟩ :: x.frame F, none⟩
      [⟨.any, false⟩] (Ctx.frame_ne hgood F) (by rw [hgrow.frame_eq]; rfl) (Shape.Sub.refl _)
    rw [hgrows.frame_eq]
    exact hf.append (Frag.instr (by simp) (transfer_defineGlobal
      (stringAt_of_getElem? (hfinal F Fs (Chain.mono hgrow.good hgrow'.chain hF)))
      (Ctx.frame_ne hgood F)))
  · have hdecl := addLocal_ok hadd hgood hready h0 hname.1
    obtain ⟨hmark, hmready, -⟩ := hdecl.mark hgood hready h0
    have hscope₁ := hscope.grows hmark.classes hmark.chain
    obtain ⟨hy, hyr, hys⟩ := function_scopeOk htype hmark.good hmready hplain hparams
      (fun _ => hscope₁.this_) hscope₁.super_
    obtain ⟨hgrow', hclosure⟩ := closure_ok htype hmark.good hmready hplain hparams
      (hbody hy hyr hys) hclos
    obtain ⟨l, hl, hdecl'⟩ := hmark.grows hgrow'
    obtain ⟨hmark', hmready', hmchain'⟩ := hdecl'.mark hgood hready h0
    rw [defineVariable_pos k (by rw [hdecl'.chain.scopeDepth]; exact h0), List.append_nil]
    refine ⟨hmark'.extends hmready' rfl h0, fun F Fs hF => ?_⟩
    have hframe := hmark'.frame_eq hready (by simp only; omega) F
    have hframe₁ := hmark.frame_eq hready (by simp only; omega) F
    simp only [hl.1] at hframe
    rw [localKind_plain hname (frame_pos hgood F)] at hframe hframe₁
    refine hclosure F Fs (hmchain' F Fs hF) _ _ [] (Ctx.frame_ne hgood F) ?_ ?_
    · simp only [hframe, hframe₁, List.nil_append]
    · rw [hframe]
      exact Shape.sub_local (by simp [FunctionType.closureKind, FunctionType.isMethod])
        (Ctx.frame_ne hgood F) _ _

/-! ### Statements -/

mutual

theorem genStmt_ok (s : Stmt N) : ∀ {x x' : Ctx N} {is : List Instr},
    genStmt s x = some (is, x') → s.Named → Good x.compilers → x.Ready → ScopeOk x →
    StmtOk x x' is ∧ (s.Simple → x.Grows x') := by
  intro x x' is h hn hgood hready hscope
  cases s with
  | expression e =>
    simp only [genStmt, Option.bind_eq_bind, Option.bind_eq_some_iff, Prod.exists] at h
    obtain ⟨is, y, he, h⟩ := h
    obtain ⟨rfl, rfl⟩ := Prod.mk.inj (Option.some.inj h)
    have ok := genExpr_ok e he hn hgood hscope
    exact ⟨ok.stmt hready fun _ => rfl, fun _ => ok.1⟩
  | print e =>
    simp only [genStmt, Option.bind_eq_bind, Option.bind_eq_some_iff, Prod.exists] at h
    obtain ⟨is, y, he, h⟩ := h
    obtain ⟨rfl, rfl⟩ := Prod.mk.inj (Option.some.inj h)
    have ok := genExpr_ok e he hn hgood hscope
    exact ⟨ok.stmt hready fun _ => rfl, fun _ => ok.1⟩
  | var name init =>
    exact ⟨genVar_ok h hn.1 hn.2 hgood hready hscope, fun hs => hs.elim⟩
  | block body =>
    simp only [genStmt, Option.bind_eq_bind, Option.bind_eq_some_iff, Prod.exists] at h
    obtain ⟨is, y, hbody, h⟩ := h
    obtain ⟨rfl, rfl⟩ := Prod.mk.inj (Option.some.inj h)
    have ok := genStmts_ok body hbody hn (beginScope_good hgood) (beginScope_ready hready)
      (beginScope_scopeOk hscope)
    obtain ⟨hgrow, hok⟩ := block_ok hgood hready ok
    exact ⟨hok, fun _ => hgrow⟩
  | if_ condition thenBranch elseBranch =>
    cases elseBranch with
    | none =>
      obtain ⟨hnc, hnt, hst⟩ := hn
      simp only [genStmt, Option.bind_eq_bind, Option.bind_eq_some_iff, Prod.exists] at h
      obtain ⟨is, y, hc, ts, z, ht, past, hpast, skip, hskip, h⟩ := h
      obtain ⟨rfl, rfl⟩ := Prod.mk.inj (Option.some.inj h)
      have okc := genExpr_ok condition hc hnc hgood hscope
      obtain ⟨okt, hgt⟩ := genStmt_ok thenBranch ht hnt okc.1.good (okc.1.ready hready)
        (okc.1.scopeOk hscope)
      obtain ⟨hgrow, hok⟩ := if_ok okc okt (hgt hst) (StmtOk.nil okt.1.good okt.1.ready)
        (Ctx.Grows.refl okt.1.good) hready hpast hskip
      rw [List.append_nil] at hok
      exact ⟨hok, fun _ => hgrow⟩
    | some elseBranch =>
      obtain ⟨hnc, ⟨hnt, hst⟩, hne, hse⟩ := hn
      simp only [genStmt, Option.bind_eq_bind, Option.bind_eq_some_iff, Prod.exists] at h
      obtain ⟨is, y, hc, ts, z, ht, es, z', he, past, hpast, skip, hskip, h⟩ := h
      obtain ⟨rfl, rfl⟩ := Prod.mk.inj (Option.some.inj h)
      have okc := genExpr_ok condition hc hnc hgood hscope
      have hscope₁ := okc.1.scopeOk hscope
      obtain ⟨okt, hgt⟩ := genStmt_ok thenBranch ht hnt okc.1.good (okc.1.ready hready) hscope₁
      obtain ⟨oke, hge⟩ := genStmt_ok elseBranch he hne okt.1.good okt.1.ready
        ((hgt hst).scopeOk hscope₁)
      obtain ⟨hgrow, hok⟩ := if_ok okc okt (hgt hst) oke (hge hse) hready hpast hskip
      exact ⟨hok, fun _ => hgrow⟩
  | while_ condition body =>
    obtain ⟨hnc, hnb, hsb⟩ := hn
    simp only [genStmt, Option.bind_eq_bind, Option.bind_eq_some_iff, Prod.exists] at h
    obtain ⟨is, y, hc, bs, z, hb, loop, hloop, h⟩ := h
    obtain ⟨rfl, rfl⟩ := Prod.mk.inj (Option.some.inj h)
    have okc := genExpr_ok condition hc hnc hgood hscope
    obtain ⟨okb, hgb⟩ := genStmt_ok body hb hnb okc.1.good (okc.1.ready hready)
      (okc.1.scopeOk hscope)
    have hclause : genClause (some condition) x = some (some is, y) := by
      simp [genClause, hc]
    obtain ⟨hgrow, hok⟩ := loop_ok hclause (i := none) rfl hnc trivial hgood hscope hready okb
      (hgb hsb) hloop
    exact ⟨hok, fun _ => hgrow⟩
  | for_ init condition increment body =>
    obtain ⟨hni, hnc, hns, hnb, hsb⟩ := hn
    simp only [genStmt, Option.bind_eq_bind, Option.bind_eq_some_iff, Prod.exists] at h
    obtain ⟨is, y, hi, c, y₁, hc, s, y₂, hs, bs, z, hb, loop, hloop, h⟩ := h
    obtain ⟨rfl, rfl⟩ := Prod.mk.inj (Option.some.inj h)
    have hscope₀ := beginScope_scopeOk hscope
    have oki := genForInit_ok hi hni (beginScope_good hgood) (beginScope_ready hready) hscope₀
    have hscope₁ := oki.1.scopeOk hscope₀
    obtain ⟨hcg, -⟩ := genClause_ok hc hnc oki.1.good hscope₁
    have hscope₂ := hcg.scopeOk hscope₁
    obtain ⟨hsg, -⟩ := genClause_ok hs hns hcg.good hscope₂
    obtain ⟨okb, hgb⟩ := genStmt_ok body hb hnb hsg.good
      (hsg.ready (hcg.ready oki.1.ready)) (hsg.scopeOk hscope₂)
    obtain ⟨-, hloop_ok⟩ := loop_ok hc hs hnc hns oki.1.good hscope₁ oki.1.ready okb (hgb hsb) hloop
    obtain ⟨hgrow, hok⟩ := block_ok hgood hready (oki.append hloop_ok)
    exact ⟨hok, fun _ => hgrow⟩
  | function name params body =>
    obtain ⟨hname, hplain, hnb⟩ := hn
    simp only [genStmt, Option.bind_eq_bind, Option.bind_eq_some_iff, Prod.exists] at h
    obtain ⟨k, x₁, hk, y, hparams, is, y', hbody, js, x₂, hclos, h⟩ := h
    obtain ⟨rfl, rfl⟩ := Prod.mk.inj (Option.some.inj h)
    exact ⟨functionDeclaration_ok hk hparams (fun hy hyr hys => genStmts_ok body hbody hnb hy hyr hys)
      hclos hname hplain hgood hready hscope, fun hs => hs.elim⟩
  | return_ value =>
    obtain ⟨hgrow, hok⟩ := return_ok h hn hgood hready hscope
    exact ⟨hok, fun _ => hgrow⟩
  | class_ name superclass methods =>
    obtain ⟨hname, hsup, hnm⟩ := hn
    simp only [genStmt, Option.bind_eq_bind, Option.bind_eq_some_iff, Prod.exists] at h
    obtain ⟨k, x₁, hk, x₂, hd, ss, w, hss, cls, w₁, hcls, ms, z, hms, h⟩ := h
    obtain ⟨rfl, rfl⟩ := Prod.mk.inj (Option.some.inj h)
    exact ⟨class_ok hk hd rfl hss hcls (fun hg hr hs => genMethods_ok methods hms hnm hg hr hs)
      hname hsup hgood hready, fun hs => hs.elim⟩

theorem genStmts_ok (ss : List (Stmt N)) : ∀ {x x' : Ctx N} {is : List Instr},
    genStmts ss x = some (is, x') → Stmt.AllNamed ss → Good x.compilers → x.Ready → ScopeOk x →
    StmtOk x x' is := by
  intro x x' is h hn hgood hready hscope
  cases ss with
  | nil =>
    obtain ⟨rfl, rfl⟩ := Prod.mk.inj (Option.some.inj h)
    exact StmtOk.nil hgood hready
  | cons s ss =>
    simp only [genStmts, Option.bind_eq_bind, Option.bind_eq_some_iff, Prod.exists] at h
    obtain ⟨is, y, hs, js, z, hss, h⟩ := h
    obtain ⟨rfl, rfl⟩ := Prod.mk.inj (Option.some.inj h)
    obtain ⟨ok, -⟩ := genStmt_ok s hs hn.1 hgood hready hscope
    exact ok.append (genStmts_ok ss hss hn.2 ok.1.good ok.1.ready (ok.1.scopeOk hscope))

theorem genMethods_ok (ms : List (Stmt N)) : ∀ {x x' : Ctx N} {is : List Instr},
    genMethods ms x = some (is, x') → Stmt.AllNamed ms → Good x.compilers → x.Ready → SuperOk x →
    MethodsOk x x' is := by
  intro x x' is h hn hgood hready hsuper
  cases ms with
  | nil =>
    obtain ⟨rfl, rfl⟩ := Prod.mk.inj (Option.some.inj h)
    exact MethodsOk.nil hgood
  | cons m ms =>
    cases m with
    | function name params body =>
      obtain ⟨⟨-, hplain, hnb⟩, hnms⟩ := hn
      simp only [genMethods, Option.bind_eq_bind, Option.bind_eq_some_iff, Prod.exists] at h
      obtain ⟨k, x₁, hk, y, hparams, is, y', hbody, js, x₂, hclos, ks, x₃, hms, h⟩ := h
      obtain ⟨rfl, rfl⟩ := Prod.mk.inj (Option.some.inj h)
      obtain ⟨hgrow, -⟩ := identifierConstant_ok hk hgood
      have htype : methodType name ≠ .script := by
        unfold methodType
        split <;> simp
      have hsuper₁ : SuperOk x₁ := fun hs => by
        rw [hgrow.classes] at hs
        exact (hsuper hs).chainGrows hgrow.chain
      obtain ⟨hy, hyr, hys⟩ := function_scopeOk htype hgrow.good (hgrow.ready hready) hplain hparams
        (fun hm => by rw [methodType_isMethod] at hm; cases hm) hsuper₁
      have ok := method_ok hk hgood hready hplain hparams (genStmts_ok body hbody hnb hy hyr hys)
        hclos
      refine ok.append (genMethods_ok ms hms hnms ok.1.good (ok.1.ready hready) fun hs => ?_)
      rw [ok.1.classes] at hs
      exact (hsuper hs).chainGrows ok.1.chain
    | _ => cases h

end

/-! ### Programs -/

/-- The signature of a script. -/
def scriptSignature : Signature := ⟨false, []⟩

theorem script_good : Good (Ctx.script : Ctx N).compilers := by
  refine ⟨⟨⟨_, rfl, rfl, rfl⟩, ?_, ?_, ?_, ?_, ?_, ?_, by simp [newCompiler]⟩, rfl, rfl⟩
  · intro i l hi h0
    have hlt := slotAt_lt hi
    simp only [newCompiler, List.length_singleton] at hlt
    omega
  · intro l hl
    simp only [newCompiler, List.mem_singleton] at hl ⊢
    rw [hl]
    simp
  · simp [newCompiler]
  · simp [newCompiler]
  · simp [newCompiler]
  · simp [newCompiler]

theorem script_ready : (Ctx.script : Ctx N).Ready := by
  rintro c ⟨⟩
  intro l hl
  simp only [newCompiler, List.mem_singleton] at hl
  rw [hl]

/-- The end of a script: `nil` is returned. -/
def scriptReturn (a : Shape) : Code := [(⟨a, noSig⟩, .nil), (⟨a.push .any, noSig⟩, .return_)]

/-- The function of a script: the code of its statements, which leaves slot 0 alone on the stack,
and the return. -/
structure ScriptCode (ts : List (Stmt N)) (f : ObjFunction N) (cs : Code) (a : Shape) : Prop where
  generated : ∃ x, genStmts ts Ctx.script = some (cs.instrs, x)
  slots : a.slots.length = 1
  arity : f.arity = 0
  upvalues : f.upvalueCount = 0
  functions : ∀ g, Constant.function g ∈ f.constants → ∃ t, WellTyped g t
  code : f.code = encodeAll (cs ++ scriptReturn a).instrs
  entry : (entryShape 0 false).Sub (Code.entry (cs ++ scriptReturn a) ⟨[], none⟩)
  cert : Cert WellTyped ⟨f.constants, []⟩ [] (cs ++ scriptReturn a) [] ⟨[], none⟩

theorem genProgram_code {ts : List (Stmt N)} {f : ObjFunction N} (h : genProgram ts = some f)
    (hn : Stmt.AllNamed ts) : ∃ cs a, ScriptCode ts f cs a := by
  simp only [genProgram, Option.bind_eq_bind, Option.bind_eq_some_iff, Prod.exists] at h
  obtain ⟨is, x, hx, h⟩ := h
  have hscope : ScopeOk (Ctx.script : Ctx N) := ⟨fun h => absurd rfl h, fun h => by cases h⟩
  have ok := genStmts_ok ts hx hn script_good script_ready hscope
  obtain ⟨extra, hchain, -, hextra⟩ := ok.1.chain
  rw [hextra rfl] at hchain
  obtain ⟨c₀, c, cs₀, cs, hscript, hc, head, tail⟩ := hchain.inv
  obtain ⟨rfl, rfl⟩ := List.cons.inj hscript
  cases tail
  rw [hc] at h
  obtain rfl := Option.some.inj h
  have hgood := ok.1.good
  rw [hc] at hgood
  obtain ⟨code, rfl, hentry, hcert⟩ := ok.2 (c.final []) [] (by rw [hc]; exact c.within_final [])
  have hreturn : x.returnCode = [.nil, .return_] := by
    unfold Ctx.returnCode Ctx.type
    rw [hc]
    simp [hgood.2.1]
  have hne := Ctx.frame_ne ok.1.good (c.final [])
  refine ⟨code, ⟨x.frame (c.final []), none⟩, ⟨⟨x, hx⟩, ?_, head.arity, ?_, hgood.head.functions,
    ?_, ?_, ?_⟩⟩
  · rw [Ctx.frame_length ok.1.ready]
    have hlocals := (hgood.head.script head.scopeDepth).2
    simpa [Ctx.locals, hc] using hlocals
  · simp [Compiler.finish, hgood.2.2]
  · simp [Compiler.finish, hreturn, scriptReturn]
  · have hlocals : (newCompiler (N := N) .script none).locals ≠ [] := by simp [newCompiler]
    have hnames : ∀ l ∈ (newCompiler (N := N) .script none).locals, l.name ≠ "super".toList := by
      simp [newCompiler]
    have hsub := entryShape_sub .script (c.final []).captured hlocals hnames
    exact hsub.trans (Code.entry_sub hentry (Shape.Sub.refl _))
  · refine Cert.append.2 ⟨hcert _ _ _ (Shape.Sub.refl _), Cert.cons.2 ⟨⟨hne, _, rfl,
      Shape.Sub.refl _⟩, Cert.single.2 ⟨by simp [Shape.push], peekable_temp hne⟩⟩⟩

theorem genProgram_wellTyped {ts : List (Stmt N)} {f : ObjFunction N}
    (h : genProgram ts = some f) (hn : Stmt.AllNamed ts) : WellTyped f scriptSignature := by
  obtain ⟨cs, a, hcode⟩ := genProgram_code h hn
  refine .intro WellTyped _ _ (fun _ _ h => h) ⟨hcode.upvalues, hcode.functions,
    cs ++ scriptReturn a, hcode.code, by simp [scriptReturn], ?_, hcode.cert⟩
  rw [hcode.arity]
  exact hcode.entry

/-- A script has no parameters. -/
theorem accepts_arity [Double N] {source : List Char} {f : ObjFunction N}
    (h : Accepts (scanAll source) f) : f.arity = 0 := by
  obtain ⟨n, ts, hts, hgen⟩ := compile_factors h
  obtain ⟨cs, a, hcode⟩ := genProgram_code hgen (program_named hts)
  exact hcode.arity

/-- Every function that the compiler accepts has a certificate. -/
theorem compile_wellTyped [Double N] {source : List Char} {f : ObjFunction N}
    (h : Accepts (scanAll source) f) : WellTyped f scriptSignature := by
  obtain ⟨n, ts, hts, hgen⟩ := compile_factors h
  exact genProgram_wellTyped hgen (program_named hts)

end Lox.Clox
