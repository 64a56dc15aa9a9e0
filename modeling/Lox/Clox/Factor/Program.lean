import Lox.Clox.Factor.Stmt
import Lox.Clox.Scanner

/-!
# The single pass factors through the tree: declarations and programs

Blocks, functions, classes and whole sources.  The result is `compile_factors`: a function that
`compile` returns for a source is the one `genProgram` makes from the tree `Pratt.program` reads.
-/

namespace Lox.Clox

variable {N : Type}

/-! ### Blocks -/

/-- From `s` to `s'` the statements that `r` gives were read and their code emitted. -/
def StmtsRead (s s' : State N) (r : Option (List (Stmt N) × Cursor)) : Prop :=
  ∃ ts is, r = some (ts, s'.cursor) ∧ genStmts ts s.ctx = some (is, s'.ctx) ∧
    s'.chunks = appendHead (encodeAll is) s.chunks

theorem blockLoop_step {f : State N → Option (State N)} {g : Cursor → Option (Stmt N × Cursor)}
    (hf : StmtSpec f g) (n : ℕ) : ∀ s s' : State N, blockLoop f n s = some s' →
    Step s s' (StmtsRead s s' (Pratt.blockLoop g n s.cursor)) := by
  induction n with
  | zero => intro s s' h; cases h
  | succ n ih =>
    intro s s' h
    simp only [blockLoop] at h
    unfold Pratt.blockLoop
    split at h
    · rename_i hend
      rw [← check_cursor, ← check_cursor] at hend
      rw [if_pos hend]
      obtain rfl := Option.some.inj h
      exact (Step.refl s).imp fun _ => ⟨[], [], rfl, by simp [genStmts], by simp⟩
    · rename_i hend
      rw [← check_cursor, ← check_cursor] at hend
      rw [if_neg hend]
      simp only [Option.bind_eq_bind, Option.bind_eq_some_iff] at h
      obtain ⟨s₁, h₁, h⟩ := h
      refine ((hf _ _ h₁).trans (ih _ _ h)).imp ?_
      rintro ⟨⟨t, is, ht, hg, hch⟩, ts, js, hts, hgs, hch'⟩
      refine ⟨t :: ts, is ++ js, ?_, ?_, ?_⟩
      · simp [ht, hts]
      · simp [genStmts, hg, hgs]
      · simp [hch', hch]

theorem block_step {f : State N → Option (State N)} {g : Cursor → Option (Stmt N × Cursor)}
    (hf : StmtSpec f g) {n : ℕ} {s s' : State N} (h : block f n s = some s') :
    Step s s' (StmtsRead s s' (Pratt.block g n s.cursor)) := by
  simp only [block, Option.bind_eq_bind, Option.bind_eq_some_iff] at h
  obtain ⟨s₁, h₁, h⟩ := h
  obtain rfl := Option.some.inj h
  refine ((blockLoop_step hf n _ _ h₁).trans (consume_step _ _ _)).imp ?_
  rintro ⟨⟨ts, is, hts, hgs, hch⟩, hcon⟩
  exact ⟨ts, is, by simp [Pratt.block, hts, hcon], by simpa using hgs, by simpa using hch⟩

/-! ### Functions -/

theorem Ctx.scopeDepth_mapCurrent {f : Compiler N → Compiler N} (x : Ctx N)
    (h : ∀ c, (f c).scopeDepth = c.scopeDepth) : (x.mapCurrent f).scopeDepth = x.scopeDepth := by
  unfold Ctx.mapCurrent Ctx.scopeDepth
  cases x.compilers <;> simp [h]

theorem Ctx.scopeDepth_addLocal {name : Name} {x y : Ctx N} (h : x.addLocal name = some y) :
    y.scopeDepth = x.scopeDepth := by
  unfold Ctx.addLocal at h
  split at h
  · cases h
  · obtain rfl := Option.some.inj h
    exact Ctx.scopeDepth_mapCurrent x fun _ => rfl

theorem Ctx.scopeDepth_declareVariable {name : Name} {x y : Ctx N}
    (h : x.declareVariable name = some y) : y.scopeDepth = x.scopeDepth := by
  unfold Ctx.declareVariable at h
  split at h
  · obtain rfl := Option.some.inj h
    rfl
  · split at h
    · exact Ctx.scopeDepth_addLocal h
    · cases h

theorem Ctx.scopeDepth_parseVariable {name : Name} {x y : Ctx N} {k : UInt8}
    (hx : 0 < x.scopeDepth) (h : x.parseVariable name = some (k, y)) :
    y.scopeDepth = x.scopeDepth := by
  simp only [Ctx.parseVariable, Option.bind_eq_bind, Option.bind_eq_some_iff] at h
  obtain ⟨z, hz, h⟩ := h
  have hd := Ctx.scopeDepth_declareVariable hz
  rw [if_pos (by omega)] at h
  obtain ⟨-, rfl⟩ := Prod.mk.inj (Option.some.inj h)
  exact hd

theorem Ctx.scopeDepth_markInitialized (x : Ctx N) : x.markInitialized.scopeDepth = x.scopeDepth := by
  unfold Ctx.markInitialized
  split
  · rfl
  · exact Ctx.scopeDepth_mapCurrent x fun _ => rfl

/-- The message about too many parameters, with the number of parameters it looks at. -/
theorem arity_step (s : State N) :
    Step s (if (s.compilers.head?.map (·.arity)).getD 0 > 255 then
        s.errorAtCurrent "Can't have more than 255 parameters." else s)
      (¬ (s.ctx.compilers.head?.map (·.arity)).getD 0 > 255 ∧
        (if (s.compilers.head?.map (·.arity)).getD 0 > 255 then
          s.errorAtCurrent "Can't have more than 255 parameters." else s) = s) := by
  split
  · exact (errorAtCurrent_step _ s).imp False.elim
  · exact (Step.refl s).imp fun _ => ⟨‹_›, rfl⟩

theorem mapCurrent_step (f : Compiler N → Compiler N) (s : State N) :
    Step s (s.mapCurrent f) ((s.mapCurrent f).ctx = s.ctx.mapCurrent f ∧
      (s.mapCurrent f).cursor = s.cursor ∧ (s.mapCurrent f).chunks = s.chunks) :=
  (Step.of_parser_eq (by rfl) (by rfl)).imp fun _ => ⟨rfl, rfl, rfl⟩

theorem parameterLoop_step (n : ℕ) : ∀ s s' : State N, parameterLoop n s = some s' →
    Step s s' (0 < s.ctx.scopeDepth → ∃ names,
      Pratt.parameterLoop n s.cursor = some (names, s'.cursor) ∧
      s.ctx.parameters names = some s'.ctx ∧ s'.chunks = s.chunks) := by
  induction n with
  | zero => intro s s' h; cases h
  | succ n ih =>
    intro s s' h
    simp only [parameterLoop] at h
    set s₁ := s.mapCurrent fun c => { c with arity := c.arity + 1 } with hs₁
    set s₂ := if (s₁.compilers.head?.map (·.arity)).getD 0 > 255 then
      s₁.errorAtCurrent "Can't have more than 255 parameters." else s₁ with hs₂
    rcases hk : s₂.parseVariable "Expect parameter name." with ⟨k, s₃⟩
    simp only [hk] at h
    have step := ((mapCurrent_step (fun c => { c with arity := c.arity + 1 }) s).trans
      (arity_step s₁)).trans ((parseVariable_step hk).trans (defineVariable_step k s₃))
    -- One parameter, whatever follows it.
    have one : ∀ {c : Cursor}, 0 < s.ctx.scopeDepth →
        Pratt.consume .identifier s₂.cursor = some c → s₂ = s₁ →
        ¬ (s₁.ctx.compilers.head?.map (·.arity)).getD 0 > 255 →
        s₁.ctx = s.ctx.mapCurrent (fun c => { c with arity := c.arity + 1 }) →
        s₂.ctx.parseVariable c.previous.lexeme = some (k, s₃.ctx) →
        (s₃.defineVariable k).ctx = (s₃.ctx.defineVariable k).2 →
        (∀ names, s.ctx.parameters (c.previous.lexeme :: names)
          = (s₃.defineVariable k).ctx.parameters names) ∧
        0 < (s₃.defineVariable k).ctx.scopeDepth ∧ (s₃.ctx.defineVariable k).1 = [] := by
      intro c hdepth hcon h₂₁ harity hx₁ hparse hdef
      have hd₁ : s₁.ctx.scopeDepth = s.ctx.scopeDepth := by
        rw [hx₁]; exact Ctx.scopeDepth_mapCurrent _ fun _ => rfl
      rw [h₂₁] at hparse
      have hd₃ := Ctx.scopeDepth_parseVariable (by omega) hparse
      have hmark : ∀ k', (s₃.ctx.defineVariable k') = ([], s₃.ctx.markInitialized) := by
        intro k'
        unfold Ctx.defineVariable
        rw [if_pos (by omega)]
      refine ⟨fun names => ?_, ?_, by rw [hmark]⟩
      · rw [hx₁] at harity hparse
        simp only [Ctx.parameters]
        rw [if_neg harity, hparse, hdef, hmark k, ← hmark 0]
        rfl
      · rw [hdef, hmark, Ctx.scopeDepth_markInitialized]
        omega
    rw [← check_cursor] at h
    unfold Pratt.parameterLoop
    split at h
    · rename_i hcomma
      refine (step.trans ((advance_step _).trans (ih _ _ h))).imp ?_
      rintro ⟨⟨⟨⟨hx₁, hcur₁, hch₁⟩, harity, h₂₁⟩, ⟨c, hcon, hparse, rfl, hch₃⟩, hdef, hcur, hch⟩,
        hadv, hrest⟩ hdepth
      obtain ⟨hparam, hdepth', hnil⟩ := one hdepth hcon h₂₁ harity hx₁ hparse hdef
      obtain ⟨names, hnames, hps, hch'⟩ := hrest (by simpa using hdepth')
      have h₂₁' : s₂ = s₁ := h₂₁
      refine ⟨s₃.cursor.previous.lexeme :: names, ?_, ?_, ?_⟩
      · rw [h₂₁', hcur₁] at hcon
        rw [hcur] at hcomma hadv
        simp [hcon, hcomma, hadv, hnames]
      · rw [hparam]
        simpa using hps
      · simpa [hch', hch, hnil, hch₃, h₂₁'] using hch₁
    · rename_i hcomma
      obtain rfl := Option.some.inj h
      refine step.imp ?_
      rintro ⟨⟨⟨hx₁, hcur₁, hch₁⟩, harity, h₂₁⟩, ⟨c, hcon, hparse, rfl, hch₃⟩, hdef, hcur, hch⟩ hdepth
      obtain ⟨hparam, hdepth', hnil⟩ := one hdepth hcon h₂₁ harity hx₁ hparse hdef
      have h₂₁' : s₂ = s₁ := h₂₁
      refine ⟨[s₃.cursor.previous.lexeme], ?_, ?_, ?_⟩
      · rw [h₂₁', hcur₁] at hcon
        rw [hcur] at hcomma
        simp [hcon, hcomma, hcur]
      · rw [hparam]
        rfl
      · simpa [hch, hnil, hch₃, h₂₁'] using hch₁

theorem emitCaptures_eq (upvalues : List Upvalue) : ∀ s : State N,
    s.emitCaptures upvalues = s.emit (upvalues.flatMap Upvalue.bytes) := by
  induction upvalues with
  | nil => intro s; simp [State.emitCaptures, State.emit]
  | cons u us ih =>
    intro s
    have hcons : s.emitCaptures (u :: us)
        = (s.emitBytes (if u.isLocal then 1 else 0) u.index).emitCaptures us := rfl
    rw [hcons, ih, emitBytes_eq, emit_emit]
    simp [Upvalue.bytes]

/-- The function that `endCompiler` finishes, and the state in which its compiler is gone. -/
theorem endCompiler_eq {s s' : State N} {f : ObjFunction N} {upvalues : List Upvalue}
    (h : s.endCompiler = some (f, upvalues, s')) :
    ∃ c code, s.compilers = c :: s'.compilers ∧ s.chunks = code :: s'.chunks ∧
      f = c.finish (code ++ encodeAll s.ctx.returnCode) ∧ upvalues = c.upvalues ∧
      s'.classes = s.classes ∧ s'.parser = s.parser := by
  simp only [State.endCompiler, returnCode_encode] at h
  split at h
  · rename_i c cs code codes hcs hcodes
    obtain ⟨rfl, rfl, rfl⟩ : c.finish code = f ∧ c.upvalues = upvalues ∧ _ = s' := by
      simpa using h
    cases hs : s.chunks with
    | nil => simp [hs, appendHead] at hcodes
    | cons code' codes' =>
      simp only [emit_chunks, hs, appendHead, List.modifyHead_cons, List.cons.injEq] at hcodes
      obtain ⟨rfl, rfl⟩ := hcodes
      exact ⟨c, code', hcs, rfl, rfl, rfl, rfl, rfl⟩
  · cases h

theorem parameters_step {n : ℕ} {s s' : State N} (h : parameters n s = some s') :
    Step s s' (0 < s.ctx.scopeDepth → ∃ names,
      Pratt.parameters n s.cursor = some (names, s'.cursor) ∧
      s.ctx.parameters names = some s'.ctx ∧ s'.chunks = s.chunks) := by
  unfold parameters at h
  unfold Pratt.parameters
  split at h
  · rename_i hparen
    rw [← check_cursor] at hparen
    obtain rfl := Option.some.inj h
    exact (Step.refl s).imp fun _ _ => ⟨[], by simp [hparen], rfl, rfl⟩
  · rename_i hparen
    rw [← check_cursor] at hparen
    rw [if_neg hparen]
    exact parameterLoop_step n _ _ h

/-- `function` between the start and the end of the new compiler. -/
theorem functionBody_step {f : State N → Option (State N)} {g : Cursor → Option (Stmt N × Cursor)}
    (hf : StmtSpec f g) {n : ℕ} {s s₁ s₂ : State N}
    (h₁ : parameters n (s.beginScope.consume .leftParen "Expect '(' after function name.")
      = some s₁)
    (h₂ : block f n ((s₁.consume .rightParen "Expect ')' after parameters.").consume .leftBrace
      "Expect '\x7b' before function body.") = some s₂) :
    Step s s₂ (0 < s.ctx.compilers.length → ∃ params body is y,
      Pratt.function g n s.cursor = some ((params, body), s₂.cursor) ∧
      s.ctx.beginScope.parameters params = some y ∧ genStmts body y = some (is, s₂.ctx) ∧
      s₂.chunks = appendHead (encodeAll is) s.chunks) := by
  set s₀ := s.beginScope.consume .leftParen "Expect '(' after function name." with hs₀
  refine (((beginScope_step s).trans (consume_step .leftParen "Expect '(' after function name." _)).trans
    (((parameters_step h₁).trans (consume_step _ _ _)).trans ((consume_step _ _ _).trans
      (block_step hf h₂)))).imp ?_
  rintro ⟨⟨⟨hx, hcur, hch⟩, hcon⟩, ⟨hparams, hcon₁⟩, hcon₂, ts, is, hts, hgs, hch₂⟩ hlen
  rw [← hs₀] at hcon
  have hx₀ : s₀.ctx = s.ctx.beginScope := by rw [hs₀, consume_ctx, hx]
  have hdepth : 0 < s₀.ctx.scopeDepth := by
    rw [hx₀]
    unfold Ctx.beginScope Ctx.mapCurrent Ctx.scopeDepth
    cases hc : s.ctx.compilers with
    | nil => simp [hc] at hlen
    | cons c cs => simp
  obtain ⟨names, hnames, hps, hch₁⟩ := hparams hdepth
  refine ⟨names, ts, is, s₁.ctx, ?_, hx₀ ▸ hps, by simpa using hgs, ?_⟩
  · rw [hcur] at hcon
    simp [Pratt.function, hcon, hnames, hcon₁, hcon₂, hts]
  · simp only [encodeAll_nil, appendHead_nil] at hch
    simp [hch₂, hch₁, hs₀, hch]

/-- From `s` to `s'` a function was read that `r` gives, and its closure made. -/
def FunctionRead (type : FunctionType) (s s' : State N)
    (r : Option ((List Name × List (Stmt N)) × Cursor)) : Prop :=
  ∃ params body is js y y', r = some ((params, body), s'.cursor) ∧
    (s.ctx.initCompiler type s.parser.previous.lexeme).beginScope.parameters params = some y ∧
    genStmts body y = some (is, y') ∧ y'.closure is = some (js, s'.ctx) ∧
    s'.chunks = appendHead (encodeAll js) s.chunks

theorem function_step {f : State N → Option (State N)} {g : Cursor → Option (Stmt N × Cursor)}
    (hf : StmtSpec f g) {n : ℕ} {type : FunctionType} (htype : type ≠ .script) {s s' : State N}
    (h : function f n type s = some s') :
    Step s s' (FunctionRead type s s' (Pratt.function g n s.cursor)) := by
  simp only [function, Option.bind_eq_bind, Option.bind_eq_some_iff, Prod.exists] at h
  obtain ⟨s₁, h₁, s₂, h₂, fn, upvalues, s₃, h₃, h⟩ := h
  rcases hk : s₃.makeConstant (.function fn) with ⟨k, s₄⟩
  simp only [hk] at h
  obtain rfl := Option.some.inj h
  obtain ⟨c, code, hcs, hcodes, rfl, rfl, hclasses, hparser⟩ := endCompiler_eq h₃
  have body := functionBody_step hf h₁ h₂
  -- The new compiler brings its own chunk, so the step through the body starts one chunk up.
  intro hs
  have hs₀ : (s.initCompiler type).Sound := ⟨hs.panic, by simp [State.initCompiler], hs.this_⟩
  obtain ⟨⟨hsound₂, hlen₂⟩, hbody⟩ := body hs₀
  have hlen₃ : s₃.chunks.length = s.chunks.length := by
    simpa [hcodes, State.initCompiler] using hlen₂
  have hs₃ : s₃.Sound := ⟨hparser ▸ hsound₂.panic, hlen₃ ▸ hs.chunk, hparser ▸ hsound₂.this_⟩
  rw [emitBytes_eq, emitCaptures_eq, emit_emit]
  obtain ⟨⟨hsound, hlen⟩, hrest⟩ := ((makeConstant_step hk).trans (emit_step
    ([OpCode.closure.byte, k] ++ c.upvalues.flatMap Upvalue.bytes) s₄)) hs₃
  refine ⟨⟨hsound, hlen.trans hlen₃⟩, fun he => ?_⟩
  obtain ⟨he₃, ⟨hconst, hcur, hch⟩, -⟩ := hrest he
  rw [hparser] at he₃
  obtain ⟨he₀, hread⟩ := hbody he₃
  obtain ⟨params, ts, is, y, hparse, hparams, hgen, hch₂⟩ :=
    hread (by simp [State.initCompiler, State.ctx])
  refine ⟨he₀, params, ts, is, [.closure k c.upvalues], y, s₂.ctx, ?_, ?_, hgen, ?_, ?_⟩
  · have hcur₃ : s₃.cursor = s₂.cursor := by simp [State.cursor, hparser]
    rw [emit_cursor, hcur, hcur₃]
    exact hparse
  · simpa [State.initCompiler, State.ctx, Ctx.initCompiler, htype] using hparams
  · have hcode : code = encodeAll is := by
      have := hcodes.symm.trans hch₂
      simpa [State.initCompiler, appendHead] using (List.cons.inj this).1
    subst hcode
    have hx : s₂.ctx.compilers = c :: s₃.compilers := hcs
    have hx₃ : s₃.ctx = ⟨s₃.compilers, s₂.ctx.classes⟩ := by
      simp [State.ctx, hclasses]
    rw [hx₃] at hconst
    simp only [Ctx.closure, hx, encodeAll_append, hconst, emit_ctx, Option.bind_eq_bind,
      Option.bind_some]
    rfl
  · have hcodes₃ : s₃.chunks = s.chunks := by
      have := hcodes.symm.trans hch₂
      simpa [State.initCompiler, appendHead] using (List.cons.inj this).2
    simp [hch, hcodes₃, Instr.encode]

/-! ### Classes -/

/-- From `s` to `s'` the methods that `r` gives were read and their code emitted. -/
def MethodsRead (s s' : State N) (r : Option (List (Stmt N) × Cursor)) : Prop :=
  ∃ ms is, r = some (ms, s'.cursor) ∧ genMethods ms s.ctx = some (is, s'.ctx) ∧
    s'.chunks = appendHead (encodeAll is) s.chunks

theorem methodLoop_step {f : State N → Option (State N)} {g : Cursor → Option (Stmt N × Cursor)}
    (hf : StmtSpec f g) (n : ℕ) : ∀ s s' : State N, methodLoop f n s = some s' →
    Step s s' (MethodsRead s s' (Pratt.methodLoop g n s.cursor)) := by
  induction n with
  | zero => intro s s' h; cases h
  | succ n ih =>
    intro s s' h
    simp only [methodLoop] at h
    unfold Pratt.methodLoop
    split at h
    · rename_i hend
      rw [← check_cursor, ← check_cursor] at hend
      rw [if_pos hend]
      obtain rfl := Option.some.inj h
      exact (Step.refl s).imp fun _ => ⟨[], [], rfl, by simp [genMethods], by simp⟩
    · rename_i hend
      rw [← check_cursor, ← check_cursor] at hend
      rw [if_neg hend]
      simp only [method, Option.bind_eq_bind, Option.bind_eq_some_iff] at h
      obtain ⟨s₄, ⟨s₃, h₃, h₄⟩, h⟩ := h
      obtain rfl := Option.some.inj h₄
      rcases hk : (s.consume .identifier "Expect method name.").identifierConstant
        (s.consume .identifier "Expect method name.").parser.previous with ⟨k, s₂⟩
      simp only [hk, emitBytes_eq] at h h₃
      have htype : (if s₂.parser.previous.lexeme = "init".toList then FunctionType.initializer
          else .method) ≠ .script := by
        split <;> simp
      refine ((((consume_step _ _ _).trans (makeConstant_step hk)).trans
        (function_step hf htype h₃)).trans ((emit_step _ _).trans (ih _ _ h))).imp ?_
      rintro ⟨⟨⟨hcon, hconst, hcur₂, hch₂⟩, params, body, is, js, y, y', hparse, hparams, hgen, hclos,
        hch₃⟩, -, ms, ks, hms, hgms, hch⟩
      have hprev : s₂.parser.previous = (s.consume .identifier "Expect method name.").parser.previous :=
        congrArg Cursor.previous hcur₂
      simp only [consume_ctx, consume_chunks, emit_ctx, emit_cursor, emit_chunks]
        at hconst hch₂ hms hgms hch
      rw [hprev] at hparams
      rw [hcur₂] at hparse
      refine ⟨.function (s.consume .identifier "Expect method name.").parser.previous.lexeme params
        body :: ms, js ++ [.method k] ++ ks, ?_, ?_, ?_⟩
      · simp [Pratt.namedFunction, hcon, hparse, hms]
      · simp only [genMethods, Ctx.identifierConstant, hconst, Option.bind_eq_bind,
          Option.bind_some, methodType, hparams, hgen, hclos, hgms]
        rfl
      · simp [hch, hch₃, hch₂, Instr.encode]

theorem superclassClause_step {f : State N → Option (State N)} {className : Token}
    {s s' : State N} (h : superclassClause f className s = some s') :
    Step s s' (∃ superclass is, Pratt.superclassClause s.cursor = some (superclass, s'.cursor) ∧
      genSuperclass className.lexeme superclass s.ctx = some (is, s'.ctx) ∧
      s'.chunks = appendHead (encodeAll is) s.chunks) := by
  unfold superclassClause at h
  unfold Pratt.superclassClause
  split at h
  · rename_i hless
    rw [← check_cursor] at hless
    rw [if_pos hless]
    simp only [Option.bind_eq_bind, Option.bind_eq_some_iff] at h
    obtain ⟨s₂, h₂, s₅, h₅, h⟩ := h
    set s₁ := s.advance.consume .identifier "Expect superclass name." with hs₁
    set s₃ := if className.lexeme = s₂.parser.previous.lexeme then
      s₂.error "A class can't inherit from itself." else s₂ with hs₃
    obtain rfl := Option.some.inj h
    rw [emitByte_eq]
    have steps := (((advance_step s).trans (consume_step .identifier "Expect superclass name." _)).trans
      (loadVariable_step h₂)).trans
      ((errorIf_step (className.lexeme = s₂.parser.previous.lexeme)
        "A class can't inherit from itself." s₂).trans (beginScope_step s₃))
    have hclasses : Step (s₅.emit [OpCode.inherit.byte]) { s₅.emit [OpCode.inherit.byte] with
        classes := (s₅.emit [OpCode.inherit.byte]).classes.modifyHead fun _ => ⟨true⟩ } True :=
      .of_parser_eq (by rfl) (by rfl)
    have rest := ((addLocal_step "super".toList s₃.beginScope).trans
      (defineVariable_step 0 _)).trans ((loadVariable_step h₅).trans
        ((emit_step [OpCode.inherit.byte] s₅).trans hclasses))
    refine (steps.trans rest).imp ?_
    rintro ⟨⟨⟨⟨hadv, hcon⟩, ref, href, hcur₂, hch₂⟩, hself, hx₄, hcur₄, hch₄⟩,
      ⟨⟨hadd, hcur₅, hch₅⟩, hx₆, hcur₆, hch₆⟩, ⟨cls, hcls, hcur₇, hch₇⟩, -⟩
    rw [← hs₁] at hcon
    have h₃₂ : s₃ = s₂ := by rw [hs₃, if_neg hself]
    have hprev : s₁.parser.previous = s₂.parser.previous := (congrArg Cursor.previous hcur₂).symm
    rw [h₃₂] at hx₄ hcur₄ hch₄ hadd hcur₅ hch₅ hx₆ hcur₆ hch₆ hcls hcur₇ hch₇
    have hctx₁ : s₁.ctx = s.ctx := by simp [hs₁]
    have hch₁ : s₁.chunks = s.chunks := by simp [hs₁]
    rw [hctx₁] at href
    rw [hx₄] at hadd
    rw [hx₆] at hcls
    refine ⟨some s₁.parser.previous.lexeme, [ref.load] ++
      ((s₂.beginScope.addLocal "super".toList).ctx.defineVariable 0).1 ++ [cls.load, .inherit],
      ?_, ?_, ?_⟩
    · have hcur : s₅.cursor = s₁.cursor := by
        rw [hcur₇, hcur₆, hcur₅, hcur₄, hcur₂]
      simp only [hadv, Option.bind_eq_bind, Option.bind_some, hcon]
      exact congrArg some (Prod.ext rfl hcur.symm)
    · rw [← hprev] at hself
      simp only [genSuperclass, href, Option.bind_eq_bind, Option.bind_some]
      rw [if_neg hself]
      simp only [hadd, Option.bind_some, hcls]
      rfl
    · simp only [emit_chunks, hch₇, hch₆, hch₅, hch₄, hch₂, hch₁, appendHead_appendHead]
      simp [Instr.encode_inherit]
  · rename_i hless
    rw [← check_cursor] at hless
    rw [if_neg hless]
    obtain rfl := Option.some.inj h
    exact (Step.refl s).imp fun _ => ⟨none, [], rfl, rfl, by simp⟩

theorem endClass_step (s : State N) :
    Step s s.endClass (s.endClass.ctx = s.ctx.endClass.2 ∧
      Emits s s.endClass s.ctx.endClass.1) := by
  unfold State.endClass Ctx.endClass
  by_cases hsuper : (s.classes.head?.map (·.hasSuperclass)).getD false = true
  · have hsuper' : (s.ctx.classes.head?.map (·.hasSuperclass)).getD false = true := hsuper
    simp only [if_pos hsuper, if_pos hsuper']
    have hpop : Step s.endScope { s.endScope with classes := s.endScope.classes.tail } True :=
      .of_parser_eq (by rfl) (by rfl)
    refine ((endScope_step s).trans hpop).imp ?_
    rintro ⟨⟨hx, hcur, hch⟩, -⟩
    exact ⟨by rw [← hx]; rfl, hcur, hch⟩
  · have hsuper' : ¬ (s.ctx.classes.head?.map (·.hasSuperclass)).getD false = true := hsuper
    simp only [if_neg hsuper, if_neg hsuper']
    exact (Step.of_parser_eq (by rfl) (by rfl)).imp fun _ => ⟨rfl, rfl, by simp⟩

theorem classDeclaration_step {f fd : State N → Option (State N)}
    {g : Cursor → Option (Stmt N × Cursor)} (hf : StmtSpec fd g) {n : ℕ} {s s' : State N}
    (h : classDeclaration f fd n s = some s') :
    Step s s' (StmtRead s s' (Pratt.classDeclaration g n s.cursor)) := by
  simp only [classDeclaration] at h
  set s₁ := s.consume .identifier "Expect class name." with hs₁
  rcases hk : s₁.identifierConstant s₁.parser.previous with ⟨k, s₂⟩
  simp only [hk, Option.bind_eq_bind, Option.bind_eq_some_iff, emitBytes_eq, emitByte_eq] at h
  set s₃ := (s₂.declareVariable.emit [OpCode.class_.byte, k]).defineVariable k with hs₃
  obtain ⟨s₄, h₄, s₅, h₅, s₆, h₆, h⟩ := h
  set s₇ := (s₆.consume .rightBrace "Expect '\x7d' after class body.").emit [OpCode.pop.byte] with hs₇
  have head := ((consume_step .identifier "Expect class name." s).trans
    (makeConstant_step hk)).trans (((declareVariable_step s₂).trans
      (emit_step [OpCode.class_.byte, k] _)).trans (defineVariable_step k _))
  have push : Step s₃ { s₃ with classes := ⟨false⟩ :: s₃.classes } True :=
    .of_parser_eq (by rfl) (by rfl)
  have body := ((superclassClause_step h₄).trans (loadVariable_step h₅)).trans
    (((consume_step _ _ _).trans (methodLoop_step hf n _ _ h₆)).trans
      ((consume_step .rightBrace "Expect '\x7d' after class body." s₆).trans
        (emit_step [OpCode.pop.byte] _)))
  obtain rfl := Option.some.inj h
  refine (head.trans (push.trans (body.trans (endClass_step s₇)))).imp ?_
  rintro ⟨⟨⟨hcon, hconst, hcur₂, hch₂⟩, ⟨⟨hdecl, hcurd, hchd⟩, -⟩, hx₃, hcur₃, hch₃⟩, -,
    ⟨⟨⟨superclass, ss, hsup, hgs, hch₄⟩, cls, hcls, hcur₅, hch₅⟩, ⟨hcon₅, ms, is, hms, hgm, hch₆⟩,
      hcon₆, -⟩, hx', hcur', hch'⟩
  rw [← hs₁] at hcon
  rw [← hs₃] at hx₃ hcur₃ hch₃
  have hprev : s₂.parser.previous = s₁.parser.previous := congrArg Cursor.previous hcur₂
  have hx₁ : s₁.ctx = s.ctx := by simp [hs₁]
  have hch₁ : s₁.chunks = s.chunks := by simp [hs₁]
  have hcur : State.cursor { s₃ with classes := ⟨false⟩ :: s₃.classes } = s₁.cursor := by
    change s₃.cursor = s₁.cursor
    rw [hcur₃, emit_cursor, hcurd, hcur₂]
  have hx₃' : State.ctx { s₃ with classes := ⟨false⟩ :: s₃.classes }
      = { (s₂.declareVariable.ctx.defineVariable k).2 with
          classes := ⟨false⟩ :: (s₂.declareVariable.ctx.defineVariable k).2.classes } := by
    rw [emit_ctx] at hx₃
    rw [← hx₃]
    rfl
  have hx₇ : s₇.ctx = s₆.ctx := by simp [hs₇]
  rw [hx₁] at hconst
  rw [hprev] at hdecl
  rw [hcur] at hsup
  rw [hx₃'] at hgs
  rw [hx₇] at hx' hch'
  simp only [consume_ctx, consume_chunks] at hgm hch₆
  refine ⟨.class_ s₁.parser.previous.lexeme superclass ms, [.class_ k] ++
    (s₂.declareVariable.ctx.defineVariable k).1 ++ ss ++ [cls.load] ++ is ++ [.pop] ++
    s₆.ctx.endClass.1, ?_, ?_, ?_⟩
  · rw [hcur₅] at hcon₅
    rw [hcur', hs₇, emit_cursor]
    simp [Pratt.classDeclaration, hcon, hsup, hcon₅, hms, hcon₆]
  · simp only [genStmt, Ctx.identifierConstant, hconst, Option.bind_eq_bind, Option.bind_some, hdecl,
      hgs, hcls, hgm]
    rw [hx']
    rfl
  · simp only [emit_ctx] at hch₃
    have hch₃' : State.chunks { s₃ with classes := ⟨false⟩ :: s₃.classes } = s₃.chunks := rfl
    rw [hch₃'] at hch₄
    have hch₇ : s₇.chunks = appendHead [OpCode.pop.byte] s₆.chunks := by simp [hs₇]
    rw [hch', hch₇]
    simp [hch₆, hch₅, hch₄, hch₃, hchd, hch₂, hch₁, Instr.encode_pop,
      show (Instr.class_ k).encode = [_, _] from rfl]

theorem funDeclaration_step {f : State N → Option (State N)}
    {g : Cursor → Option (Stmt N × Cursor)} (hf : StmtSpec f g) {n : ℕ} {s s' : State N}
    (h : funDeclaration f n s = some s') :
    Step s s' (StmtRead s s' (Pratt.namedFunction g n s.cursor)) := by
  rcases hk : s.parseVariable "Expect function name." with ⟨k, s₁⟩
  simp only [funDeclaration, hk, Option.bind_eq_bind, Option.bind_eq_some_iff] at h
  obtain ⟨s₂, h₂, h⟩ := h
  obtain rfl := Option.some.inj h
  refine (((parseVariable_step hk).trans (markInitialized_step s₁)).trans
    ((function_step hf (by simp) h₂).trans (defineVariable_step k s₂))).imp ?_
  rintro ⟨⟨⟨c, hcon, hvar, rfl, hch₁⟩, hx, hcur, hch⟩,
    ⟨params, body, is, js, y, y', hparse, hparams, hgen, hclos, hch₂⟩, hx₃, hcur₃, hch₃⟩
  have hprev : s₁.markInitialized.parser.previous = s₁.parser.previous :=
    congrArg Cursor.previous hcur
  rw [hx, hprev] at hparams
  rw [hcur] at hparse
  refine ⟨.function s₁.parser.previous.lexeme params body, js ++ (s₂.ctx.defineVariable k).1,
    ?_, ?_, ?_⟩
  · simp [Pratt.namedFunction, hcon, hparse, hcur₃]
  · simp only [cursor_previous] at hvar
    simp only [genStmt, hvar, Option.bind_eq_bind, Option.bind_some, hparams, hgen, hclos, hx₃]
    rfl
  · simp [hch₃, hch₂, hch, hch₁]

/-! ### Statements and declarations -/

theorem Parser.synchronizeLoop_sound (n : ℕ) : ∀ p : Parser, p.hadError = true →
    ThisIsThis p.tokens →
    (p.synchronizeLoop n).hadError = true ∧ ThisIsThis (p.synchronizeLoop n).tokens := by
  induction n with
  | zero => intro p he ht; exact ⟨he, ht⟩
  | succ n ih =>
    intro p he ht
    simp only [Parser.synchronizeLoop]
    split_ifs
    · exact ⟨he, ht⟩
    · exact ⟨he, ht⟩
    · exact ⟨he, ht⟩
    · exact ih _ (Parser.hadError_advanceLoop _ _ he) (Parser.this_advance ht)

/-- Without errors there is nothing to synchronize. -/
theorem synchronize_step (s : State N) :
    Step s (if s.parser.panicMode then s.synchronize else s)
      ((if s.parser.panicMode then s.synchronize else s) = s) := by
  split
  · rename_i hpanic
    intro hs
    have hsync := Parser.synchronizeLoop_sound (s.parser.scanner.pending.length + 2)
      { s.parser with panicMode := false } (hs.panic hpanic) hs.this_
    refine ⟨⟨⟨fun _ => hsync.1, hs.chunk, hsync.2⟩, rfl⟩, fun he => ?_⟩
    have he' : s.synchronize.parser.hadError = true := hsync.1
    rw [he'] at he
    cases he
  · exact (Step.refl s).imp fun _ => rfl

theorem blockStatement_step {f : State N → Option (State N)}
    {g : Cursor → Option (Stmt N × Cursor)} (hf : StmtSpec f g) {n : ℕ} {s s₁ : State N}
    (h : block f n s.beginScope = some s₁) :
    Step s s₁.endScope (StmtRead s s₁.endScope (do
      let (ss, c) ← Pratt.block g n s.cursor
      return (.block ss, c))) := by
  refine (((beginScope_step s).trans (block_step hf h)).trans (endScope_step s₁)).imp ?_
  rintro ⟨⟨⟨hx, hcur, hch⟩, ts, is, hts, hgs, hch₁⟩, hx', hcur', hch'⟩
  rw [hcur] at hts
  rw [hx] at hgs
  refine ⟨.block ts, is ++ s₁.ctx.endScope.1, ?_, ?_, ?_⟩
  · simp [hts, hcur']
  · simp [genStmt, hgs, hx']
  · simp [hch', hch₁, hch]

/-- A statement that a keyword announces: the keyword is taken first. -/
theorem StmtRead.advance {s s' : State N} {g : Cursor → Option (Stmt N × Cursor)}
    (hadv : Pratt.advance s.cursor = some s.advance.cursor)
    (h : StmtRead s.advance s' (g s.advance.cursor)) :
    StmtRead s s' (do
      let c ← Pratt.advance s.cursor
      g c) := by
  obtain ⟨t, is, ht, hg, hch⟩ := h
  exact ⟨t, is, by simp [hadv, ht], by simpa using hg, by simpa using hch⟩

theorem statementBody_step [Double N] {fd fs : State N → Option (State N)}
    {gd gs : Cursor → Option (Stmt N × Cursor)} (hd : StmtSpec fd gd) (hs : StmtSpec fs gs)
    (n : ℕ) : StmtSpec (statementBody fd fs n) (Pratt.statementBody gd gs n) := by
  intro s s' h
  have he := expression_step (N := N) n
  have hadv := advance_step s
  simp only [statementBody] at h
  unfold Pratt.statementBody
  split at h
  · rename_i hc
    rw [← check_cursor] at hc
    rw [if_pos hc]
    exact (hadv.trans (printStatement_step he h)).imp fun h => StmtRead.advance h.1 h.2
  rename_i hc
  rw [← check_cursor] at hc
  rw [if_neg hc]
  clear hc
  split at h
  · rename_i hc
    rw [← check_cursor] at hc
    rw [if_pos hc]
    simp only [Option.bind_eq_bind, Option.bind_eq_some_iff] at h
    obtain ⟨s₁, h₁, h⟩ := h
    obtain rfl := Option.some.inj h
    exact (hadv.trans (blockStatement_step hd h₁)).imp fun h => StmtRead.advance h.1 h.2
  rename_i hc
  rw [← check_cursor] at hc
  rw [if_neg hc]
  clear hc
  split at h
  · rename_i hc
    rw [← check_cursor] at hc
    rw [if_pos hc]
    exact (hadv.trans (ifStatement_step he hs h)).imp fun h => StmtRead.advance h.1 h.2
  rename_i hc
  rw [← check_cursor] at hc
  rw [if_neg hc]
  clear hc
  split at h
  · rename_i hc
    rw [← check_cursor] at hc
    rw [if_pos hc]
    exact (hadv.trans (whileStatement_step he hs h)).imp fun h => StmtRead.advance h.1 h.2
  rename_i hc
  rw [← check_cursor] at hc
  rw [if_neg hc]
  clear hc
  split at h
  · rename_i hc
    rw [← check_cursor] at hc
    rw [if_pos hc]
    exact (hadv.trans (forStatement_step he hs h)).imp fun h => StmtRead.advance h.1 h.2
  rename_i hc
  rw [← check_cursor] at hc
  rw [if_neg hc]
  clear hc
  split at h
  · rename_i hc
    rw [← check_cursor] at hc
    rw [if_pos hc]
    exact (hadv.trans (returnStatement_step he h)).imp fun h => StmtRead.advance h.1 h.2
  · rename_i hc
    rw [← check_cursor] at hc
    rw [if_neg hc]
    refine (expressionStatement_step he h).imp ?_
    rintro ⟨e, is, hparse, hg, hch⟩
    exact ⟨.expression e, is ++ [.pop], by simp [hparse], by simp [genStmt, hg], hch⟩

theorem declarationBody_step [Double N] {fd fs : State N → Option (State N)}
    {gd gs : Cursor → Option (Stmt N × Cursor)} (hd : StmtSpec fd gd) (hs : StmtSpec fs gs)
    (n : ℕ) : StmtSpec (declarationBody fd fs n) (Pratt.declarationBody gd gs n) := by
  intro s s' h
  have he := expression_step (N := N) n
  have hadv := advance_step s
  -- Whatever was declared, `synchronize` has nothing to do when there is no error.
  have sync : ∀ {s₁ : State N} {r : Option (Stmt N × Cursor)}, Step s s₁ (StmtRead s s₁ r) →
      (if s₁.parser.panicMode then s₁.synchronize else s₁) = s' → Step s s' (StmtRead s s' r) := by
    rintro s₁ r h₁ rfl
    refine (h₁.trans (synchronize_step s₁)).imp ?_
    rintro ⟨hr, heq⟩
    rw [heq]
    exact hr
  simp only [declarationBody] at h
  unfold Pratt.declarationBody
  split at h
  · rename_i hc
    rw [← check_cursor] at hc
    rw [if_pos hc]
    simp only [Option.bind_eq_bind, Option.bind_eq_some_iff] at h
    obtain ⟨s₁, h₁, h⟩ := h
    refine sync ((hadv.trans (varDeclaration_step he h₁)).imp ?_) (Option.some.inj h)
    rintro ⟨ha, name, init, is, hparse, hg, hch⟩
    exact ⟨.var name init, is, by simp [ha, hparse], by simpa [genStmt] using hg, by simpa using hch⟩
  rename_i hc
  rw [← check_cursor] at hc
  rw [if_neg hc]
  clear hc
  split at h
  · rename_i hc
    rw [← check_cursor] at hc
    rw [if_pos hc]
    simp only [Option.bind_eq_bind, Option.bind_eq_some_iff] at h
    obtain ⟨s₁, h₁, h⟩ := h
    exact sync ((hadv.trans (funDeclaration_step hd h₁)).imp fun h => StmtRead.advance h.1 h.2)
      (Option.some.inj h)
  rename_i hc
  rw [← check_cursor] at hc
  rw [if_neg hc]
  clear hc
  split at h
  · rename_i hc
    rw [← check_cursor] at hc
    rw [if_pos hc]
    simp only [Option.bind_eq_bind, Option.bind_eq_some_iff] at h
    obtain ⟨s₁, h₁, h⟩ := h
    exact sync ((hadv.trans (classDeclaration_step hd h₁)).imp fun h => StmtRead.advance h.1 h.2)
      (Option.some.inj h)
  · rename_i hc
    rw [← check_cursor] at hc
    rw [if_neg hc]
    simp only [Option.bind_eq_bind, Option.bind_eq_some_iff] at h
    obtain ⟨s₁, h₁, h⟩ := h
    exact sync (hs _ _ h₁) (Option.some.inj h)

theorem statement_declaration_step [Double N] (n : ℕ) :
    StmtSpec (N := N) (statement n) (Pratt.statement n) ∧
      StmtSpec (N := N) (declaration n) (Pratt.declaration n) := by
  induction n with
  | zero =>
    constructor
    · intro s s' h; simp [statement] at h
    · intro s s' h; simp [declaration] at h
  | succ n ih =>
    constructor
    · intro s s' h
      simp only [statement, Pratt.statement] at h ⊢
      exact statementBody_step ih.2 ih.1 n s s' h
    · intro s s' h
      simp only [declaration, Pratt.declaration] at h ⊢
      exact declarationBody_step ih.2 ih.1 n s s' h

/-! ### Programs -/

theorem compileLoop_step [Double N] (n : ℕ) : ∀ s s' : State N, compileLoop n s = some s' →
    Step s s' (∃ ts is, Pratt.programLoop n s.cursor = some ts ∧
      genStmts ts s.ctx = some (is, s'.ctx) ∧
      s'.chunks = appendHead (encodeAll is) s.chunks) := by
  induction n with
  | zero => intro s s' h; cases h
  | succ n ih =>
    intro s s' h
    simp only [compileLoop] at h
    unfold Pratt.programLoop
    split at h
    · rename_i hc
      rw [← check_cursor] at hc
      rw [if_pos hc]
      obtain rfl := Option.some.inj h
      exact (advance_step s).imp fun hadv => ⟨[], [], by simp [hadv], by simp [genStmts], by simp⟩
    · rename_i hc
      rw [← check_cursor] at hc
      rw [if_neg hc]
      simp only [Option.bind_eq_bind, Option.bind_eq_some_iff] at h
      obtain ⟨s₁, h₁, h⟩ := h
      refine (((statement_declaration_step n).2 _ _ h₁).trans (ih _ _ h)).imp ?_
      rintro ⟨⟨t, is, ht, hg, hch⟩, ts, js, hts, hgs, hch'⟩
      exact ⟨t :: ts, is ++ js, by simp [ht, hts], by simp [genStmts, hg, hgs], by simp [hch', hch]⟩

/-- What `compile` returns for a token stream is the function of the tree it stands for. -/
theorem compile_factors_tokens [Double N] {n : ℕ} {scanner : Scanner} {f : ObjFunction N}
    (hthis : ThisIsThis scanner.pending) (h : compile n scanner = some (some f)) :
    ∃ ts, Pratt.program n scanner = some ts ∧ genProgram ts = some f := by
  simp only [compile, compileState, Option.bind_eq_bind, Option.bind_eq_some_iff, Prod.exists] at h
  obtain ⟨f', s₂, ⟨s₁, h₁, f'', us, s₃, h₃, h₂⟩, h⟩ := h
  obtain ⟨rfl, rfl⟩ := Prod.mk.inj (Option.some.inj h₂)
  have h := Option.some.inj h
  split at h
  · cases h
  obtain rfl := Option.some.inj h
  rename_i herror
  have hsound : (State.start (N := N) scanner).Sound := by
    refine ⟨fun h => h, by simp [State.start], fun t ht => ?_⟩
    simp only [State.start, Parser.tokens, List.mem_cons] at ht
    rcases ht with rfl | rfl | ht
    · intro h; cases h
    · intro h; cases h
    · exact hthis t ht
  obtain ⟨c, code, hcs, hcodes, rfl, rfl, hclasses, hparser⟩ := endCompiler_eq h₃
  obtain ⟨-, hstep⟩ := ((advance_step (State.start scanner)).trans (compileLoop_step n _ _ h₁)) hsound
  obtain ⟨-, hadv, ts, is, hparse, hgen, hch⟩ := hstep (by rw [← hparser]; simpa using herror)
  refine ⟨ts, ?_, ?_⟩
  · have hcur : (State.start (N := N) scanner).cursor
        = ⟨scanner.eofToken, scanner.eofToken, scanner⟩ := rfl
    rw [hcur] at hadv
    simp [Pratt.program, hadv, hparse]
  · have hx : (State.start (N := N) scanner).advance.ctx = Ctx.script := rfl
    rw [hx] at hgen
    have hcode : code = encodeAll is := by
      have hch₀ : (State.start (N := N) scanner).advance.chunks = [[]] := rfl
      rw [hcodes, hch₀] at hch
      simpa [appendHead] using (List.cons.inj hch).1
    have hxc : s₁.ctx.compilers = c :: s₃.compilers := hcs
    simp [genProgram, hgen, hxc, hcode]

/-! ### Sources -/

theorem Lexer.checkKeyword_eq {start length : ℕ} {rest : String} {type t : TokenType} {x : Lexer}
    (h : x.checkKeyword start length rest type = t) (ht : t ≠ .identifier) :
    t = type ∧ x.length = start + length ∧ (x.start.drop start).take length = rest.toList := by
  unfold Lexer.checkKeyword at h
  split at h
  · rename_i hc
    simp only [Bool.and_eq_true, decide_eq_true_eq] at hc
    exact ⟨h.symm, hc⟩
  · exact absurd h.symm ht

theorem Lexer.checkKeyword_ne_this {start length : ℕ} {rest : String} {type : TokenType}
    {x : Lexer} (h : type ≠ .this_) : x.checkKeyword start length rest type ≠ .this_ :=
  fun hk => h (Lexer.checkKeyword_eq hk (by simp)).1.symm

/-- Only the word `this` has the type `TOKEN_THIS`. -/
theorem Lexer.identifierType_this {x : Lexer} (h : x.identifierType = .this_) :
    (x.makeToken .this_).lexeme = "this".toList := by
  unfold Lexer.identifierType at h
  split at h <;> try exact absurd h (Lexer.checkKeyword_ne_this (by simp))
  · split at h <;> exact absurd h (Lexer.checkKeyword_ne_this (by simp))
  · rename_i rest hstart
    split at h
    · rename_i cs hlen
      obtain ⟨-, hlength, hrest⟩ := Lexer.checkKeyword_eq h (by simp)
      simp only [hstart, List.drop_succ_cons, List.drop_zero] at hrest
      simp [Lexer.makeToken, Token.lexeme, hlength, hstart, hrest]
    · exact absurd h (Lexer.checkKeyword_ne_this (by simp))
    · exact absurd h (Lexer.checkKeyword_ne_this (by simp))
  · cases h

theorem Lexer.scanToken_this {x : Lexer} (h : x.scanToken.1.type = .this_) :
    x.scanToken.1.lexeme = "this".toList := by
  unfold Lexer.scanToken at h ⊢
  rcases hw : skipWhitespace x.current x.line with ⟨current, line⟩
  simp only [hw] at h ⊢
  cases current with
  | nil => simp [Lexer.makeToken] at h
  | cons c rest =>
    simp only at h ⊢
    split at h
    · rename_i halpha
      rw [if_pos halpha]
      simp only [Lexer.identifier, Lexer.makeToken] at h ⊢
      rw [h]
      exact Lexer.identifierType_this h
    · split at h
      · simp [Lexer.number, Lexer.makeToken] at h
      · exfalso
        revert h
        split <;> simp [Lexer.makeToken, Lexer.errorToken, Lexer.operator, Lexer.string] <;>
          (try split) <;> (try split) <;> simp

theorem Lexer.this_scanLoop (n : ℕ) : ∀ x : Lexer, ThisIsThis (scanLoop n x).pending := by
  induction n with
  | zero => intro x t ht; simp [scanLoop] at ht
  | succ n ih =>
    intro x t ht
    simp only [scanLoop] at ht
    split at ht
    · simp at ht
    · simp only [List.mem_cons] at ht
      rcases ht with rfl | ht
      · exact Lexer.scanToken_this
      · exact ih _ t ht

/-- Every function that `compile` returns for a source is the function of its tree. -/
theorem compile_factors [Double N] {source : List Char} {f : ObjFunction N}
    (h : Accepts (scanAll source) f) :
    ∃ n ts, Pratt.program n (scanAll source) = some ts ∧ genProgram ts = some f := by
  obtain ⟨n, h⟩ := h
  exact ⟨n, compile_factors_tokens (Lexer.this_scanLoop _ _) h⟩

end Lox.Clox
