import Lox.Clox.Factor.Expr

/-!
# The single pass factors through the tree: statements and programs

The statement functions of `compiler.c` against the tree (`declaration_step`), and the result
for whole sources: a function that `compile` returns is the one `genProgram` makes from the tree
`Pratt.program` reads (`compile_factors`).
-/

namespace Lox.Clox

variable {N : Type}

/-- From `s` to `s'` the statement that `r` gives was read and its code emitted. -/
def StmtRead (s s' : State N) (r : Option (Stmt N × Cursor)) : Prop :=
  ∃ t is, r = some (t, s'.cursor) ∧ genStmt t s.ctx = some (is, s'.ctx) ∧
    s'.chunks = appendHead (encodeAll is) s.chunks

/-- A statement function of `compiler.c` and its counterpart on trees. -/
def StmtSpec (f : State N → Option (State N)) (g : Cursor → Option (Stmt N × Cursor)) : Prop :=
  ∀ s s', f s = some s' → Step s s' (StmtRead s s' (g s.cursor))

/-! ### Simple statements -/

theorem expressionStatement_step {f : State N → Option (State N)}
    {g : Cursor → Option (Expr N × Cursor)} (hf : ExprSpec f g) {s s' : State N}
    (h : expressionStatement f s = some s') :
    Step s s' (∃ e is, Pratt.expressionStatement g s.cursor = some (e, s'.cursor) ∧
      genExpr e s.ctx = some (is, s'.ctx) ∧
      s'.chunks = appendHead (encodeAll (is ++ [.pop])) s.chunks) := by
  simp only [expressionStatement, Option.bind_eq_bind, Option.bind_eq_some_iff] at h
  obtain ⟨s₁, h₁, h⟩ := h
  obtain rfl := Option.some.inj h
  rw [emitByte_eq]
  refine (((hf _ _ h₁).trans (consume_step _ _ _)).trans (emit_step _ _)).imp ?_
  rintro ⟨⟨⟨e, is, he, hg, hc⟩, hcon⟩, -⟩
  refine ⟨e, is, ?_, ?_, ?_⟩
  · simp [Pratt.expressionStatement, he, hcon]
  · simpa using hg
  · simp [hc, Instr.encode]

theorem printStatement_step {f : State N → Option (State N)}
    {g : Cursor → Option (Expr N × Cursor)} (hf : ExprSpec f g) {s s' : State N}
    (h : printStatement f s = some s') :
    Step s s' (StmtRead s s' (do
      let (e, c) ← Pratt.expressionStatement g s.cursor
      return (.print e, c))) := by
  simp only [printStatement, Option.bind_eq_bind, Option.bind_eq_some_iff] at h
  obtain ⟨s₁, h₁, h⟩ := h
  obtain rfl := Option.some.inj h
  rw [emitByte_eq]
  refine (((hf _ _ h₁).trans (consume_step _ _ _)).trans (emit_step _ _)).imp ?_
  rintro ⟨⟨⟨e, is, he, hg, hc⟩, hcon⟩, -⟩
  refine ⟨.print e, is ++ [.print], ?_, ?_, ?_⟩
  · simp [Pratt.expressionStatement, he, hcon]
  · simp [genStmt, hg]
  · simp [hc, Instr.encode]

theorem varDeclaration_step {f : State N → Option (State N)}
    {g : Cursor → Option (Expr N × Cursor)} (hf : ExprSpec f g) {s s' : State N}
    (h : varDeclaration f s = some s') :
    Step s s' (∃ name init is, Pratt.varDeclaration g s.cursor = some ((name, init), s'.cursor) ∧
      genVar name init s.ctx = some (is, s'.ctx) ∧
      s'.chunks = appendHead (encodeAll is) s.chunks) := by
  rcases hk : s.parseVariable "Expect variable name." with ⟨k, s₁⟩
  simp only [varDeclaration, hk, Option.bind_eq_bind] at h
  have step₁ := parseVariable_step hk
  split at h
  · rename_i hequal
    simp only [Option.bind_eq_some_iff] at h
    obtain ⟨s₂, h₂, h⟩ := h
    obtain rfl := Option.some.inj h
    refine (((step₁.trans ((advance_step _).trans (hf _ _ h₂))).trans
      (consume_step .semicolon "Expect ';' after variable declaration." _)).trans
      (defineVariable_step k _)).imp ?_
    rintro ⟨⟨⟨⟨c, hcon₁, hparse, rfl, hch₁⟩, hadv, e, is, he, hg, hch₂⟩, hcon₂⟩, hctx, hcur, hch⟩
    rw [← check_cursor] at hequal
    simp only [advance_ctx, advance_chunks, consume_ctx, consume_chunks, cursor_previous]
      at hparse hg hch₂ hctx hch
    refine ⟨s₁.cursor.previous.lexeme, some e, is ++ (s₂.ctx.defineVariable k).1, ?_, ?_, ?_⟩
    · simp [Pratt.varDeclaration, hcon₁, hequal, hadv, he, hcon₂, hcur]
    · simp [genVar, hparse, genOption, hg, hctx]
    · simp [hch, hch₂, hch₁]
  · rename_i hequal
    simp only [Option.bind_some] at h
    obtain rfl := Option.some.inj h
    rw [emitByte_eq]
    refine (((step₁.trans (emit_step _ _)).trans
      (consume_step .semicolon "Expect ';' after variable declaration." _)).trans
      (defineVariable_step k _)).imp ?_
    rintro ⟨⟨⟨⟨c, hcon₁, hparse, rfl, hch₁⟩, -⟩, hcon₂⟩, hctx, hcur, hch⟩
    rw [← check_cursor] at hequal
    simp only [consume_ctx, consume_chunks, emit_ctx, emit_chunks, emit_cursor, cursor_previous]
      at hparse hcon₂ hctx hch
    refine ⟨s₁.cursor.previous.lexeme, none, [.nil] ++ (s₁.ctx.defineVariable k).1, ?_, ?_, ?_⟩
    · simp [Pratt.varDeclaration, hcon₁, hequal, hcon₂, hcur]
    · simp [genVar, hparse, genOption, hctx]
    · simp [hch, hch₁, Instr.encode]

theorem returnStatement_step {f : State N → Option (State N)}
    {g : Cursor → Option (Expr N × Cursor)} (hf : ExprSpec f g) {s s' : State N}
    (h : returnStatement f s = some s') :
    Step s s' (StmtRead s s' (Pratt.returnStatement g s.cursor)) := by
  simp only [returnStatement] at h
  by_cases hscript : s.type = .script
  · -- An error whatever follows.
    rw [if_pos hscript] at h
    have step₀ := error_step "Can't return from top-level code." s
    split at h
    · obtain rfl := Option.some.inj h
      rw [returnCode_encode]
      exact (step₀.trans ((advance_step _).trans (emit_step _ _))).imp fun h => h.1.elim
    · simp only [Option.bind_eq_bind, Option.bind_eq_some_iff] at h
      obtain ⟨s₁, h₁, h⟩ := h
      obtain rfl := Option.some.inj h
      rw [emitByte_eq]
      exact (step₀.trans ((errorIf_step _ _ _).trans ((hf _ _ h₁).trans
        ((consume_step _ _ _).trans (emit_step _ _))))).imp fun h => h.1.elim
  · rw [if_neg hscript] at h
    split at h
    · rename_i hsemi
      obtain rfl := Option.some.inj h
      rw [returnCode_encode]
      refine ((advance_step _).trans (emit_step _ _)).imp ?_
      rintro ⟨hadv, -⟩
      rw [← check_cursor] at hsemi
      refine ⟨.return_ none, s.ctx.returnCode, ?_, ?_, rfl⟩
      · simp [Pratt.returnStatement, Pratt.forClause, hsemi, hadv]
      · simp only [genStmt]
        exact if_neg hscript
    · rename_i hsemi
      simp only [Option.bind_eq_bind, Option.bind_eq_some_iff] at h
      obtain ⟨s₁, h₁, h⟩ := h
      obtain rfl := Option.some.inj h
      rw [emitByte_eq]
      by_cases hinit : s.type = .initializer
      · rw [if_pos hinit] at h₁
        exact ((error_step _ s).trans ((hf _ _ h₁).trans
          ((consume_step _ _ _).trans (emit_step _ _)))).imp fun h => h.1.elim
      · rw [if_neg hinit] at h₁
        refine ((hf _ _ h₁).trans ((consume_step _ _ _).trans (emit_step _ _))).imp ?_
        rintro ⟨⟨e, is, he, hg, hc⟩, hcon, -⟩
        rw [← check_cursor] at hsemi
        refine ⟨.return_ (some e), is ++ [.return_], ?_, ?_, ?_⟩
        · simp [Pratt.returnStatement, Pratt.forClause, hsemi, he, hcon]
        · simp only [genStmt]
          rw [if_neg (show ¬ s.ctx.type = .script from hscript),
            if_neg (show ¬ s.ctx.type = .initializer from hinit)]
          simp [hg]
        · simp [hc, Instr.encode]

/-! ### Branches and loops -/

/-- The first half of `ifStatement`: the condition, the then-branch, and both jumps emitted with
the first one patched. -/
theorem thenBranch_step {f st : State N → Option (State N)}
    {g : Cursor → Option (Expr N × Cursor)} {gt : Cursor → Option (Stmt N × Cursor)}
    (hf : ExprSpec f g) (ht : StmtSpec st gt) {s s₂ s₄ s₆ s₇ : State N} {thenJump elseJump : ℕ}
    (h₂ : f (s.consume .leftParen "Expect '(' after 'if'.") = some s₂)
    (h₄ : (s₂.consume .rightParen "Expect ')' after condition.").emitJump .jumpIfFalse
      = (thenJump, s₄))
    (h₆ : st (s₄.emitByte OpCode.pop.byte) = some s₆) (h₇ : s₆.emitJump .jump = (elseJump, s₇)) :
    Step s (s₇.patchJump thenJump) (∃ e t is ts,
      (do let c ← Pratt.consume .leftParen s.cursor
          let (e, c) ← g c
          let c ← Pratt.consume .rightParen c
          let (t, c) ← gt c
          return (e, t, c)) = some (e, t, (s₇.patchJump thenJump).cursor) ∧
      (do let (is, x) ← genExpr e s.ctx
          let (ts, x) ← genStmt t x
          return (is, ts, x)) = some (is, ts, (s₇.patchJump thenJump).ctx) ∧
      codeSize ([.pop] ++ ts ++ [.jump 0]) ≤ 65535 ∧
      (s₇.patchJump thenJump).chunks = appendHead
        (encodeAll (is ++ [.jumpIfFalse (codeSize ([.pop] ++ ts ++ [.jump 0])), .pop] ++ ts) ++
          [OpCode.jump.byte, 0xff, 0xff]) s.chunks ∧
      elseJump = s.count + codeSize (is ++ [.jumpIfFalse 0, .pop] ++ ts) + 1 ∧
      0 < s.chunks.length) := by
  rw [emitByte_eq] at h₆
  refine Step.of_sound fun hlen => ?_
  have steps := ((((consume_step _ _ _).trans (hf _ _ h₂)).trans (consume_step _ _ _)).trans
    (emitJump_step _ h₄)).trans (((emit_step _ _).trans (ht _ _ h₆)).trans (emitJump_step _ h₇))
  refine (steps.bind (patchJump_step_true _ _) ?_).imp And.right
  rintro ⟨⟨⟨⟨hcon₁, e, is, he, hg, hch₂⟩, hcon₂⟩, hthen, rfl, hlen₃⟩,
    ⟨-, t, ts, hrt, hgt, hch₆⟩, helse, rfl, -⟩
  simp only [consume_ctx, consume_chunks, emit_ctx, emit_chunks, emit_cursor] at *
  have hchunk : (s₆.emit [OpCode.jump.byte, 0xff, 0xff]).chunks
      = appendHead (OpCode.jumpIfFalse.byte :: 0xff :: 0xff ::
          encodeAll ([.pop] ++ ts ++ [.jump 65535])) s₂.chunks := by
    simp [hch₆, Instr.encode, shortBytes]
  have hsize : codeSize ([.pop] ++ ts ++ [.jump 65535]) = codeSize ([.pop] ++ ts ++ [.jump 0]) := by
    simp [codeSize, Instr.encode, shortBytes]
  have hconsumed : (s₆.emit [OpCode.jump.byte, 0xff, 0xff]).chunks
      = appendHead (OpCode.jumpIfFalse.byte :: 0xff :: 0xff ::
          encodeAll ([.pop] ++ ts ++ [.jump 65535]))
        (s₂.consume .rightParen "Expect ')' after condition.").chunks := by
    rw [consume_chunks]
    exact hchunk
  refine (patchJump_step (by simpa using hlen₃) hconsumed hthen).imp ?_
  rintro ⟨hle, hcur, hctx, hch⟩
  refine ⟨e, t, is, ts, ?_, ?_, ?_, ?_, ?_, hlen⟩
  · simp [hcon₁, he, hcon₂, hrt, hcur]
  · simp [hg, hgt, hctx]
  · exact hsize ▸ hle
  · change codeSize ([.pop] ++ ts ++ [.jump 65535]) ≤ 65535 at hle
    rw [hch, show (encodeAll ([.pop] ++ ts ++ [.jump 65535])).length = _ from hsize]
    simp [hch₂, Instr.encode, shortBytes]
  · have hc : s₆.chunks = appendHead (encodeAll (is ++ [.jumpIfFalse 65535, .pop] ++ ts)) s.chunks := by
      simp [hch₆, hch₂, Instr.encode, shortBytes]
    rw [helse, count_of_appendHead hlen hc]
    simp [codeSize, Instr.encode, shortBytes]

/-- Jump distances do not matter for the size of a piece of code. -/
theorem codeSize_jump (is js : List Instr) (d d' : ℕ) :
    codeSize (is ++ .jump d :: js) = codeSize (is ++ .jump d' :: js) := by
  simp [codeSize, Instr.encode, shortBytes]

theorem ifStatement_step {f st : State N → Option (State N)}
    {g : Cursor → Option (Expr N × Cursor)} {gt : Cursor → Option (Stmt N × Cursor)}
    (hf : ExprSpec f g) (ht : StmtSpec st gt) {s s' : State N}
    (h : ifStatement f st s = some s') :
    Step s s' (StmtRead s s' (Pratt.ifStatement g gt s.cursor)) := by
  simp only [ifStatement, Option.bind_eq_bind, Option.bind_eq_some_iff] at h
  obtain ⟨s₂, h₂, h⟩ := h
  rcases h₄ : (s₂.consume .rightParen "Expect ')' after condition.").emitJump .jumpIfFalse
    with ⟨thenJump, s₄⟩
  simp only [h₄] at h
  obtain ⟨s₆, h₆, h⟩ := h
  rcases h₇ : s₆.emitJump .jump with ⟨elseJump, s₇⟩
  simp only [h₇] at h
  have step := (thenBranch_step hf ht h₂ h₄ h₆ h₇).trans (emit_step [OpCode.pop.byte] _)
  rw [emitByte_eq] at h
  split at h
  · rename_i helse
    rw [Option.bind_eq_some_iff] at h
    obtain ⟨s₈, h₈, h⟩ := h
    obtain rfl := Option.some.inj h
    refine ((step.trans ((advance_step _).trans (ht _ _ h₈))).bind
      (patchJump_step_true _ _) ?_).imp And.right
    rintro ⟨⟨⟨e, t, is, ts, hparse, hgen, hsize, hch, hej, hlen⟩, -⟩, hadv, u, us, hru, hgu, hch₈⟩
    set d := codeSize ([.pop] ++ ts ++ [.jump 0]) with hd
    simp only [advance_ctx, advance_chunks, emit_ctx, emit_chunks, emit_cursor] at hadv hgu hch₈
    have hchunk : s₈.chunks = appendHead (OpCode.jump.byte :: 0xff :: 0xff :: encodeAll (.pop :: us))
        (s.emit (encodeAll (is ++ [.jumpIfFalse d, .pop] ++ ts))).chunks := by
      simp [hch₈, hch, Instr.encode]
    refine (patchJump_step (by simpa using hlen) hchunk ?_).imp ?_
    · rw [hej, count_of_appendHead hlen (emit_chunks _ _)]
      simp [codeSize, Instr.encode, shortBytes]
    · rintro ⟨hle, hcur, hctx, hch'⟩
      have hd' : d = codeSize ([.pop] ++ ts ++ [.jump (codeSize (.pop :: us))]) :=
        codeSize_jump _ _ _ _
      refine ⟨.if_ e t (some u), is ++ [.jumpIfFalse d, .pop] ++ ts ++
        [.jump (codeSize (.pop :: us)), .pop] ++ us, ?_, ?_, ?_⟩
      · rw [← check_cursor] at helse
        simp only [emit_cursor] at helse
        simp only [Option.bind_eq_bind, Option.bind_eq_some_iff, Prod.exists] at hparse
        obtain ⟨c₁, hc₁, e₁, c₂, hc₂, c₃, hc₃, t₁, c₄, hc₄, hret⟩ := hparse
        obtain ⟨rfl, rfl, rfl⟩ : e₁ = e ∧ t₁ = t ∧ c₄ = _ := by simpa using hret
        simp [Pratt.ifStatement, hc₁, hc₂, hc₃, hc₄, helse, hadv, hru, hcur]
      · simp only [Option.bind_eq_bind, Option.bind_eq_some_iff, Prod.exists] at hgen
        obtain ⟨is₁, x₁, hx₁, ts₁, x₂, hx₂, hret⟩ := hgen
        obtain ⟨rfl, rfl, rfl⟩ : is₁ = is ∧ ts₁ = ts ∧ x₂ = _ := by simpa using hret
        simp only [genStmt, hx₁, hx₂, hgu, jumpOver_eq hle, Option.bind_eq_bind, Option.bind_some]
        rw [jumpOver_eq (by rw [← codeSize, ← hd']; exact hsize), ← hd', hctx]
        rfl
      · rw [hch']
        simp [Instr.encode, codeSize]
  · rename_i helse
    simp only [Option.bind_some] at h
    obtain rfl := Option.some.inj h
    refine (step.bind (patchJump_step_true _ _) ?_).imp And.right
    rintro ⟨⟨e, t, is, ts, hparse, hgen, hsize, hch, hej, hlen⟩, -⟩
    set d := codeSize ([.pop] ++ ts ++ [.jump 0]) with hd
    have hchunk : ((s₇.patchJump thenJump).emit [OpCode.pop.byte]).chunks
        = appendHead (OpCode.jump.byte :: 0xff :: 0xff :: encodeAll [.pop])
          (s.emit (encodeAll (is ++ [.jumpIfFalse d, .pop] ++ ts))).chunks := by
      simp [hch, Instr.encode]
    refine (patchJump_step (by simpa using hlen) hchunk ?_).imp ?_
    · rw [hej, count_of_appendHead hlen (emit_chunks _ _)]
      simp [codeSize, Instr.encode, shortBytes]
    · rintro ⟨hle, hcur, hctx, hch'⟩
      have hd' : d = codeSize ([.pop] ++ ts ++ [.jump (codeSize [.pop])]) :=
        codeSize_jump _ _ _ _
      refine ⟨.if_ e t none, is ++ [.jumpIfFalse d, .pop] ++ ts ++
        [.jump (codeSize [.pop]), .pop], ?_, ?_, ?_⟩
      · rw [← check_cursor] at helse
        simp only [emit_cursor] at helse hcur
        simp only [Option.bind_eq_bind, Option.bind_eq_some_iff, Prod.exists] at hparse
        obtain ⟨c₁, hc₁, e₁, c₂, hc₂, c₃, hc₃, t₁, c₄, hc₄, hret⟩ := hparse
        obtain ⟨rfl, rfl, rfl⟩ : e₁ = e ∧ t₁ = t ∧ c₄ = _ := by simpa using hret
        simp [Pratt.ifStatement, hc₁, hc₂, hc₃, hc₄, helse, hcur]
      · simp only [Option.bind_eq_bind, Option.bind_eq_some_iff, Prod.exists] at hgen
        obtain ⟨is₁, x₁, hx₁, ts₁, x₂, hx₂, hret⟩ := hgen
        obtain ⟨rfl, rfl, rfl⟩ : is₁ = is ∧ ts₁ = ts ∧ x₂ = _ := by simpa using hret
        simp only [emit_ctx] at hctx
        simp only [genStmt, hx₁, hx₂, jumpOver_eq hle, Option.bind_eq_bind, Option.bind_some]
        rw [jumpOver_eq (by rw [← codeSize, ← hd']; exact hsize), ← hd', hctx]
        rfl
      · rw [hch']
        simp [Instr.encode, codeSize]

theorem loopOver_eq {is : List Instr} (h : (encodeAll is).length + 3 ≤ 65535) :
    loopOver is = some (.loop (codeSize is + 3)) := by
  unfold loopOver
  exact if_neg (by unfold codeSize; omega)

theorem codeSize_conditionCode (d d' : ℕ) (condition : Option (List Instr)) :
    codeSize (conditionCode d condition) = codeSize (conditionCode d' condition) := by
  cases condition <;> simp [conditionCode, codeSize, Instr.encode, shortBytes]

theorem codeSize_append (is js : List Instr) : codeSize (is ++ js) = codeSize is + codeSize js := by
  simp [codeSize]

theorem forCondition_step {f : State N → Option (State N)}
    {g : Cursor → Option (Expr N × Cursor)} (hf : ExprSpec f g) {s s' : State N}
    {exitJump : Option ℕ} (h : forCondition f s = some (exitJump, s')) :
    Step s s' (∃ condition code,
      Pratt.forClause g .semicolon s.cursor = some (condition, s'.cursor) ∧
      genClause condition s.ctx = some (code, s'.ctx) ∧
      s'.chunks = appendHead (encodeAll (conditionCode 65535 code)) s.chunks ∧
      exitJump = code.map (fun is => s.count + codeSize is + 1)) := by
  unfold forCondition at h
  split at h
  · rename_i hsemi
    obtain ⟨rfl, rfl⟩ := Prod.mk.inj (Option.some.inj h)
    refine (advance_step s).imp fun hadv => ⟨none, none, ?_, rfl, by simp [conditionCode], rfl⟩
    rw [← check_cursor] at hsemi
    simp [Pratt.forClause, hsemi, hadv]
  · rename_i hsemi
    simp only [Option.bind_eq_bind, Option.bind_eq_some_iff] at h
    obtain ⟨s₁, h₁, h⟩ := h
    rcases h₂ : (s₁.consume .semicolon "Expect ';' after loop condition.").emitJump .jumpIfFalse
      with ⟨exit, s₂⟩
    simp only [h₂] at h
    obtain ⟨rfl, rfl⟩ := Prod.mk.inj (Option.some.inj h)
    rw [emitByte_eq]
    refine Step.of_sound fun hlen => ?_
    refine (((hf _ _ h₁).trans (consume_step _ _ _)).trans ((emitJump_step _ h₂).trans
      (emit_step _ _))).imp ?_
    rintro ⟨⟨⟨e, is, he, hg, hch⟩, hcon⟩, ⟨hexit, rfl, -⟩, -⟩
    refine ⟨some e, some is, ?_, ?_, ?_, ?_⟩
    · rw [← check_cursor] at hsemi
      simp [Pratt.forClause, hsemi, he, hcon]
    · simp [genClause, hg]
    · simp [hch, conditionCode, Instr.encode, shortBytes]
    · rw [hexit, count_of_appendHead (b := encodeAll is) hlen (by simpa using hch)]
      rfl

theorem forIncrement_step_true {f : State N → Option (State N)}
    {g : Cursor → Option (Expr N × Cursor)} (hf : ExprSpec f g) {s s' : State N}
    {loopStart bodyStart : ℕ} (h : forIncrement f loopStart s = some (bodyStart, s')) :
    Step s s' True := by
  unfold forIncrement at h
  split at h
  · obtain ⟨-, rfl⟩ := Prod.mk.inj (Option.some.inj h)
    exact (advance_step s).imp fun _ => trivial
  · rcases h₁ : s.emitJump .jump with ⟨bodyJump, s₁⟩
    simp only [h₁, Option.bind_eq_bind, Option.bind_eq_some_iff] at h
    obtain ⟨s₂, h₂, h⟩ := h
    obtain ⟨-, rfl⟩ := Prod.mk.inj (Option.some.inj h)
    rw [emitByte_eq]
    exact ((emitJump_step _ h₁).trans ((hf _ _ h₂).trans ((emit_step _ _).trans
      ((consume_step _ _ _).trans ((emitLoop_step_true _ _).trans
        (patchJump_step_true _ _)))))).imp fun _ => trivial

theorem forIncrement_step {f : State N → Option (State N)}
    {g : Cursor → Option (Expr N × Cursor)} (hf : ExprSpec f g) {s s₀ s' : State N}
    {head : List Instr} {bodyStart : ℕ} (h₀ : 0 < s₀.chunks.length)
    (hhead : s.chunks = appendHead (encodeAll head) s₀.chunks)
    (h : forIncrement f s₀.count s = some (bodyStart, s')) :
    Step s s' (∃ increment code step,
      Pratt.forClause g .rightParen s.cursor = some (increment, s'.cursor) ∧
      genClause increment s.ctx = some (code, s'.ctx) ∧
      incrementCode head code = some step ∧
      s'.chunks = appendHead (encodeAll step) s.chunks ∧
      bodyStart = if step = [] then s₀.count else s₀.count + codeSize head + 3) := by
  unfold forIncrement at h
  split at h
  · rename_i hparen
    obtain ⟨rfl, rfl⟩ := Prod.mk.inj (Option.some.inj h)
    refine (advance_step s).imp fun hadv => ⟨none, none, [], ?_, rfl, rfl, by simp, by simp⟩
    rw [← check_cursor] at hparen
    simp [Pratt.forClause, hparen, hadv]
  · rename_i hparen
    have hlen : 0 < s.chunks.length := by rw [hhead]; simpa using h₀
    simp only [emitJump_eq _ hlen, Option.bind_eq_bind, Option.bind_eq_some_iff] at h
    obtain ⟨s₂, h₂, h⟩ := h
    obtain ⟨rfl, rfl⟩ := Prod.mk.inj (Option.some.inj h)
    rw [emitByte_eq]
    set s₃ := (s₂.emit [OpCode.pop.byte]).consume .rightParen "Expect ')' after for clauses."
      with hs₃
    have steps := ((emit_step [OpCode.jump.byte, 0xff, 0xff] s).trans (hf _ _ h₂)).trans
      ((emit_step [OpCode.pop.byte] s₂).trans
        (consume_step .rightParen "Expect ')' after for clauses." _))
    refine (steps.bind ((emitLoop_step_true _ _).trans (patchJump_step_true _ _) |>.imp
      fun _ => trivial) ?_).imp And.right
    rintro ⟨⟨-, e, js, he, hg, hch⟩, -, hcon⟩
    rw [← hs₃] at hcon ⊢
    have hbody : s₃.chunks = appendHead (encodeAll (head ++ [.jump 65535] ++ js ++ [.pop]))
        s₀.chunks := by
      simp [hs₃, hch, hhead, Instr.encode, shortBytes]
    refine ((emitLoop_step h₀ hbody).bind (patchJump_step_true _ _) ?_).imp And.right
    rintro ⟨hloop, hcur₄, hctx₄, hch₄⟩
    have hsize : codeSize (head ++ [.jump 65535] ++ js ++ [.pop])
        = codeSize (head ++ [.jump 0] ++ js ++ [.pop]) := by
      simp [codeSize, Instr.encode, shortBytes]
    set d := codeSize (head ++ [.jump 0] ++ js ++ [.pop]) + 3 with hd
    have hagain : loopOver (head ++ [.jump 0] ++ js ++ [.pop]) = some (.loop d) :=
      loopOver_eq (by rw [← codeSize, ← hsize]; exact hloop)
    have hch₅ : (s₃.emitLoop s₀.count).chunks
        = appendHead (OpCode.jump.byte :: 0xff :: 0xff :: encodeAll (js ++ [.pop, .loop d]))
          s.chunks := by
      rw [hch₄, ← codeSize, hsize]
      simp [hhead, Instr.encode, shortBytes, hd]
    refine (patchJump_step hlen hch₅ rfl).imp ?_
    rintro ⟨hpast, hcur, hctx, hch'⟩
    refine ⟨some e, some js, [.jump (codeSize (js ++ [.pop, .loop d]))] ++ js ++ [.pop, .loop d],
      ?_, ?_, ?_, ?_, ?_⟩
    · rw [← check_cursor] at hparen
      simp only [emit_cursor] at he hcon
      simp [Pratt.forClause, hparen, he, hcon, hcur, hcur₄]
    · simp only [emit_ctx] at hg
      have hx₃ : s₃.ctx = s₂.ctx := by simp [hs₃]
      simp [genClause, hg, hctx, hctx₄, hx₃]
    · simp only [incrementCode, hagain, jumpOver_eq hpast, Option.bind_eq_bind, Option.bind_some]
      rfl
    · rw [hch']
      simp [Instr.encode, codeSize]
    · rw [count_of_appendHead hlen (emit_chunks _ _), count_of_appendHead h₀ hhead]
      simp [codeSize]

/-- The end of a loop: the jump back and, if there is a condition, the way out. -/
def loopEnd (bodyStart : ℕ) (exitJump : Option ℕ) (s : State N) : State N :=
  match exitJump with
  | some exitJump => ((s.emitLoop bodyStart).patchJump exitJump).emitByte OpCode.pop.byte
  | none => s.emitLoop bodyStart

theorem loopEnd_step_true (bodyStart : ℕ) (exitJump : Option ℕ) (s : State N) :
    Step s (loopEnd bodyStart exitJump s) True := by
  cases exitJump with
  | none => exact emitLoop_step_true _ s
  | some exitJump =>
    exact ((emitLoop_step_true _ s).trans ((patchJump_step_true _ _).trans (emit_step _ _))).imp
      fun _ => trivial

/-- The increment code is either absent or starts with the three-byte jump into the body. -/
theorem incrementCode_cases {head step : List Instr} {increment : Option (List Instr)}
    (h : incrementCode head increment = some step) :
    step = [] ∨ ∃ d step', step = .jump d :: step' := by
  cases increment with
  | none => exact .inl (Option.some.inj h).symm
  | some js =>
    simp only [incrementCode, jumpOver, Option.bind_eq_bind, Option.bind_eq_some_iff] at h
    obtain ⟨again, -, past, hpast, h⟩ := h
    split at hpast
    · cases hpast
    · obtain rfl := Option.some.inj hpast
      exact .inr ⟨_, _, (Option.some.inj h).symm⟩

theorem codeSize_loopBody (head head' step body : List Instr) (h : codeSize head = codeSize head') :
    codeSize (loopBody head step body) = codeSize (loopBody head' step body) := by
  cases step <;> simp [loopBody, codeSize_append, h]

/-- The jump at the end of a loop goes back over the code of `loopBody`. -/
theorem loopBack_step {s s₀ : State N} {head step body : List Instr}
    {increment : Option (List Instr)} {bodyStart : ℕ} (h₀ : 0 < s₀.chunks.length)
    (hs : s.chunks = appendHead (encodeAll (head ++ step ++ body)) s₀.chunks)
    (hstep : incrementCode head increment = some step)
    (hb : bodyStart = if step = [] then s₀.count else s₀.count + codeSize head + 3) :
    Step s (s.emitLoop bodyStart) (∃ back, loopOver (loopBody head step body) = some back ∧
      (s.emitLoop bodyStart).cursor = s.cursor ∧ (s.emitLoop bodyStart).ctx = s.ctx ∧
      (s.emitLoop bodyStart).chunks
        = appendHead (encodeAll (head ++ step ++ body ++ [back])) s₀.chunks) := by
  obtain rfl | ⟨d, step, rfl⟩ := incrementCode_cases hstep
  · rw [if_pos rfl] at hb
    subst hb
    simp only [List.append_nil] at hs ⊢
    refine (emitLoop_step h₀ hs).imp fun h => ?_
    obtain ⟨hle, hcur, hctx, hch⟩ := h
    refine ⟨_, loopOver_eq hle, hcur, hctx, ?_⟩
    rw [hch]
    simp [codeSize, loopBody]
  · rw [if_neg (by simp)] at hb
    have h₁ : 0 < (s₀.emit (encodeAll (head ++ [.jump d]))).chunks.length := by simpa using h₀
    have hb' : bodyStart = (s₀.emit (encodeAll (head ++ [.jump d]))).count := by
      rw [count_of_appendHead h₀ (emit_chunks _ _), hb]
      simp [codeSize, Instr.encode, shortBytes, Nat.add_assoc]
    subst hb'
    have hs' : s.chunks = appendHead (encodeAll (step ++ body))
        (s₀.emit (encodeAll (head ++ [.jump d]))).chunks := by
      simp [hs]
    refine (emitLoop_step h₁ hs').imp fun h => ?_
    obtain ⟨hle, hcur, hctx, hch⟩ := h
    refine ⟨_, loopOver_eq hle, hcur, hctx, ?_⟩
    rw [hch]
    simp [codeSize, loopBody]

theorem incrementCode_congr {head head' : List Instr} (h : codeSize head = codeSize head')
    (increment : Option (List Instr)) :
    incrementCode head increment = incrementCode head' increment := by
  cases increment with
  | none => rfl
  | some js => simp [incrementCode, loopOver, codeSize_append, h]

theorem loopOver_congr {is js : List Instr} (h : codeSize is = codeSize js) :
    loopOver is = loopOver js := by
  simp [loopOver, h]

theorem loopEnd_step {s s₀ : State N} {condition increment : Option (List Instr)}
    {step body : List Instr} {bodyStart : ℕ} {exitJump : Option ℕ} (h₀ : 0 < s₀.chunks.length)
    (hs : s.chunks
      = appendHead (encodeAll (conditionCode 65535 condition ++ step ++ body)) s₀.chunks)
    (hstep : incrementCode (conditionCode 65535 condition) increment = some step)
    (hb : bodyStart = if step = [] then s₀.count
      else s₀.count + codeSize (conditionCode 65535 condition) + 3)
    (he : exitJump = condition.map fun is => s₀.count + codeSize is + 1) :
    Step s (loopEnd bodyStart exitJump s) (∃ loop, loopCode condition increment body = some loop ∧
      (loopEnd bodyStart exitJump s).cursor = s.cursor ∧
      (loopEnd bodyStart exitJump s).ctx = s.ctx ∧
      (loopEnd bodyStart exitJump s).chunks = appendHead (encodeAll loop) s₀.chunks) := by
  have hsize := codeSize_conditionCode 65535 0 condition
  have back := loopBack_step h₀ hs hstep hb
  simp only [loopOver_congr (codeSize_loopBody _ _ step body hsize)] at back
  rw [incrementCode_congr hsize] at hstep
  cases condition with
  | none =>
    subst he
    refine back.imp ?_
    rintro ⟨back, hback, hcur, hctx, hch⟩
    refine ⟨step ++ body ++ [back], ?_, hcur, hctx, ?_⟩
    · simp [loopCode, hstep, hback]
    · simpa [loopEnd, conditionCode] using hch
  | some is =>
    subst he
    simp only [loopEnd, Option.map_some, emitByte_eq]
    refine ((back.bind (patchJump_step_true _ _) ?_).trans (emit_step _ _)).imp
      fun h => h.1.2
    rintro ⟨back, hback, hcur, hctx, hch⟩
    have hch' : (s.emitLoop bodyStart).chunks = appendHead (OpCode.jumpIfFalse.byte :: 0xff :: 0xff ::
        encodeAll ([.pop] ++ step ++ body ++ [back])) (s₀.emit (encodeAll is)).chunks := by
      rw [hch]
      simp [conditionCode, Instr.encode, shortBytes]
    refine (patchJump_step (by simpa using h₀) hch' ?_).imp ?_
    · rw [count_of_appendHead h₀ (emit_chunks _ _)]
      rfl
    · rintro ⟨hle, hcur', hctx', hch''⟩
      refine ⟨is ++ [.jumpIfFalse (codeSize ([.pop] ++ step ++ body ++ [back])), .pop] ++ step ++
        body ++ [back, .pop], ?_, ?_, ?_, ?_⟩
      · simp only [loopCode, hstep, hback, jumpOver_eq hle, Option.bind_eq_bind, Option.bind_some]
        rfl
      · simp [hcur', hcur]
      · simp [hctx', hctx]
      · rw [emit_chunks, hch'']
        simp [Instr.encode, codeSize]

theorem whileStatement_step {f st : State N → Option (State N)}
    {g : Cursor → Option (Expr N × Cursor)} {gt : Cursor → Option (Stmt N × Cursor)}
    (hf : ExprSpec f g) (ht : StmtSpec st gt) {s s' : State N}
    (h : whileStatement f st s = some s') :
    Step s s' (StmtRead s s' (Pratt.whileStatement g gt s.cursor)) := by
  simp only [whileStatement, Option.bind_eq_bind, Option.bind_eq_some_iff] at h
  obtain ⟨s₂, h₂, h⟩ := h
  rcases h₄ : (s₂.consume .rightParen "Expect ')' after condition.").emitJump .jumpIfFalse
    with ⟨exitJump, s₄⟩
  simp only [h₄] at h
  obtain ⟨s₆, h₆, h⟩ := h
  rw [emitByte_eq] at h₆
  obtain rfl : loopEnd s.count (some exitJump) s₆ = s' := Option.some.inj h
  refine Step.of_sound fun hlen => ?_
  have steps := ((((consume_step _ _ _).trans (hf _ _ h₂)).trans (consume_step _ _ _)).trans
    (emitJump_step _ h₄)).trans ((emit_step _ _).trans (ht _ _ h₆))
  refine (steps.bind (loopEnd_step_true _ _ _) ?_).imp And.right
  rintro ⟨⟨⟨⟨hcon₁, e, is, he, hg, hch₂⟩, hcon₂⟩, hexit, rfl, -⟩, -, t, ts, hrt, hgt, hch₆⟩
  simp only [consume_ctx, consume_chunks, emit_ctx, emit_chunks, emit_cursor] at hg hch₂ hrt hgt hch₆
  have hexit' : exitJump = s.count + codeSize is + 1 := by
    rw [hexit, count_of_appendHead (b := encodeAll is) hlen (by simpa using hch₂)]
    rfl
  have hchunk : s₆.chunks
      = appendHead (encodeAll (conditionCode 65535 (some is) ++ [] ++ ts)) s.chunks := by
    simp [hch₆, hch₂, conditionCode, Instr.encode, shortBytes]
  have hnone : incrementCode (conditionCode 65535 (some is)) none = some [] := rfl
  have hstart : s.count = if ([] : List Instr) = [] then s.count
      else s.count + codeSize (conditionCode 65535 (some is)) + 3 := rfl
  refine (loopEnd_step hlen hchunk hnone hstart (by simp [hexit'])).imp ?_
  rintro ⟨loop, hloop, hcur, hctx, hch⟩
  refine ⟨.while_ e t, loop, ?_, ?_, hch⟩
  · simp [Pratt.whileStatement, hcon₁, he, hcon₂, hrt, hcur]
  · simp [genStmt, hg, hgt, hloop, hctx]

theorem forInitializer_step {f : State N → Option (State N)}
    {g : Cursor → Option (Expr N × Cursor)} (hf : ExprSpec f g) {s s' : State N}
    (h : forInitializer f s = some s') :
    Step s s' (∃ init is, Pratt.forInitializer g s.cursor = some (init, s'.cursor) ∧
      genForInit init s.ctx = some (is, s'.ctx) ∧
      s'.chunks = appendHead (encodeAll is) s.chunks) := by
  unfold forInitializer at h
  unfold Pratt.forInitializer
  split at h
  · rename_i hsemi
    rw [← check_cursor] at hsemi
    obtain rfl := Option.some.inj h
    refine (advance_step s).imp fun hadv => ⟨.empty, [], ?_, by simp [genForInit], by simp⟩
    simp [hsemi, hadv]
  · rename_i hsemi
    rw [← check_cursor] at hsemi
    rw [if_neg hsemi]
    split at h
    · rename_i hvar
      rw [← check_cursor] at hvar
      refine ((advance_step s).trans (varDeclaration_step hf h)).imp ?_
      rintro ⟨hadv, name, init, is, hv, hg, hch⟩
      refine ⟨.var name init, is, ?_, by simpa [genForInit] using hg, by simpa using hch⟩
      simp [hvar, hadv, hv]
    · rename_i hvar
      rw [← check_cursor] at hvar
      rw [if_neg hvar]
      refine (expressionStatement_step hf h).imp ?_
      rintro ⟨e, is, he, hg, hch⟩
      exact ⟨.expression e, is ++ [.pop], by simp [he], by simp [genForInit, hg], hch⟩

theorem forStatement_step {f st : State N → Option (State N)}
    {g : Cursor → Option (Expr N × Cursor)} {gt : Cursor → Option (Stmt N × Cursor)}
    (hf : ExprSpec f g) (ht : StmtSpec st gt) {s s' : State N}
    (h : forStatement f st s = some s') :
    Step s s' (StmtRead s s' (Pratt.forStatement g gt s.cursor)) := by
  simp only [forStatement, Option.bind_eq_bind, Option.bind_eq_some_iff, Prod.exists] at h
  obtain ⟨s₂, h₂, exitJump, s₃, h₃, bodyStart, s₄, h₄, s₅, h₅, h⟩ := h
  obtain rfl : (loopEnd bodyStart exitJump s₅).endScope = s' := Option.some.inj h
  have steps := (((beginScope_step s).trans (consume_step _ _ _)).trans
    (forInitializer_step hf h₂)).trans (forCondition_step hf h₃)
  have rest := (forIncrement_step_true hf h₄).trans ((ht _ _ h₅).trans
    ((loopEnd_step_true bodyStart exitJump s₅).trans (endScope_step _)))
  refine Step.of_sound fun hlen => (steps.bind (rest.imp fun _ => trivial) ?_).imp And.right
  rintro ⟨⟨⟨⟨hbegin, hcur₀, hch₀⟩, hcon⟩, init, is, hinit, hgi, hch₂⟩,
    condition, code, hcond, hgc, hch₃, rfl⟩
  simp only [encodeAll_nil, appendHead_nil] at hch₀
  rw [consume_ctx, hbegin] at hgi
  rw [consume_chunks, hch₀] at hch₂
  have hlen₂ : 0 < s₂.chunks.length := by rw [hch₂]; simpa using hlen
  have steps := (forIncrement_step hf hlen₂ hch₃ h₄).trans (ht _ _ h₅)
  refine (steps.bind (((loopEnd_step_true _ _ s₅).trans (endScope_step _)).imp
    fun _ => trivial) ?_).imp And.right
  rintro ⟨⟨increment, code', step, hincr, hgi', hstep, hch₄, hb⟩, t, ts, hrt, hgt, hch₅⟩
  have hchunk : s₅.chunks
      = appendHead (encodeAll (conditionCode 65535 code ++ step ++ ts)) s₂.chunks := by
    simp [hch₅, hch₄, hch₃]
  refine ((loopEnd_step hlen₂ hchunk hstep hb rfl).trans (endScope_step _)).imp ?_
  · rintro ⟨⟨loop, hloop, hcur, hctx, hch⟩, hctx', hcur', hch'⟩
    refine ⟨.for_ init condition increment t, is ++ loop ++ s₅.ctx.endScope.1, ?_, ?_, ?_⟩
    · rw [hcur₀] at hcon
      simp [Pratt.forStatement, hcon, hinit, hcond, hincr, hrt, hcur', hcur]
    · simp [genStmt, hgi, hgc, hgi', hgt, hloop, hctx', hctx]
    · simp [hch', hch, hch₂, hctx]

end Lox.Clox
