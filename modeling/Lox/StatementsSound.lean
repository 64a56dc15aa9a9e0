import Lox.Statements
import Lox.Jlox.ParserSound

/-!
# What the statement parser of jlox returns

If no error is reported, the tokens a statement was read from derive it, and a statement that ends
in an `if` without `else` is not followed by `else`.
-/

namespace Lox.Jlox

open Jlox.Parser

variable {N : Type}

/-- The function returns a statement. -/
def ParsesStatement (f : Parse N (Stmt N Unit)) : Prop :=
  Parses f fun used s rest => ∃ s' : Clox.Stmt N, s'.IsStatement ∧ s'.Derives s used ∧
    (s'.endsOpen → NextNot [.else_] rest)

/-- The function returns a declaration. -/
def ParsesDeclaration (f : Parse N (Stmt N Unit)) : Prop :=
  Parses f fun used s _ => ∃ s' : Clox.Stmt N, s'.Declares (s'.Derives s) used

/-! ### Blocks and functions -/

section Declarations

variable {declaration : Parse N (Stmt N Unit)} (hd : ParsesDeclaration declaration)

include hd

theorem blockLoop_parses (n : ℕ) :
    Parses (blockLoop declaration n) fun used ss _ => ∃ ss', Clox.Stmt.DerivesList ss' ss used := by
  induction n with
  | zero => exact .stuck
  | succ n ih =>
    unfold blockLoop
    refine .bind (check_parses .rightBrace (by decide)) fun a => .bind isAtEnd_parses fun b =>
      .ite (fun _ => .pure ?_) fun _ => ?_
    · rintro rest u ⟨rfl, -⟩ v ⟨rfl, -⟩
      exact ⟨[], rfl, rfl⟩
    · refine .bind hd fun s => .bind ih fun ss => .pure ?_
      rintro rest v ⟨ss', hss⟩ u ⟨s', hs⟩ w ⟨rfl, -⟩ x ⟨rfl, -⟩
      exact ⟨s' :: ss', s, ss, u, v, rfl, by simp, hs, hss⟩

theorem block_parses (n : ℕ) :
    Parses (block declaration n) fun used ss _ => ∃ ss' v closing, used = v ++ [closing] ∧
      closing.type = .rightBrace ∧ Clox.Stmt.DerivesList ss' ss v := by
  refine .bind (blockLoop_parses hd n) fun ss => .consuming (by decide) fun closing => .pure ?_
  rintro rest hclosing v ⟨ss', hss⟩
  exact ⟨ss', v, closing, rfl, hclosing, hss⟩

omit hd in
/-- The parameters of a function: at most 255, with those before them. -/
theorem parameterLoop_parses (n : ℕ) : ∀ size,
    Parses (parameterLoop n size : Parse N (List (Token N))) fun used params _ =>
      size + params.length ≤ 255 ∧ params ≠ [] ∧ SpellsParams params used := by
  induction n with
  | zero => exact fun size => .stuck
  | succ n ih =>
    intro size
    unfold parameterLoop
    refine .ite (fun hsize => ?_) fun hsize => ?_
    · refine .bind peek_parses fun t => .bind (.error t _) fun _ => ?_
      refine .consuming (by decide) fun p => .matching (by decide) (fun comma =>
        .bind (ih (size + 1)) fun ps => .pure fun rest v _ _ _ w hfalse => ?_)
        (.pure fun rest _ _ w hfalse => ?_)
      · exact False.elim hfalse
      · exact False.elim hfalse
    · refine .consuming (by decide) fun p => .matching (by decide) (fun comma => ?_)
        (.imp (.pure ?_))
      · refine .bind (ih (size + 1)) fun ps => .pure ?_
        rintro rest v ⟨hle, hne, hspells⟩ hcomma hp
        refine ⟨by simp only [List.length_cons]; omega, by simp, ?_⟩
        obtain ⟨q, qs, rfl⟩ := List.exists_cons_of_ne_nil hne
        exact ⟨comma, v, by simp, hp, List.mem_singleton.1 hcomma, hspells⟩
      · intro rest hp
        exact ⟨by simp only [List.length_singleton]; omega, by simp, rfl, hp⟩

theorem function_parses (kind : String) (n : ℕ) :
    Parses (function declaration kind n) fun used s _ => ∃ name params body,
      (Clox.Stmt.function name params body).Derives s used := by
  unfold function
  refine .consuming (by decide) fun t => .consuming (by decide) fun opening =>
    .ifCheck (by decide) (.imp ?_) (.imp ?_)
  · refine .consuming (by decide) fun closing => .consuming (by decide) fun left =>
      .bind (block_parses hd n) fun body => .pure ?_
    rintro rest _ ⟨body', v, right, rfl, hright, hbody⟩ hleft hclosing hopening ht
    exact ⟨t.lexeme, [], body', t, [], body, opening, [], closing, left, v, right, rfl, by simp, ht,
      rfl, hopening, hclosing, hleft, hright, rfl, by simp, rfl, hbody⟩
  · refine .bind (parameterLoop_parses n 0) fun params => .consuming (by decide) fun closing =>
      .consuming (by decide) fun left => .bind (block_parses hd n) fun body => .pure ?_
    rintro rest _ ⟨body', v, right, rfl, hright, hbody⟩ hleft hclosing u ⟨hle, -, hparams⟩ hopening
      ht
    exact ⟨t.lexeme, _, body', t, params, body, opening, u, closing, left, v, right, rfl, by simp,
      ht, rfl, hopening, hclosing, hleft, hright, rfl, by omega, hparams, hbody⟩

theorem methodLoop_parses (n : ℕ) :
    Parses (methodLoop declaration n) fun used ss _ =>
      ∃ ss', Clox.Stmt.DerivesMethods ss' ss used := by
  induction n with
  | zero => exact .stuck
  | succ n ih =>
    unfold methodLoop
    refine .bind (check_parses .rightBrace (by decide)) fun a => .bind isAtEnd_parses fun b =>
      .ite (fun _ => .pure ?_) fun _ => ?_
    · rintro rest u ⟨rfl, -⟩ v ⟨rfl, -⟩
      exact ⟨[], rfl, rfl⟩
    · refine .bind (function_parses hd "method" n) fun s => .bind ih fun ss => .pure ?_
      rintro rest v ⟨ss', hss⟩ u ⟨name, params, body, hs⟩ w ⟨rfl, -⟩ x ⟨rfl, -⟩
      exact ⟨.function name params body :: ss', ⟨name, params, body, rfl⟩, s, ss, u, v, rfl,
        by simp, hs, hss⟩

theorem classDeclaration_parses (n : ℕ) :
    Parses (classDeclaration declaration n) fun used s _ => ∀ keyword : Token N,
      keyword.type = .class_ → ∃ name superclass methods,
        (Clox.Stmt.class_ name superclass methods).Derives s (keyword :: used) := by
  unfold classDeclaration
  refine .consuming (by decide) fun t => .ifMatch (by decide) (fun less => ?_) (.imp ?_)
  · refine .consuming (by decide) fun superclass => .consuming (by decide) fun opening =>
      .bind (methodLoop_parses hd n) fun methods => .consuming (by decide) fun closing => .pure ?_
    rintro rest hclosing v ⟨methods', hmethods⟩ hopening hsuperclass hless ht keyword hkeyword
    exact ⟨t.lexeme, some superclass.lexeme, methods', keyword, t, some (superclass, ()), methods,
      [less, superclass], opening, v, closing, rfl, by simp, hkeyword, ht, rfl, hopening, hclosing,
      ⟨less, superclass, rfl, rfl, List.mem_singleton.1 hless, hsuperclass, rfl⟩, hmethods⟩
  · refine .consuming (by decide) fun opening => .bind (methodLoop_parses hd n) fun methods =>
      .consuming (by decide) fun closing => .pure ?_
    rintro rest hclosing v ⟨methods', hmethods⟩ hopening ht keyword hkeyword
    exact ⟨t.lexeme, none, methods', keyword, t, none, methods, [], opening, v, closing, rfl,
      by simp, hkeyword, ht, rfl, hopening, hclosing, ⟨rfl, rfl⟩, hmethods⟩

end Declarations

/-! ### Statements -/

section Statements

variable {expression : Parse N (Expr N Unit)} (h : ParsesAt 1 expression)

include h

theorem varDeclaration_parses :
    Parses (varDeclaration expression) fun used s _ => ∃ name init, DerivesVar name init s used := by
  unfold varDeclaration
  refine .consuming (by decide) fun t => .ifMatch (by decide) (fun equals => ?_) (.imp ?_)
  · refine .bind h fun e => .consuming (by decide) fun semicolon => .pure ?_
    rintro rest hsemicolon v ⟨⟨he, hfits⟩, -⟩ hequals ht
    exact ⟨t.lexeme, some e.toClox, t, some e, equals :: v, semicolon, rfl, rfl, ht, rfl,
      hsemicolon, e, equals, v, rfl, rfl, List.mem_singleton.1 hequals, rfl, he, hfits⟩
  · refine .consuming (by decide) fun semicolon => .pure ?_
    intro rest hsemicolon ht
    exact ⟨t.lexeme, none, t, none, [], semicolon, rfl, rfl, ht, rfl, hsemicolon, rfl, rfl⟩

theorem expressionStatement_parses :
    Parses (expressionStatement expression) fun used s _ => ∃ e v semicolon,
      s = .expression e ∧ used = v ++ [semicolon] ∧ semicolon.type = .semicolon ∧
      DerivesExpr e.toClox e v := by
  refine .bind h fun e => .consuming (by decide) fun semicolon => .pure ?_
  rintro rest hsemicolon v ⟨⟨he, hfits⟩, -⟩
  exact ⟨e, v, semicolon, rfl, rfl, hsemicolon, rfl, he, hfits⟩

theorem optionalExpression_parses (close : TokenType) (hclose : close ≠ .eof) :
    Parses (optionalExpression expression close) fun used o _ => ∃ o',
      DerivesOption o' o used := by
  unfold optionalExpression
  refine .ifCheck hclose (.imp (.pure fun rest => ⟨none, rfl, rfl⟩)) (.imp ?_)
  refine .bind h fun e => .pure ?_
  rintro rest v ⟨⟨he, hfits⟩, -⟩
  rw [List.append_nil]
  exact ⟨some e.toClox, e, rfl, rfl, he, hfits⟩

theorem printStatement_parses :
    Parses (printStatement expression) fun used s _ => ∀ keyword : Token N,
      keyword.type = .print_ → ∃ e', (Clox.Stmt.print e').Derives s (keyword :: used) := by
  refine .bind h fun e => .consuming (by decide) fun semicolon => .pure ?_
  rintro rest hsemicolon v ⟨⟨he, hfits⟩, -⟩ keyword hkeyword
  exact ⟨e.toClox, e, keyword, v, semicolon, rfl, rfl, hkeyword, hsemicolon, rfl, he, hfits⟩

theorem returnStatement_parses (keyword : Token N) :
    Parses (returnStatement expression keyword) fun used s _ =>
      keyword.type = .return_ → ∃ o', (Clox.Stmt.return_ o').Derives s (keyword :: used) := by
  unfold returnStatement
  refine .bind (optionalExpression_parses h .semicolon (by decide)) fun o =>
    .consuming (by decide) fun semicolon => .pure ?_
  rintro rest hsemicolon v ⟨o', ho⟩ hkeyword
  exact ⟨o', o, keyword, v, semicolon, rfl, rfl, hkeyword, hsemicolon, ho⟩

theorem forInitializer_parses :
    Parses (forInitializer expression) fun used o _ => ∃ init, DerivesForInit init o used := by
  unfold forInitializer
  refine .ifMatch (by decide) (fun semicolon => .pure fun rest hsemicolon => ?_) (.imp ?_)
  · exact ⟨.empty, rfl, semicolon, rfl, List.mem_singleton.1 hsemicolon⟩
  refine .ifMatch (by decide) (fun keyword => ?_) (.imp ?_)
  · refine .bind (varDeclaration_parses h) fun s => .pure ?_
    rintro rest v ⟨name, init, hs⟩ hkeyword
    exact ⟨.var name init, s, keyword, v, rfl, by simp, List.mem_singleton.1 hkeyword, hs⟩
  · refine .bind (expressionStatement_parses h) fun s => .pure ?_
    rintro rest _ ⟨e, v, semicolon, rfl, rfl, hsemicolon, he⟩
    exact ⟨.expression e.toClox, e, v, semicolon, rfl, by simp, hsemicolon, he⟩

variable {statement : Parse N (Stmt N Unit)} (hs : ParsesStatement statement)

include hs

theorem ifStatement_parses :
    Parses (ifStatement expression statement) fun used s rest => ∀ keyword : Token N,
      keyword.type = .if_ → ∃ c t e, (Clox.Stmt.if_ c t e).Derives s (keyword :: used) ∧
        ((Clox.Stmt.if_ c t e).endsOpen → NextNot [.else_] rest) := by
  unfold ifStatement
  refine .consuming (by decide) fun opening => .bind h fun condition =>
    .consuming (by decide) fun closing => .bind hs fun thenBranch =>
    .ifMatch (by decide) (fun else_ => ?_) (.pure ?_)
  · refine .bind hs fun elseBranch => .pure ?_
    rintro rest w ⟨elseBranch', helse, hw, hopen⟩ helse_ v ⟨thenBranch', hthen, hv, hclosed⟩ hclosing
      u ⟨⟨hcondition, hfits⟩, -⟩ hopening keyword hkeyword
    have helse_ := List.mem_singleton.1 helse_
    have hnot : ¬ thenBranch'.endsOpen = true := fun hends =>
      hclosed hends else_ (by simp) (by simp [helse_])
    refine ⟨condition.toClox, thenBranch', some elseBranch', ⟨condition, thenBranch, elseBranch,
      keyword, opening, u, closing, v, else_, w, rfl, by simp, hkeyword, hopening, hclosing, helse_,
      ⟨rfl, hcondition, hfits⟩, ⟨hthen, hnot, hv⟩, helse, hw⟩, ?_⟩
    simpa [Clox.Stmt.endsOpen] using hopen
  · rintro rest hnot v ⟨thenBranch', hthen, hv, -⟩ hclosing u ⟨⟨hcondition, hfits⟩, -⟩ hopening
      keyword hkeyword
    refine ⟨condition.toClox, thenBranch', none, ⟨condition, thenBranch, keyword, opening, u,
      closing, v, rfl, by simp, hkeyword, hopening, hclosing, ⟨rfl, hcondition, hfits⟩, hthen, hv⟩,
      fun _ => by simpa using hnot⟩

theorem whileStatement_parses :
    Parses (whileStatement expression statement) fun used s rest => ∀ keyword : Token N,
      keyword.type = .while_ → ∃ c b, (Clox.Stmt.while_ c b).Derives s (keyword :: used) ∧
        ((Clox.Stmt.while_ c b).endsOpen → NextNot [.else_] rest) := by
  unfold whileStatement
  refine .consuming (by decide) fun opening => .bind h fun condition =>
    .consuming (by decide) fun closing => .bind hs fun body => .pure ?_
  rintro rest v ⟨body', hbody, hv, hopen⟩ hclosing u ⟨⟨hcondition, hfits⟩, -⟩ hopening keyword
    hkeyword
  refine ⟨condition.toClox, body', ⟨condition, body, keyword, opening, u, closing, v, rfl, by simp,
    hkeyword, hopening, hclosing, ⟨rfl, hcondition, hfits⟩, hbody, hv⟩, ?_⟩
  simpa [Clox.Stmt.endsOpen] using hopen

theorem forStatement_parses :
    Parses (forStatement expression statement) fun used s rest => ∀ keyword : Token N,
      keyword.type = .for_ → ∃ i c j b, (Clox.Stmt.for_ i c j b).Derives s (keyword :: used) ∧
        ((Clox.Stmt.for_ i c j b).endsOpen → NextNot [.else_] rest) := by
  unfold forStatement
  refine .consuming (by decide) fun opening => .bind (forInitializer_parses h) fun init =>
    .bind (optionalExpression_parses h .semicolon (by decide)) fun condition =>
    .consuming (by decide) fun semicolon =>
    .bind (optionalExpression_parses h .rightParen (by decide)) fun increment =>
    .consuming (by decide) fun closing => .bind hs fun body => .pure ?_
  rintro rest w ⟨body', hbody, hw, hopen⟩ hclosing v ⟨increment', hincrement⟩ hsemicolon u
    ⟨condition', hcondition⟩ a ⟨init', hinit⟩ hopening keyword hkeyword
  refine ⟨init', condition', increment', body', ⟨init, condition, increment, body, keyword, opening,
    a, u, semicolon, v, closing, w, rfl, by simp, hkeyword, hopening, hsemicolon, hclosing, hinit,
    hcondition, hincrement, hbody, hw⟩, ?_⟩
  simpa [Clox.Stmt.endsOpen] using hopen

variable {declaration : Parse N (Stmt N Unit)} (hd : ParsesDeclaration declaration)

include hd

theorem statementBody_parses (n : ℕ) :
    ParsesStatement (statementBody expression statement declaration n) := by
  unfold statementBody
  refine .ifMatch (by decide) (fun keyword => ?_) (.imp ?_)
  · refine (forStatement_parses h hs).mono ?_
    intro used s rest hfor hkeyword
    obtain ⟨i, c, j, b, hderives, hopen⟩ := hfor keyword (List.mem_singleton.1 hkeyword)
    exact ⟨_, rfl, hderives, hopen⟩
  refine .ifMatch (by decide) (fun keyword => ?_) (.imp ?_)
  · refine (ifStatement_parses h hs).mono ?_
    intro used s rest hif hkeyword
    obtain ⟨c, t, e, hderives, hopen⟩ := hif keyword (List.mem_singleton.1 hkeyword)
    exact ⟨_, rfl, hderives, hopen⟩
  refine .ifMatch (by decide) (fun keyword => ?_) (.imp ?_)
  · refine (printStatement_parses h).mono ?_
    intro used s rest hprint hkeyword
    obtain ⟨e, hderives⟩ := hprint keyword (List.mem_singleton.1 hkeyword)
    exact ⟨_, rfl, hderives, by simp [Clox.Stmt.endsOpen]⟩
  refine .matching (by decide) (fun keyword => ?_) (.imp ?_)
  · refine (returnStatement_parses h keyword).mono ?_
    intro used s rest hreturn hkeyword
    obtain ⟨o, hderives⟩ := hreturn (List.mem_singleton.1 hkeyword)
    exact ⟨_, rfl, hderives, by simp [Clox.Stmt.endsOpen]⟩
  refine .ifMatch (by decide) (fun keyword => ?_) (.imp ?_)
  · refine (whileStatement_parses h hs).mono ?_
    intro used s rest hwhile hkeyword
    obtain ⟨c, b, hderives, hopen⟩ := hwhile keyword (List.mem_singleton.1 hkeyword)
    exact ⟨_, rfl, hderives, hopen⟩
  refine .ifMatch (by decide) (fun opening => ?_) (.imp ?_)
  · refine .bind (block_parses hd n) fun ss => .pure ?_
    rintro rest _ ⟨ss', v, closing, rfl, hclosing, hss⟩ hopening
    exact ⟨.block ss', rfl, ⟨ss, opening, v, closing, rfl, by simp, List.mem_singleton.1 hopening,
      hclosing, hss⟩, by simp [Clox.Stmt.endsOpen]⟩
  · refine (expressionStatement_parses h).mono ?_
    rintro used s rest ⟨e, v, semicolon, rfl, rfl, hsemicolon, he⟩
    exact ⟨.expression e.toClox, rfl, ⟨e, v, semicolon, rfl, rfl, hsemicolon, he⟩,
      by simp [Clox.Stmt.endsOpen]⟩

theorem declarationBody_parses (n : ℕ) :
    ParsesDeclaration (declarationBody expression statement declaration n) := by
  unfold declarationBody
  refine .ifMatch (by decide) (fun keyword => ?_) (.imp ?_)
  · refine (classDeclaration_parses hd n).mono ?_
    intro used s rest hclass hkeyword
    obtain ⟨name, superclass, methods, hderives⟩ := hclass keyword (List.mem_singleton.1 hkeyword)
    exact ⟨.class_ name superclass methods, hderives⟩
  refine .ifMatch (by decide) (fun keyword => ?_) (.imp ?_)
  · refine (function_parses hd "function" n).mono ?_
    rintro used s rest ⟨name, params, body, hderives⟩ hkeyword
    exact ⟨.function name params body, keyword, used, rfl, List.mem_singleton.1 hkeyword, hderives⟩
  refine .ifMatch (by decide) (fun keyword => ?_) (.imp ?_)
  · refine (varDeclaration_parses h).mono ?_
    rintro used s rest ⟨name, init, hvar⟩ hkeyword
    exact ⟨.var name init, keyword, used, rfl, List.mem_singleton.1 hkeyword, hvar⟩
  · refine hs.mono ?_
    rintro used s rest ⟨s', hstatement, hderives, -⟩
    refine ⟨s', ?_⟩
    cases s' <;> first | exact hderives | cases hstatement

end Statements

/-! ### Recovery -/

theorem previous_parses :
    Parses (previous : Parse N (Token N)) fun _ _ _ => True := by
  intro p
  unfold previous
  cases p.before with
  | nil => trivial
  | cons t _ => exact ⟨le_refl _, fun _ => ⟨[], rfl, trivial⟩⟩

theorem synchronizeLoop_parses (n : ℕ) :
    Parses (synchronizeLoop n : Parse N Unit) fun _ _ _ => True := by
  induction n with
  | zero => exact .stuck
  | succ n ih =>
    unfold synchronizeLoop
    refine .bind isAtEnd_parses fun b => .ite (fun _ => .pure fun _ _ _ => trivial) fun _ => ?_
    refine .bind previous_parses fun t => .ite (fun _ => .pure fun _ _ _ _ _ => trivial) fun _ => ?_
    exact .bind advance_parses fun t => ih.mono fun _ _ _ _ _ _ _ _ _ _ => trivial

theorem synchronize_parses (n : ℕ) :
    Parses (synchronize n : Parse N Unit) fun _ _ _ => True :=
  .bind advance_parses fun _ => (synchronizeLoop_parses n).mono fun _ _ _ _ _ _ => trivial

/-- After an exception there has been an error, so nothing is claimed. -/
theorem recover_parses {body : Parse N (Stmt N Unit)} (hbody : ParsesDeclaration body) (n : ℕ) :
    ParsesDeclaration (recover body n) := by
  intro p
  have hp := hbody p
  unfold recover
  cases hfp : body p with
  | ok s q =>
    rw [hfp] at hp
    exact hp
  | stuck => trivial
  | thrown q =>
    rw [hfp] at hp
    have hsynchronize : Parses (do synchronize n; return .null : Parse N (Stmt N Unit))
        fun _ _ _ => True :=
      .bind (synchronize_parses n) fun _ => .pure fun _ _ _ => trivial
    have hq := hsynchronize q
    simp only
    split at hq
    · refine ⟨hp.le.trans hq.1, fun heq => ?_⟩
      have hle := hq.1
      omega
    · exact hp.trans hq
    · trivial

theorem statement_declaration_parses (n : ℕ) :
    ParsesStatement (statement n : Parse N (Stmt N Unit)) ∧
      ParsesDeclaration (declaration n : Parse N (Stmt N Unit)) := by
  induction n with
  | zero => exact ⟨.stuck, .stuck⟩
  | succ n ih =>
    obtain ⟨hs, hd⟩ := ih
    exact ⟨statementBody_parses (expression_parses n) hs hd n,
      recover_parses (declarationBody_parses (expression_parses n) hs hd n) n⟩

theorem parseLoop_parses (n : ℕ) :
    Parses (parseLoop n : Parse N (List (Stmt N Unit))) fun used ss rest =>
      (∃ ss', Clox.Stmt.DerivesList ss' ss used) ∧ ∃ t, rest.head? = some t ∧ t.type = .eof := by
  induction n with
  | zero => exact .stuck
  | succ n ih =>
    unfold parseLoop
    refine .bind isAtEnd_parses fun b => .ite (fun hb => .pure ?_) fun _ => ?_
    · rintro rest u ⟨rfl, hend⟩
      exact ⟨⟨[], rfl, rfl⟩, hend.1 hb⟩
    · refine .bind (statement_declaration_parses n).2 fun s => .bind ih fun ss => .pure ?_
      rintro rest v ⟨⟨ss', hss⟩, hend⟩ u ⟨s', hs⟩ w ⟨rfl, -⟩
      exact ⟨⟨s' :: ss', s, ss, u, v, rfl, by simp, hs, hss⟩, hend⟩

end Lox.Jlox
