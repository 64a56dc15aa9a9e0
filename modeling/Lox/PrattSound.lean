import Lox.ToClox

/-!
# What the Pratt parser of clox returns

If `parsePrecedence` returns a tree, then the tokens it has read are spelled by an expression of
the grammar, of the level that was asked for, and the tree is the one for that expression.  While
the infix loop runs, the left operand is `Settled`: the next token cannot belong to it any more.
-/

namespace Lox

open Clox (Double Cursor Precedence)
open Jlox (Follow NextNot infixLevel)

variable {N : Type} [Double N]

/-- Nothing that follows can become part of the operand but by an operator that takes all of it. -/
def Settled (canAssign : Bool) (e : Jlox.Expr N Unit) (rest : List (Jlox.Token N)) : Prop :=
  match e with
  | .assign _ _ _ | .set _ _ _ => Follow 1 rest
  | .logical _ operator _ => Follow (infixLevel operator.type) rest
  | .binary _ operator _ => Follow (infixLevel operator.type + 1) rest
  | .unary _ _ => Follow 8 rest
  | .get _ _ => NextNot [.leftParen] rest ∧ (canAssign = true → NextNot [.equal] rest)
  | .super_ _ _ _ => NextNot [.leftParen] rest
  | .variable_ _ _ => canAssign = true → NextNot [.equal] rest
  | .call _ _ _ | .grouping _ | .literal _ | .this_ _ _ => True

/-- What a function of the parser returns, with the tokens it reads and those that are left. -/
def Reads {α : Type} (f : Cursor → Option (α × Cursor))
    (R : List (Jlox.Token N) → α → List (Jlox.Token N) → Prop) : Prop :=
  ∀ c ts a c', Stream c ts → f c = some (a, c') →
    ∃ used rest, ts = used ++ rest ∧ Stream c' rest ∧ R used a rest

/-- The function reads an expression of the level, and all that belongs to it. -/
def ReadsAt (level : ℕ) (f : Cursor → Option (Clox.Expr N × Cursor)) : Prop :=
  Reads f fun used e' rest => ∃ e : Jlox.Expr N Unit, e.toClox = e' ∧ e.Derives level used ∧
    Follow level rest

/-! ### Tokens -/

section Tokens

variable {c c' : Cursor} {ts : List (Jlox.Token N)}

theorem Stream.of_advance {t : Jlox.Token N} (h : Stream c (t :: ts)) (ht : t.type ≠ .eof)
    (hc : Clox.Pratt.advance c = some c') : Stream c' ts ∧ Matches c'.previous t := by
  refine ⟨h.step ht hc, ?_⟩
  rw [advance_previous hc]
  exact h.current

theorem Stream.of_check (h : Stream c ts) (type : Jlox.TokenType)
    (hcheck : Clox.Pratt.check type.toClox c = true) :
    ∃ t rest, ts = t :: rest ∧ t.type = type := by
  obtain ⟨t, rest, rfl⟩ := h.exists_cons
  rw [h.check type, decide_eq_true_eq] at hcheck
  exact ⟨t, rest, rfl, hcheck⟩

theorem Stream.of_not_check (h : Stream c ts) (type : Jlox.TokenType)
    (hcheck : ¬ Clox.Pratt.check type.toClox c = true) : NextNot [type] ts := by
  obtain ⟨t, rest, rfl⟩ := h.exists_cons
  rw [h.check type, decide_eq_true_eq] at hcheck
  exact Jlox.nextNot_cons (by simpa using hcheck)

theorem Stream.of_consume (h : Stream c ts) (type : Jlox.TokenType) (htype : type ≠ .eof)
    (hc : Clox.Pratt.consume type.toClox c = some c') :
    ∃ t rest, ts = t :: rest ∧ t.type = type ∧ Stream c' rest ∧ Matches c'.previous t := by
  unfold Clox.Pratt.consume at hc
  split at hc
  · rename_i hcheck
    obtain ⟨t, rest, rfl, ht⟩ := h.of_check type hcheck
    obtain ⟨hstream, hprevious⟩ := h.of_advance (ht ▸ htype) hc
    exact ⟨t, rest, rfl, ht, hstream, hprevious⟩
  · cases hc

end Tokens

/-! ### Arguments -/

section Arguments

variable {expression : Cursor → Option (Clox.Expr N × Cursor)} (h : ReadsAt 1 expression)

include h

theorem argumentLoop_reads (n : ℕ) :
    Reads (Clox.Pratt.argumentLoop expression n) fun used es' _ =>
      ∃ es : List (Jlox.Expr N Unit), Jlox.Expr.toCloxList es = es' ∧ es ≠ [] ∧
        Jlox.Expr.WfList es ∧ Jlox.Expr.SpellsList es used := by
  induction n with
  | zero =>
    intro c ts es' c' _ hf
    cases hf
  | succ n ih =>
    intro c ts es' c' hstream hf
    simp only [Clox.Pratt.argumentLoop, Option.bind_eq_bind, Option.bind_eq_some_iff,
      Prod.exists] at hf
    obtain ⟨e', c₁, he, hf⟩ := hf
    obtain ⟨u, rest, rfl, hstream₁, e, rfl, hderives, -⟩ := h c ts e' c₁ hstream he
    split at hf
    · rename_i hcheck
      obtain ⟨comma, rest, rfl, hcomma⟩ := hstream₁.of_check .comma hcheck
      simp only [Option.bind_eq_some_iff, Prod.exists] at hf
      obtain ⟨c₂, hadvance, es', c₃, hes, hf⟩ := hf
      obtain ⟨rfl, rfl⟩ := Prod.mk.inj (Option.some.inj hf)
      obtain ⟨hstream₂, -⟩ := hstream₁.of_advance (by simp [hcomma]) hadvance
      obtain ⟨v, rest, rfl, hstream₃, es, rfl, hne, hwf, hspells⟩ := ih c₂ _ _ _ hstream₂ hes
      refine ⟨u ++ comma :: v, rest, by simp, hstream₃, e :: es, rfl, by simp,
        ⟨hderives.wf, hwf⟩, ?_⟩
      rw [Jlox.Expr.spellsList_cons hne]
      exact ⟨u, comma, v, rfl, hcomma, hderives.spells, hspells⟩
    · obtain ⟨rfl, rfl⟩ := Prod.mk.inj (Option.some.inj hf)
      refine ⟨u, rest, rfl, hstream₁, [e], rfl, by simp, ⟨hderives.wf, trivial⟩, ?_⟩
      simpa using hderives.spells

theorem argumentList_reads (n : ℕ) :
    Reads (Clox.Pratt.argumentList expression n) fun used es' _ =>
      ∃ (es : List (Jlox.Expr N Unit)) (v : List (Jlox.Token N)) (paren : Jlox.Token N),
        Jlox.Expr.toCloxList es = es' ∧ used = v ++ [paren] ∧ paren.type = .rightParen ∧
        Jlox.Expr.WfList es ∧ Jlox.Expr.SpellsList es v := by
  intro c ts es' c' hstream hf
  simp only [Clox.Pratt.argumentList, Option.bind_eq_bind] at hf
  split at hf
  · simp only [Option.bind_some, Option.bind_eq_some_iff] at hf
    obtain ⟨c₂, hconsume, hf⟩ := hf
    obtain ⟨rfl, rfl⟩ := Prod.mk.inj (Option.some.inj hf)
    obtain ⟨paren, rest, rfl, hparen, hstream', -⟩ :=
      hstream.of_consume .rightParen (by decide) hconsume
    exact ⟨[paren], rest, rfl, hstream', [], [], paren, rfl, rfl, hparen, trivial, by simp⟩
  · simp only [Option.bind_eq_some_iff, Prod.exists] at hf
    obtain ⟨es', c₁, hes, c₂, hconsume, hf⟩ := hf
    obtain ⟨rfl, rfl⟩ := Prod.mk.inj (Option.some.inj hf)
    obtain ⟨v, rest, rfl, hstream₁, es, rfl, -, hwf, hspells⟩ :=
      argumentLoop_reads h n c _ _ _ hstream hes
    obtain ⟨paren, rest, rfl, hparen, hstream', -⟩ :=
      hstream₁.of_consume .rightParen (by decide) hconsume
    exact ⟨v ++ [paren], rest, by simp, hstream', es, v, paren, rfl, rfl, hparen, hwf, hspells⟩

end Arguments

/-! ### Prefix rules -/

/-- What a prefix rule returns after its token: an expression above the binary levels, unless it is
an assignment. -/
def ReadsPrefix (canAssign : Bool) (t : Jlox.Token N)
    (f : Cursor → Option (Clox.Expr N × Cursor)) : Prop :=
  ∀ c ts e' c', Stream c ts → Matches c.previous t → f c = some (e', c') →
    ∃ (e : Jlox.Expr N Unit) (used rest : List (Jlox.Token N)), ts = used ++ rest ∧
      Stream c' rest ∧ e.toClox = e' ∧ e.Wf ∧ e.Spells (t :: used) ∧
      (canAssign = true ∨ 8 ≤ e.level) ∧ Settled canAssign e rest

section Prefix

variable {parse : Clox.Pratt.PrecedenceParser N} {canAssign : Bool} {t : Jlox.Token N}

/-- The parser below reads expressions. -/
def ReadsAll (parse : Clox.Pratt.PrecedenceParser N) : Prop :=
  ∀ p : Precedence, 1 ≤ p.toNat → p.toNat ≤ 8 → ReadsAt p.toNat (parse p)

theorem namedVariable_reads (h : ReadsAll parse) (ht : t.type = .identifier) :
    ReadsPrefix canAssign t fun c =>
      Clox.Pratt.namedVariable (parse .assignment) c.previous canAssign c := by
  intro c ts e' c' hstream hprevious hf
  simp only [Clox.Pratt.namedVariable, Option.bind_eq_bind] at hf
  split at hf
  · rename_i hcheck
    obtain ⟨hcan, hcheck⟩ : canAssign = true ∧ _ := by simpa using hcheck
    obtain ⟨equals, rest, rfl, hequals⟩ := hstream.of_check .equal hcheck
    simp only [Option.bind_eq_some_iff, Prod.exists] at hf
    obtain ⟨c₁, hadvance, value', c₂, hvalue, hf⟩ := hf
    obtain ⟨rfl, rfl⟩ := Prod.mk.inj (Option.some.inj hf)
    obtain ⟨hstream₁, -⟩ := hstream.of_advance (by simp [hequals]) hadvance
    obtain ⟨v, rest, rfl, hstream₂, value, rfl, hderives, hfollow⟩ :=
      h .assignment (by decide) (by decide) _ _ _ _ hstream₁ hvalue
    refine ⟨.assign t value (), equals :: v, rest, rfl, hstream₂, ?_, ⟨ht, hderives.wf⟩,
      ⟨equals, v, rfl, hequals, hderives.spells⟩, .inl hcan, hfollow⟩
    rw [Jlox.Expr.toClox, hprevious.lexeme]
  · rename_i hcheck
    obtain ⟨rfl, rfl⟩ := Prod.mk.inj (Option.some.inj hf)
    refine ⟨.variable_ t (), [], ts, rfl, hstream, ?_, ht, rfl, .inr (by simp [Jlox.Expr.level]),
      fun hcan => hstream.of_not_check .equal fun hc => hcheck ?_⟩
    · rw [Jlox.Expr.toClox, hprevious.lexeme]
    · rw [hcan, Bool.true_and]
      exact hc

theorem super_reads (h : ReadsAll parse) (ht : t.type = .super_) (n : ℕ) :
    ReadsPrefix canAssign t (Clox.Pratt.super_ (parse .assignment) n) := by
  intro c ts e' c' hstream hprevious hf
  simp only [Clox.Pratt.super_, Option.bind_eq_bind, Option.bind_eq_some_iff] at hf
  obtain ⟨c₁, hdot, c₂, hname, hf⟩ := hf
  obtain ⟨dot, rest, rfl, hdot, hstream₁, -⟩ := hstream.of_consume .dot (by decide) hdot
  obtain ⟨name, rest, rfl, hname, hstream₂, hmatches⟩ :=
    hstream₁.of_consume .identifier (by decide) hname
  split at hf
  · rename_i hcheck
    obtain ⟨opening, rest, rfl, hopening⟩ := hstream₂.of_check .leftParen hcheck
    simp only [Option.bind_eq_some_iff, Prod.exists] at hf
    obtain ⟨c₃, hadvance, es', c₄, hes, hf⟩ := hf
    obtain ⟨rfl, rfl⟩ := Prod.mk.inj (Option.some.inj hf)
    obtain ⟨hstream₃, -⟩ := hstream₂.of_advance (by simp [hopening]) hadvance
    obtain ⟨_, rest, rfl, hstream₄, es, v, paren, rfl, rfl, hparen, hwf, hspells⟩ :=
      argumentList_reads (h .assignment (by decide) (by decide)) n _ _ _ _ hstream₃ hes
    refine ⟨.call (.super_ t name ()) paren es, dot :: name :: opening :: (v ++ [paren]), rest,
      by simp, hstream₄, ?_, ⟨hparen, ⟨⟨ht, hname⟩, by simp [Jlox.Expr.level]⟩, hwf⟩, ?_,
      .inr (by simp [Jlox.Expr.level]), trivial⟩
    · simp only [Jlox.Expr.toClox, Clox.Expr.fuse, hmatches.lexeme]
    · exact ⟨[t, dot, name], opening, v, rfl, hopening, ⟨dot, rfl, hdot⟩, hspells⟩
  · rename_i hcheck
    obtain ⟨rfl, rfl⟩ := Prod.mk.inj (Option.some.inj hf)
    refine ⟨.super_ t name (), [dot, name], rest, rfl, hstream₂, ?_, ⟨ht, hname⟩,
      ⟨dot, rfl, hdot⟩, .inr (by simp [Jlox.Expr.level]), hstream₂.of_not_check .leftParen hcheck⟩
    rw [Jlox.Expr.toClox, hmatches.lexeme]

theorem grouping_reads (h : ReadsAll parse) (ht : t.type = .leftParen) (n : ℕ) :
    ReadsPrefix canAssign t (Clox.Pratt.prefixExpr parse n .grouping canAssign) := by
  intro c ts e' c' hstream _ hf
  simp only [Clox.Pratt.prefixExpr, Option.bind_eq_bind, Option.bind_eq_some_iff,
    Prod.exists] at hf
  obtain ⟨e', c₁, he, c₂, hconsume, hf⟩ := hf
  obtain ⟨rfl, rfl⟩ := Prod.mk.inj (Option.some.inj hf)
  obtain ⟨v, rest, rfl, hstream₁, e, rfl, hderives, -⟩ :=
    h .assignment (by decide) (by decide) _ _ _ _ hstream he
  obtain ⟨closing, rest, rfl, hclosing, hstream₂, -⟩ :=
    hstream₁.of_consume .rightParen (by decide) hconsume
  exact ⟨.grouping e, v ++ [closing], rest, by simp, hstream₂, rfl, hderives.wf,
    ⟨t, v, closing, rfl, ht, hclosing, hderives.spells⟩, .inr (by simp [Jlox.Expr.level]), trivial⟩

theorem unary_reads (h : ReadsAll parse) (ht : t.type = .bang ∨ t.type = .minus) (n : ℕ) :
    ReadsPrefix canAssign t (Clox.Pratt.prefixExpr parse n .unary canAssign) := by
  intro c ts e' c' hstream hprevious hf
  simp only [Clox.Pratt.prefixExpr, Option.bind_eq_bind, Option.bind_eq_some_iff,
    Prod.exists] at hf
  obtain ⟨op, hop, e', c₁, he, hf⟩ := hf
  obtain ⟨rfl, rfl⟩ := Prod.mk.inj (Option.some.inj hf)
  obtain ⟨v, rest, rfl, hstream₁, e, rfl, hderives, hfollow⟩ :=
    h .unary (by decide) (by decide) _ _ _ _ hstream he
  refine ⟨.unary t e, v, rest, rfl, hstream₁, ?_, ⟨ht, hderives.wf, hderives.level⟩,
    ⟨v, rfl, hderives.spells⟩, .inr (le_refl _), hfollow⟩
  rw [hprevious.type] at hop
  rw [Jlox.Expr.toClox, Jlox.TokenType.unaryOp, hop, Option.getD_some]

/-- A rule that returns at once. -/
theorem readsPrefix_of_literal {rule : Clox.ParseFn} {value : Jlox.Literal N}
    (ht : t.IsLiteral value) (n : ℕ)
    (hrule : ∀ c, Matches c.previous t →
      Clox.Pratt.prefixExpr parse n rule canAssign c = some (value.toClox, c)) :
    ReadsPrefix canAssign t (Clox.Pratt.prefixExpr parse n rule canAssign) := by
  intro c ts e' c' hstream hprevious hf
  rw [hrule c hprevious] at hf
  obtain ⟨rfl, rfl⟩ := Prod.mk.inj (Option.some.inj hf)
  exact ⟨.literal value, [], ts, rfl, hstream, rfl, trivial, ⟨t, rfl, ht⟩,
    .inr (by simp [Jlox.Expr.level]), trivial⟩

/-- Every prefix rule, after the token it belongs to. -/
theorem prefixExpr_reads (h : ReadsAll parse) (n : ℕ) {rule : Clox.ParseFn}
    (hrule : (Clox.getRule t.type.toClox).prefixRule = some rule) :
    ReadsPrefix canAssign t (Clox.Pratt.prefixExpr parse n rule canAssign) := by
  cases ht : t.type <;>
    simp only [ht, Jlox.TokenType.toClox, Clox.getRule, Option.some.injEq, reduceCtorEq] at hrule
  all_goals obtain rfl := hrule
  case leftParen => exact grouping_reads h ht n
  case minus => exact unary_reads h (.inr ht) n
  case bang => exact unary_reads h (.inl ht) n
  case identifier => exact namedVariable_reads h ht
  case super_ => exact super_reads h ht n
  case string =>
    refine readsPrefix_of_literal (.inr (.inr (.inr ⟨.inr ht, rfl⟩))) n fun c hprevious => ?_
    rw [hprevious.string ht]
    rfl
  case number =>
    refine readsPrefix_of_literal (.inr (.inr (.inr ⟨.inl ht, rfl⟩))) n fun c hprevious => ?_
    rw [hprevious.number ht]
    rfl
  case false_ =>
    refine readsPrefix_of_literal (.inl ⟨ht, rfl⟩) n fun c hprevious => ?_
    simp [Clox.Pratt.prefixExpr, hprevious.type, ht, Jlox.TokenType.toClox, Jlox.Literal.toClox]
  case true_ =>
    refine readsPrefix_of_literal (.inr (.inl ⟨ht, rfl⟩)) n fun c hprevious => ?_
    simp [Clox.Pratt.prefixExpr, hprevious.type, ht, Jlox.TokenType.toClox, Jlox.Literal.toClox]
  case nil_ =>
    refine readsPrefix_of_literal (.inr (.inr (.inl ⟨ht, rfl⟩))) n fun c hprevious => ?_
    simp [Clox.Pratt.prefixExpr, hprevious.type, ht, Jlox.TokenType.toClox, Jlox.Literal.toClox]
  case this_ =>
    intro c ts e' c' hstream hprevious hf
    obtain ⟨rfl, rfl⟩ := Prod.mk.inj (Option.some.inj hf)
    exact ⟨.this_ t (), [], ts, rfl, hstream, rfl, ht, rfl, .inr (by simp [Jlox.Expr.level]),
      trivial⟩

end Prefix

/-! ### Infix rules -/

theorem precedence_toClox (type : Jlox.TokenType) :
    (Clox.getRule type.toClox).precedence.toNat =
      if type = .equal then 0 else infixLevel type := by
  cases type <;> rfl

theorem infixLevel_le (type : Jlox.TokenType) : infixLevel type ≤ 9 := by
  cases type <;> decide

/-- An operand that the infix loop has read: an expression of the level, to which the next token
does not belong yet. -/
structure Operand (p : ℕ) (canAssign : Bool) (e : Jlox.Expr N Unit)
    (used rest : List (Jlox.Token N)) : Prop extends e.Derives p used where
  settled : Settled canAssign e rest

omit [Double N] in
theorem Settled.le_level {canAssign : Bool} {e : Jlox.Expr N Unit} {t : Jlox.Token N}
    {ts : List (Jlox.Token N)} (h : Settled canAssign e (t :: ts))
    (ht : 1 ≤ infixLevel t.type) : infixLevel t.type ≤ e.level := by
  have hle := infixLevel_le t.type
  cases e with
  | assign | set =>
    have h := Jlox.Follow.head h
    omega
  | logical | binary | unary =>
    have h := Jlox.Follow.head h
    simp only [Jlox.Expr.level]
    omega
  | _ =>
    simp only [Jlox.Expr.level]
    omega

section Infix

variable {parse : Clox.Pratt.PrecedenceParser N} {p : ℕ} {canAssign : Bool}
  {e : Jlox.Expr N Unit} {t : Jlox.Token N} {u : List (Jlox.Token N)}

/-- What an infix rule returns after its token: an operand again, longer by the tokens read. -/
def ReadsInfix (p : ℕ) (canAssign : Bool) (e : Jlox.Expr N Unit) (u : List (Jlox.Token N))
    (t : Jlox.Token N) (f : Cursor → Option (Clox.Expr N × Cursor)) : Prop :=
  ∀ c ts e' c', Stream c ts → Operand p canAssign e u (t :: ts) → Matches c.previous t →
    f c = some (e', c') →
    ∃ (e₂ : Jlox.Expr N Unit) (used rest : List (Jlox.Token N)), ts = used ++ rest ∧
      Stream c' rest ∧ e₂.toClox = e' ∧ Operand p canAssign e₂ (u ++ t :: used) rest

theorem binary_reads (h : ReadsAll parse) (hp : p ≤ infixLevel t.type)
    (ht : 4 ≤ infixLevel t.type ∧ infixLevel t.type ≤ 7) (n : ℕ) :
    ReadsInfix p canAssign e u t (Clox.Pratt.infixExpr parse n .binary e.toClox canAssign) := by
  intro c ts e' c' hstream hoperand hprevious hf
  simp only [Clox.Pratt.infixExpr, Option.bind_eq_bind, Option.bind_eq_some_iff, Prod.exists,
    hprevious.type] at hf
  obtain ⟨op, hop, e', c₁, he, hf⟩ := hf
  obtain ⟨rfl, rfl⟩ := Prod.mk.inj (Option.some.inj hf)
  have hnext : (Clox.getRule t.type.toClox).precedence.next.toNat = infixLevel t.type + 1 := by
    revert ht
    cases t.type <;> decide
  obtain ⟨v, rest, rfl, hstream₁, e₂, rfl, hderives, hfollow⟩ :=
    h _ (by omega) (by omega) _ _ _ _ hstream he
  rw [hnext] at hderives hfollow
  refine ⟨.binary e t e₂, v, rest, rfl, hstream₁, ?_, ⟨⟨ht, ⟨hoperand.wf, ?_⟩, hderives.wf,
    hderives.level⟩, hp, ⟨u, v, rfl, hoperand.spells, hderives.spells⟩⟩, hfollow⟩
  · rw [Jlox.Expr.toClox, Jlox.TokenType.binaryOp, hop, Option.getD_some]
  · exact hoperand.settled.le_level (by omega)

omit [Double N] in
/-- The operand before a logical operator is no chain of this operator. -/
theorem Operand.lt_level {ts : List (Jlox.Token N)} (h : Operand p canAssign e u (t :: ts))
    (ht : t.type = .or_ ∨ t.type = .and_) : infixLevel t.type < e.level := by
  have hle : infixLevel t.type ≤ 3 ∧ 2 ≤ infixLevel t.type := by
    rcases ht with h | h <;> rw [h] <;> decide
  cases e with
  | logical a op b => exact Jlox.Follow.head h.settled
  | binary a op b =>
    have hge := h.wf.1.1
    simp only [Jlox.Expr.level]
    omega
  | assign | set =>
    have hlt := Jlox.Follow.head h.settled
    omega
  | _ =>
    simp only [Jlox.Expr.level]
    omega

omit [Double N] in
/-- What the rules for `and` and `or` return, from the tree for it. -/
theorem logical_reads {precedence : Precedence} {ts rest v : List (Jlox.Token N)}
    {e₂ : Jlox.Expr N Unit} (hp : p ≤ infixLevel t.type) (ht : t.type = .or_ ∨ t.type = .and_)
    (hprecedence : precedence.toNat = infixLevel t.type)
    (hoperand : Operand p canAssign e u (t :: ts)) (hderives : e₂.Derives precedence.toNat v)
    (hfollow : Follow precedence.toNat rest) :
    Operand p canAssign (e.insertLeft t e₂) (u ++ t :: v) rest := by
  rw [hprecedence] at hderives hfollow
  refine ⟨⟨Jlox.Expr.wf_insertLeft ht hoperand.wf (hoperand.lt_level ht) hderives.wf
    hderives.level, ?_, Jlox.Expr.spells_insertLeft hoperand.spells hderives.spells⟩, ?_⟩
  · rw [Jlox.Expr.level_insertLeft]
    exact hp
  · fun_cases Jlox.Expr.insertLeft e t e₂
    · rename_i heq
      rw [← heq] at hfollow
      exact hfollow
    · exact hfollow
    · exact hfollow

theorem or_reads (h : ReadsAll parse) (hp : p ≤ infixLevel t.type) (ht : t.type = .or_) (n : ℕ) :
    ReadsInfix p canAssign e u t (Clox.Pratt.infixExpr parse n .or_ e.toClox canAssign) := by
  intro c ts e' c' hstream hoperand _ hf
  simp only [Clox.Pratt.infixExpr, Option.bind_eq_bind, Option.bind_eq_some_iff, Prod.exists] at hf
  obtain ⟨e', c₁, he, hf⟩ := hf
  obtain ⟨rfl, rfl⟩ := Prod.mk.inj (Option.some.inj hf)
  obtain ⟨v, rest, rfl, hstream₁, e₂, rfl, hderives, hfollow⟩ :=
    h .or (by decide) (by decide) _ _ _ _ hstream he
  have hlt := hoperand.lt_level (.inl ht)
  rw [ht] at hlt
  exact ⟨e.insertLeft t e₂, v, rest, rfl, hstream₁, Jlox.Expr.toClox_insertLeft_or ht hlt e₂,
    logical_reads hp (.inl ht) (by rw [ht]; rfl) hoperand hderives hfollow⟩

theorem and_reads (h : ReadsAll parse) (hp : p ≤ infixLevel t.type) (ht : t.type = .and_)
    (n : ℕ) :
    ReadsInfix p canAssign e u t (Clox.Pratt.infixExpr parse n .and_ e.toClox canAssign) := by
  intro c ts e' c' hstream hoperand _ hf
  simp only [Clox.Pratt.infixExpr, Option.bind_eq_bind, Option.bind_eq_some_iff, Prod.exists] at hf
  obtain ⟨e', c₁, he, hf⟩ := hf
  obtain ⟨rfl, rfl⟩ := Prod.mk.inj (Option.some.inj hf)
  obtain ⟨v, rest, rfl, hstream₁, e₂, rfl, hderives, hfollow⟩ :=
    h .and (by decide) (by decide) _ _ _ _ hstream he
  have hlt := hoperand.lt_level (.inr ht)
  rw [ht] at hlt
  exact ⟨e.insertLeft t e₂, v, rest, rfl, hstream₁,
    Jlox.Expr.toClox_insertLeft_and ht hlt hoperand.wf e₂,
    logical_reads hp (.inr ht) (by rw [ht]; rfl) hoperand hderives hfollow⟩

omit [Double N] in
/-- Where an opening parenthesis follows an operand, it is no property and no `super`. -/
theorem Settled.fuse_toClox {ts : List (Jlox.Token N)} (h : Settled canAssign e (t :: ts))
    (ht : t.type = .leftParen) (es : List (Clox.Expr N)) :
    e.toClox.fuse es = .call e.toClox es := by
  cases e with
  | get => exact absurd ht (by simpa using h.1 t rfl)
  | super_ => exact absurd ht (by simpa using h t rfl)
  | literal value =>
    fun_cases Jlox.Literal.toClox value <;>
      simp [Jlox.Expr.toClox, Jlox.Literal.toClox, Clox.Expr.fuse]
  | logical a op b =>
    obtain ⟨x, y, hor⟩ := Clox.Expr.exists_joinOr a.toClox b.toClox
    obtain ⟨x', y', hand⟩ := Clox.Expr.exists_joinAnd a.toClox b.toClox
    simp only [Jlox.Expr.toClox]
    split <;> simp [hor, hand, Clox.Expr.fuse]
  | call callee paren arguments =>
    obtain h | ⟨_, _, h⟩ | ⟨_, h⟩ :=
        Clox.Expr.exists_fuse callee.toClox (Jlox.Expr.toCloxList arguments) <;>
      · rw [Jlox.Expr.toClox, h]
        rfl
  | _ => simp [Jlox.Expr.toClox, Clox.Expr.fuse]

theorem call_reads (h : ReadsAll parse) (hp : p ≤ 9) (ht : t.type = .leftParen) (n : ℕ) :
    ReadsInfix p canAssign e u t (Clox.Pratt.infixExpr parse n .call e.toClox canAssign) := by
  intro c ts e' c' hstream hoperand _ hf
  simp only [Clox.Pratt.infixExpr, Option.bind_eq_bind, Option.bind_eq_some_iff, Prod.exists] at hf
  obtain ⟨es', c₁, hes, hf⟩ := hf
  obtain ⟨rfl, rfl⟩ := Prod.mk.inj (Option.some.inj hf)
  obtain ⟨_, rest, rfl, hstream₁, es, v, paren, rfl, rfl, hparen, hwf, hspells⟩ :=
    argumentList_reads (h .assignment (by decide) (by decide)) n _ _ _ _ hstream hes
  have hlevel : 9 ≤ e.level := by
    have hle := hoperand.settled.le_level (by rw [ht]; decide)
    rwa [ht] at hle
  refine ⟨.call e paren es, v ++ [paren], rest, rfl, hstream₁, ?_,
    ⟨⟨hparen, ⟨hoperand.wf, hlevel⟩, hwf⟩, hp, ⟨u, t, v, rfl, ht, hoperand.spells, hspells⟩⟩,
    trivial⟩
  rw [Jlox.Expr.toClox, hoperand.settled.fuse_toClox ht]

theorem dot_reads (h : ReadsAll parse) (hp : p ≤ 9) (hcan : canAssign = true → p ≤ 1)
    (ht : t.type = .dot) (n : ℕ) :
    ReadsInfix p canAssign e u t (Clox.Pratt.infixExpr parse n .dot e.toClox canAssign) := by
  intro c ts e' c' hstream hoperand _ hf
  have hobject : e.Wf ∧ 9 ≤ e.level := by
    have hle := hoperand.settled.le_level (by rw [ht]; decide)
    rw [ht] at hle
    exact ⟨hoperand.wf, hle⟩
  simp only [Clox.Pratt.infixExpr, Clox.Pratt.dot, Option.bind_eq_bind,
    Option.bind_eq_some_iff] at hf
  obtain ⟨c₁, hname, hf⟩ := hf
  obtain ⟨name, rest, rfl, hname, hstream₁, hmatches⟩ :=
    hstream.of_consume .identifier (by decide) hname
  rw [hmatches.lexeme] at hf
  split at hf
  · rename_i hcheck
    obtain ⟨hassign, hcheck⟩ : canAssign = true ∧ _ := by simpa using hcheck
    obtain ⟨equals, rest, rfl, hequals⟩ := hstream₁.of_check .equal hcheck
    simp only [Option.bind_eq_some_iff, Prod.exists] at hf
    obtain ⟨c₂, hadvance, value', c₃, hvalue, hf⟩ := hf
    obtain ⟨rfl, rfl⟩ := Prod.mk.inj (Option.some.inj hf)
    obtain ⟨hstream₂, -⟩ := hstream₁.of_advance (by simp [hequals]) hadvance
    obtain ⟨v, rest, rfl, hstream₃, value, rfl, hderives, hfollow⟩ :=
      h .assignment (by decide) (by decide) _ _ _ _ hstream₂ hvalue
    exact ⟨.set e name value, name :: equals :: v, rest, rfl, hstream₃, rfl,
      ⟨⟨hname, hobject, hderives.wf⟩, hcan hassign,
        ⟨u, t, equals, v, rfl, ht, hequals, hoperand.spells, hderives.spells⟩⟩, hfollow⟩
  rename_i hequal
  split at hf
  · rename_i hcheck
    obtain ⟨opening, rest, rfl, hopening⟩ := hstream₁.of_check .leftParen hcheck
    simp only [Option.bind_eq_some_iff, Prod.exists] at hf
    obtain ⟨c₂, hadvance, es', c₃, hes, hf⟩ := hf
    obtain ⟨rfl, rfl⟩ := Prod.mk.inj (Option.some.inj hf)
    obtain ⟨hstream₂, -⟩ := hstream₁.of_advance (by simp [hopening]) hadvance
    obtain ⟨_, rest, rfl, hstream₃, es, v, paren, rfl, rfl, hparen, hwf, hspells⟩ :=
      argumentList_reads (h .assignment (by decide) (by decide)) n _ _ _ _ hstream₂ hes
    refine ⟨.call (.get e name) paren es, name :: opening :: (v ++ [paren]), rest, by simp,
      hstream₃, rfl, ⟨⟨hparen, ⟨⟨hname, hobject⟩, le_refl _⟩, hwf⟩, hp, ?_⟩, trivial⟩
    exact ⟨u ++ [t, name], opening, v, by simp, hopening, ⟨u, t, rfl, ht, hoperand.spells⟩, hspells⟩
  · rename_i hparen
    obtain ⟨rfl, rfl⟩ := Prod.mk.inj (Option.some.inj hf)
    refine ⟨.get e name, [name], rest, rfl, hstream₁, rfl,
      ⟨⟨hname, hobject⟩, hp, ⟨u, t, rfl, ht, hoperand.spells⟩⟩,
      hstream₁.of_not_check .leftParen hparen, fun hassign =>
        hstream₁.of_not_check .equal fun hc => hequal ?_⟩
    rw [hassign, Bool.true_and]
    exact hc

/-- Every infix rule, after the token it belongs to. -/
theorem infixExpr_reads (h : ReadsAll parse) (hp : p ≤ infixLevel t.type)
    (hcan : canAssign = true → p ≤ 1) (n : ℕ) {rule : Clox.ParseFn}
    (hrule : (Clox.getRule t.type.toClox).infixRule = some rule) :
    ReadsInfix p canAssign e u t (Clox.Pratt.infixExpr parse n rule e.toClox canAssign) := by
  have hp₉ := hp.trans (infixLevel_le t.type)
  cases ht : t.type <;>
    simp only [ht, Jlox.TokenType.toClox, Clox.getRule, Option.some.injEq, reduceCtorEq] at hrule
  all_goals obtain rfl := hrule
  case leftParen => exact call_reads h hp₉ ht n
  case dot => exact dot_reads h hp₉ hcan ht n
  case or_ => exact or_reads h hp ht n
  case and_ => exact and_reads h hp ht n
  all_goals exact binary_reads h hp (by rw [ht]; decide) n

end Infix

/-! ### The loop -/

section Loop

variable {parse : Clox.Pratt.PrecedenceParser N} {p : Precedence} {canAssign : Bool}

/-- The loop goes on as long as there are operators of the level. -/
theorem infixLoop_reads (h : ReadsAll parse) (hp₁ : 1 ≤ p.toNat)
    (hcan : canAssign = true → p.toNat ≤ 1) (n : ℕ) :
    ∀ (e : Jlox.Expr N Unit) u c ts e' c', Stream c ts → Operand p.toNat canAssign e u ts →
      Clox.Pratt.infixLoop parse n p canAssign e.toClox c = some (e', c') →
      ∃ (e₂ : Jlox.Expr N Unit) (used rest : List (Jlox.Token N)), ts = used ++ rest ∧
        Stream c' rest ∧ e₂.toClox = e' ∧ e₂.Derives p.toNat (u ++ used) ∧
        ∀ t ∈ rest.head?, t.type ≠ .equal → infixLevel t.type < p.toNat := by
  induction n with
  | zero =>
    intro e u c ts e' c' _ _ hf
    cases hf
  | succ n ih =>
    intro e u c ts e' c' hstream hoperand hf
    obtain ⟨t, ts, rfl⟩ := hstream.exists_cons
    rw [Clox.Pratt.infixLoop] at hf
    simp only [hstream.current.type] at hf
    split at hf <;> rename_i hprecedence <;> rw [precedence_toClox] at hprecedence
    · have hequal : t.type ≠ .equal := fun heq => by
        rw [if_pos heq] at hprecedence
        omega
      rw [if_neg hequal] at hprecedence
      have heof : t.type ≠ .eof := fun heq => by
        simp only [heq, infixLevel] at hprecedence
        omega
      simp only [Option.bind_eq_bind, Option.bind_eq_some_iff, Prod.exists] at hf
      obtain ⟨c₁, hadvance, rule, hrule, e₁', c₂, hinf, hf⟩ := hf
      obtain ⟨hstream₁, hmatches⟩ := hstream.of_advance heof hadvance
      rw [hmatches.type] at hrule
      obtain ⟨e₁, v, rest, rfl, hstream₂, rfl, hoperand₁⟩ :=
        infixExpr_reads h hprecedence hcan n hrule _ _ _ _ hstream₁ hoperand hmatches hinf
      obtain ⟨e₂, w, rest, rfl, hstream₃, rfl, hderives, hnext⟩ :=
        ih e₁ _ c₂ _ _ _ hstream₂ hoperand₁ hf
      refine ⟨e₂, t :: (v ++ w), rest, by simp, hstream₃, rfl, ?_, hnext⟩
      simpa using hderives
    · obtain ⟨rfl, rfl⟩ := Prod.mk.inj (Option.some.inj hf)
      refine ⟨e, [], t :: ts, rfl, hstream, rfl, by simpa using hoperand.toDerives, ?_⟩
      intro t' ht' hequal
      obtain rfl : t = t' := by simpa using ht'
      rw [if_neg hequal] at hprecedence
      omega

end Loop

/-- What the Pratt parser returns is an expression of the level, and the next token does not belong
to it. -/
theorem parsePrecedence_reads (n : ℕ) : ReadsAll (Clox.Pratt.parsePrecedence (N := N) n) := by
  induction n with
  | zero =>
    intro p _ _ c ts e' c' _ hf
    cases hf
  | succ n ih =>
    intro p hp₁ hp₈ c ts e' c' hstream hf
    obtain ⟨t, ts, rfl⟩ := hstream.exists_cons
    simp only [Clox.Pratt.parsePrecedence, Option.bind_eq_bind, Option.bind_eq_some_iff,
      Prod.exists] at hf
    obtain ⟨c₁, hadvance, rule, hrule, e₁', c₂, hpre, e₂', c₃, hloop, hf⟩ := hf
    have heof : t.type ≠ .eof := fun heq => by
      rw [advance_previous hadvance, hstream.current.type, heq] at hrule
      cases hrule
    obtain ⟨hstream₁, hmatches⟩ := hstream.of_advance heof hadvance
    rw [hmatches.type] at hrule
    obtain ⟨e₁, u, rest, rfl, hstream₂, rfl, hwf, hspells, hlevel, hsettled⟩ :=
      prefixExpr_reads ih n hrule _ _ _ _ hstream₁ hmatches hpre
    have hle : p.toNat ≤ e₁.level := by
      rcases hlevel with hcan | hlevel
      · have hp : p.toNat ≤ 1 := of_decide_eq_true hcan
        exact hp.trans (Jlox.Expr.one_le_level hwf)
      · omega
    obtain ⟨e₂, v, rest, rfl, hstream₃, rfl, hderives, hnext⟩ :=
      infixLoop_reads ih hp₁ of_decide_eq_true n e₁ (t :: u) c₂ _ _ _ hstream₂
        ⟨⟨hwf, hle, hspells⟩, hsettled⟩ hloop
    split at hf
    · cases hf
    rename_i hcheck
    obtain ⟨rfl, rfl⟩ := Prod.mk.inj (Option.some.inj hf)
    refine ⟨t :: (u ++ v), rest, by simp, hstream₃, e₂, rfl, by simpa using hderives, ?_⟩
    intro t' ht'
    by_cases hequal : t'.type = .equal
    · by_cases hp : p.toNat ≤ 1
      · refine absurd ?_ hcheck
        obtain ⟨t'', rest, rfl⟩ := hstream₃.exists_cons
        obtain rfl : t'' = t' := by simpa using ht'
        rw [show Clox.TokenType.equal = Jlox.TokenType.equal.toClox from rfl, hstream₃.check]
        simp only [hequal, decide_true, Bool.and_true]
        exact decide_eq_true hp
      · rw [hequal, infixLevel]
        omega
    · exact hnext t' ht' hequal

end Lox
