import Lox.PrattSound

/-!
# What the Pratt parser of clox accepts

For every expression of the grammar, and tokens that spell it, `parsePrecedence` reads these tokens
and returns the tree for the expression.  The argument goes along the infix loop: after the first
tokens of an expression the loop is entered with its leftmost operand, and it comes to the whole
expression one operator at a time.
-/

namespace Lox

open Clox (Double Cursor Precedence)
open Jlox (Follow NextNot infixLevel)

variable {N : Type} [Double N]

/-- The parser reads every expression with fewer tokens than this. -/
def AcceptsAll (n : ℕ) (parse : Clox.Pratt.PrecedenceParser N) : Prop :=
  ∀ p : Precedence, 1 ≤ p.toNat → p.toNat ≤ 8 →
    ∀ (e : Jlox.Expr N Unit) used rest c, e.Derives p.toNat used → Follow p.toNat rest →
      used.length < n → Stream c (used ++ rest) →
      ∃ c', parse p c = some (e.toClox, c') ∧ Stream c' rest

/-! ### Tokens -/

section Tokens

variable {c : Cursor} {t : Jlox.Token N} {ts : List (Jlox.Token N)}

theorem Stream.check_true (h : Stream c (t :: ts)) (type : Jlox.TokenType) (ht : t.type = type) :
    Clox.Pratt.check type.toClox c = true := by
  rw [h.check, decide_eq_true ht]

theorem Stream.check_false (h : Stream c ts) (type : Jlox.TokenType) (ht : NextNot [type] ts) :
    Clox.Pratt.check type.toClox c = false := by
  obtain ⟨t, ts, rfl⟩ := h.exists_cons
  rw [h.check, decide_eq_false]
  simpa using ht t rfl

theorem Stream.consume (h : Stream c (t :: ts)) (type : Jlox.TokenType) (ht : t.type = type)
    (htype : type ≠ .eof) :
    ∃ c', Clox.Pratt.consume type.toClox c = some c' ∧ Stream c' ts ∧ Matches c'.previous t := by
  rw [Clox.Pratt.consume, if_pos (h.check_true type ht)]
  exact h.advance (ht ▸ htype)

end Tokens

/-! ### Arguments -/

section Arguments

variable {n : ℕ} {parse : Clox.Pratt.PrecedenceParser N} (h : AcceptsAll n parse)

include h

theorem argumentLoop_accepts (k : ℕ) :
    ∀ (es : List (Jlox.Expr N Unit)) (v rest : List (Jlox.Token N)) (c : Cursor), es ≠ [] →
      Jlox.Expr.WfList es → Jlox.Expr.SpellsList es v → v.length < n → v.length ≤ k →
      NextNot [.comma] rest → Follow 1 rest → Stream c (v ++ rest) →
      ∃ c', Clox.Pratt.argumentLoop (parse .assignment) k c =
        some (Jlox.Expr.toCloxList es, c') ∧ Stream c' rest := by
  induction k with
  | zero =>
    intro es v rest c hne hwf hspells _ hk
    obtain ⟨e, es, rfl⟩ := List.exists_cons_of_ne_nil hne
    obtain ⟨t, tail, rfl, -⟩ := Jlox.Expr.spellsList_head hwf hspells
    simp at hk
  | succ k ih =>
    intro es v rest c hne hwf hspells hn hk hcomma hfollow hstream
    obtain ⟨e, es, rfl⟩ := List.exists_cons_of_ne_nil hne
    rw [Clox.Pratt.argumentLoop]
    cases es with
    | nil =>
      obtain ⟨c₁, he, hstream₁⟩ := h .assignment (by decide) (by decide) e v rest c
        ⟨hwf.1, Jlox.Expr.one_le_level hwf.1, Jlox.Expr.spellsList_singleton.1 hspells⟩ hfollow hn
        hstream
      have hcheck : Clox.Pratt.check .comma c₁ = false := hstream₁.check_false .comma hcomma
      refine ⟨c₁, ?_, hstream₁⟩
      simp [he, hcheck, Jlox.Expr.toCloxList]
    | cons e' es =>
      obtain ⟨u, comma, w, rfl, hcomma', hu, hw⟩ :=
        (Jlox.Expr.spellsList_cons (by simp)).1 hspells
      simp only [List.length_append, List.length_cons] at hn hk
      rw [List.append_assoc, List.cons_append] at hstream
      obtain ⟨c₁, he, hstream₁⟩ := h .assignment (by decide) (by decide) e u _ c
        ⟨hwf.1, Jlox.Expr.one_le_level hwf.1, hu⟩
        (Jlox.follow_cons (by rw [hcomma']; decide)) (by omega) hstream
      have hcheck : Clox.Pratt.check .comma c₁ = true := hstream₁.check_true .comma hcomma'
      obtain ⟨c₂, hadvance, hstream₂, -⟩ := hstream₁.advance (by simp [hcomma'])
      obtain ⟨c₃, hes, hstream₃⟩ := ih (e' :: es) w rest c₂ (by simp) hwf.2 hw (by omega)
        (by omega) hcomma hfollow hstream₂
      refine ⟨c₃, ?_, hstream₃⟩
      simp [he, hcheck, hadvance, hes, Jlox.Expr.toCloxList]

theorem argumentList_accepts {k : ℕ} {es : List (Jlox.Expr N Unit)} {v rest : List (Jlox.Token N)}
    {paren : Jlox.Token N} {c : Cursor} (hwf : Jlox.Expr.WfList es)
    (hspells : Jlox.Expr.SpellsList es v) (hn : v.length < n) (hk : v.length ≤ k)
    (hparen : paren.type = .rightParen) (hstream : Stream c (v ++ paren :: rest)) :
    ∃ c', Clox.Pratt.argumentList (parse .assignment) k c =
      some (Jlox.Expr.toCloxList es, c') ∧ Stream c' rest := by
  rw [Clox.Pratt.argumentList]
  cases es with
  | nil =>
    obtain rfl := Jlox.Expr.spellsList_nil.1 hspells
    have hcheck : Clox.Pratt.check .rightParen c = true := Stream.check_true hstream .rightParen hparen
    obtain ⟨c₁, hconsume, hstream₁, -⟩ := Stream.consume hstream .rightParen hparen (by decide)
    refine ⟨c₁, ?_, hstream₁⟩
    rw [if_pos hcheck]
    simp only [Jlox.TokenType.toClox] at hconsume
    simp [hconsume, Jlox.Expr.toCloxList]
  | cons e es =>
    obtain ⟨t, tail, hv, ht⟩ := Jlox.Expr.spellsList_head hwf hspells
    have hcheck : Clox.Pratt.check .rightParen c = false := by
      refine hstream.check_false .rightParen ?_
      rw [hv]
      exact Jlox.nextNot_cons fun hmem => by simp_all [Jlox.Expr.starts]
    obtain ⟨c₁, hes, hstream₁⟩ := argumentLoop_accepts h k (e :: es) v (paren :: rest) c (by simp)
      hwf hspells hn hk (Jlox.nextNot_cons (by simp [hparen]))
      (Jlox.follow_cons (by rw [hparen]; decide)) hstream
    obtain ⟨c₂, hconsume, hstream₂, -⟩ := hstream₁.consume .rightParen hparen (by decide)
    refine ⟨c₂, ?_, hstream₂⟩
    rw [hcheck, if_neg (by simp)]
    simp only [Jlox.TokenType.toClox] at hconsume
    simp [hes, hconsume]

end Arguments

/-! ### Along the loop -/

/-- A prefix rule, and the loop after it. -/
def start (parse : Clox.Pratt.PrecedenceParser N) (n : ℕ) (p : Precedence) (canAssign : Bool)
    (c : Cursor) : Option (Clox.Expr N × Cursor) := do
  let c ← Clox.Pratt.advance c
  let rule ← (Clox.getRule c.previous.type).prefixRule
  let (e, c) ← Clox.Pratt.prefixExpr parse n rule canAssign c
  Clox.Pratt.infixLoop parse n p canAssign e c

/-- With these tokens before it, the loop comes to have the expression as its operand. -/
def Reaches (parse : Clox.Pratt.PrecedenceParser N) (n : ℕ) (p : Precedence) (canAssign : Bool)
    (e : Jlox.Expr N Unit) (used rest : List (Jlox.Token N)) : Prop :=
  ∀ c, Stream c (used ++ rest) → ∃ m c', n + 1 ≤ m + used.length ∧ Stream c' rest ∧
    start parse n p canAssign c = Clox.Pratt.infixLoop parse m p canAssign e.toClox c'

section Reaches

variable {parse : Clox.Pratt.PrecedenceParser N} {n : ℕ} {p : Precedence} {canAssign : Bool}
  {e left : Jlox.Expr N Unit} {t : Jlox.Token N} {u v rest : List (Jlox.Token N)}
  {rule : Clox.ParseFn}

theorem reaches_of_prefix (hrule : (Clox.getRule t.type.toClox).prefixRule = some rule)
    (hpre : ∀ c, Stream c (v ++ rest) → Matches c.previous t →
      ∃ c', Clox.Pratt.prefixExpr parse n rule canAssign c = some (e.toClox, c') ∧
        Stream c' rest) :
    Reaches parse n p canAssign e (t :: v) rest := by
  intro c hstream
  have heof : t.type ≠ .eof := fun heq => by
    rw [heq] at hrule
    cases hrule
  obtain ⟨c₁, hadvance, hstream₁, hmatches⟩ := hstream.advance heof
  obtain ⟨c₂, hpre, hstream₂⟩ := hpre c₁ hstream₁ hmatches
  refine ⟨n, c₂, by simp, hstream₂, ?_⟩
  simp [start, hadvance, hmatches.type, hrule, hpre]

/-- One round of the loop. -/
theorem reaches_of_infix (hrule : (Clox.getRule t.type.toClox).infixRule = some rule)
    (hp : p.toNat ≤ infixLevel t.type) (hn : (u ++ t :: v).length ≤ n)
    (hleft : Reaches parse n p canAssign left u (t :: (v ++ rest)))
    (hinf : ∀ k c, v.length ≤ k → Stream c (v ++ rest) → Matches c.previous t →
      ∃ c', Clox.Pratt.infixExpr parse k rule left.toClox canAssign c = some (e.toClox, c') ∧
        Stream c' rest) :
    Reaches parse n p canAssign e (u ++ t :: v) rest := by
  intro c hstream
  have htype : t.type ≠ .equal ∧ t.type ≠ .eof := by
    constructor <;> intro heq <;> rw [heq] at hrule <;> cases hrule
  simp only [List.length_append, List.length_cons] at hn ⊢
  rw [List.append_assoc, List.cons_append] at hstream
  obtain ⟨m, c₁, hm, hstream₁, hstart⟩ := hleft c hstream
  obtain ⟨k, rfl⟩ : ∃ k, m = k + 1 := ⟨m - 1, by omega⟩
  obtain ⟨c₂, hadvance, hstream₂, hmatches⟩ := hstream₁.advance htype.2
  obtain ⟨c₃, hinf, hstream₃⟩ := hinf k c₂ (by omega) hstream₂ hmatches
  refine ⟨k, c₃, by omega, hstream₃, ?_⟩
  have hprecedence : p.toNat ≤ (Clox.getRule c₁.current.type).precedence.toNat := by
    rw [hstream₁.current.type, precedence_toClox, if_neg htype.1]
    exact hp
  rw [hstart, Clox.Pratt.infixLoop, if_pos hprecedence]
  simp [hadvance, hmatches.type, hrule, hinf]

theorem reaches_literal {value : Jlox.Literal N} (ht : t.IsLiteral value) :
    Reaches parse n p canAssign (.literal value) [t] rest := by
  have hreaches {rule : Clox.ParseFn}
      (hrule : (Clox.getRule t.type.toClox).prefixRule = some rule)
      (hpre : ∀ c, Matches c.previous t →
        Clox.Pratt.prefixExpr parse n rule canAssign c = some (value.toClox, c)) :
      Reaches parse n p canAssign (.literal value) [t] rest :=
    reaches_of_prefix hrule fun c hstream hmatches => ⟨c, hpre c hmatches, hstream⟩
  obtain ⟨ht, rfl⟩ | ⟨ht, rfl⟩ | ⟨ht, rfl⟩ | ⟨ht | ht, rfl⟩ := ht
  · refine hreaches (by rw [ht]; rfl) fun c hmatches => ?_
    simp [Clox.Pratt.prefixExpr, hmatches.type, ht, Jlox.TokenType.toClox, Jlox.Literal.toClox]
  · refine hreaches (by rw [ht]; rfl) fun c hmatches => ?_
    simp [Clox.Pratt.prefixExpr, hmatches.type, ht, Jlox.TokenType.toClox, Jlox.Literal.toClox]
  · refine hreaches (by rw [ht]; rfl) fun c hmatches => ?_
    simp [Clox.Pratt.prefixExpr, hmatches.type, ht, Jlox.TokenType.toClox, Jlox.Literal.toClox]
  · refine hreaches (by rw [ht]; rfl) fun c hmatches => ?_
    rw [hmatches.number ht]
    rfl
  · refine hreaches (by rw [ht]; rfl) fun c hmatches => ?_
    rw [hmatches.string ht]
    rfl

theorem reaches_variable (ht : t.type = .identifier)
    (hsettled : canAssign = true → NextNot [.equal] rest) :
    Reaches parse n p canAssign (.variable_ t ()) [t] rest := by
  refine reaches_of_prefix (by rw [ht]; rfl) fun c hstream hmatches => ⟨c, ?_, hstream⟩
  have hcheck : (canAssign && Clox.Pratt.check .equal c) = false := by
    cases canAssign with
    | false => rfl
    | true => exact hstream.check_false .equal (hsettled rfl)
  simp [Clox.Pratt.prefixExpr, Clox.Pratt.namedVariable, hcheck, Jlox.Expr.toClox,
    hmatches.lexeme]

theorem reaches_this (ht : t.type = .this_) :
    Reaches parse n p canAssign (.this_ t ()) [t] rest :=
  reaches_of_prefix (by rw [ht]; rfl) fun c hstream _ => ⟨c, rfl, hstream⟩

theorem reaches_super {dot method : Jlox.Token N} (ht : t.type = .super_) (hdot : dot.type = .dot)
    (hmethod : method.type = .identifier) (hsettled : NextNot [.leftParen] rest) :
    Reaches parse n p canAssign (.super_ t method ()) [t, dot, method] rest := by
  refine reaches_of_prefix (by rw [ht]; rfl) fun c hstream _ => ?_
  obtain ⟨c₁, hdot, hstream₁, -⟩ := Stream.consume hstream .dot hdot (by decide)
  obtain ⟨c₂, hmethod, hstream₂, hmatches⟩ :=
    Stream.consume hstream₁ .identifier hmethod (by decide)
  have hcheck : Clox.Pratt.check .leftParen c₂ = false := hstream₂.check_false .leftParen hsettled
  refine ⟨c₂, ?_, hstream₂⟩
  simp only [Jlox.TokenType.toClox] at hdot hmethod
  simp [Clox.Pratt.prefixExpr, Clox.Pratt.super_, hdot, hmethod, hcheck, Jlox.Expr.toClox,
    hmatches.lexeme]

section Operands

variable (h : AcceptsAll n parse)

include h

theorem reaches_callSuper {dot method opening paren : Jlox.Token N}
    {arguments : List (Jlox.Expr N Unit)} (ht : t.type = .super_) (hdot : dot.type = .dot)
    (hmethod : method.type = .identifier) (hopening : opening.type = .leftParen)
    (hparen : paren.type = .rightParen) (hwf : Jlox.Expr.WfList arguments)
    (hspells : Jlox.Expr.SpellsList arguments v) (hn : v.length < n) :
    Reaches parse n p canAssign (.call (.super_ t method ()) paren arguments)
      (t :: dot :: method :: opening :: (v ++ [paren])) rest := by
  refine reaches_of_prefix (by rw [ht]; rfl) fun c hstream _ => ?_
  rw [List.cons_append, List.cons_append, List.cons_append, List.append_assoc] at hstream
  obtain ⟨c₁, hdot, hstream₁, -⟩ := hstream.consume .dot hdot (by decide)
  obtain ⟨c₂, hmethod, hstream₂, hmatches⟩ := hstream₁.consume .identifier hmethod (by decide)
  have hcheck : Clox.Pratt.check .leftParen c₂ = true := hstream₂.check_true .leftParen hopening
  obtain ⟨c₃, hadvance, hstream₃, -⟩ := hstream₂.advance (by simp [hopening])
  obtain ⟨c₄, hes, hstream₄⟩ := argumentList_accepts h hwf hspells hn hn.le hparen hstream₃
  refine ⟨c₄, ?_, hstream₄⟩
  simp only [Jlox.TokenType.toClox] at hdot hmethod
  simp [Clox.Pratt.prefixExpr, Clox.Pratt.super_, hdot, hmethod, hcheck, hadvance, hes,
    Jlox.Expr.toClox, Clox.Expr.fuse, hmatches.lexeme]

theorem reaches_grouping {closing : Jlox.Token N} (ht : t.type = .leftParen)
    (hclosing : closing.type = .rightParen) (hwf : e.Wf) (hspells : e.Spells v)
    (hn : v.length < n) :
    Reaches parse n p canAssign (.grouping e) (t :: (v ++ [closing])) rest := by
  refine reaches_of_prefix (by rw [ht]; rfl) fun c hstream _ => ?_
  rw [List.append_assoc] at hstream
  obtain ⟨c₁, he, hstream₁⟩ := h .assignment (by decide) (by decide) e v _ c
    ⟨hwf, Jlox.Expr.one_le_level hwf, hspells⟩ (Jlox.follow_cons (by rw [hclosing]; decide)) hn
    hstream
  obtain ⟨c₂, hconsume, hstream₂, -⟩ :=
    Stream.consume hstream₁ .rightParen hclosing (by decide)
  refine ⟨c₂, ?_, hstream₂⟩
  simp only [Jlox.TokenType.toClox] at hconsume
  simp [Clox.Pratt.prefixExpr, he, hconsume, Jlox.Expr.toClox]

theorem reaches_assign {equals : Jlox.Token N} (hcan : canAssign = true)
    (ht : t.type = .identifier) (hequals : equals.type = .equal) (hwf : e.Wf)
    (hspells : e.Spells v) (hn : v.length < n) (hfollow : Follow 1 rest) :
    Reaches parse n p canAssign (.assign t e ()) (t :: equals :: v) rest := by
  refine reaches_of_prefix (by rw [ht]; rfl) fun c hstream hmatches => ?_
  have hcheck : Clox.Pratt.check .equal c = true := Stream.check_true hstream .equal hequals
  obtain ⟨c₁, hadvance, hstream₁, -⟩ := Stream.advance hstream (by simp [hequals])
  obtain ⟨c₂, he, hstream₂⟩ := h .assignment (by decide) (by decide) e v rest c₁
    ⟨hwf, Jlox.Expr.one_le_level hwf, hspells⟩ hfollow hn hstream₁
  refine ⟨c₂, ?_, hstream₂⟩
  simp [Clox.Pratt.prefixExpr, Clox.Pratt.namedVariable, hcan, hcheck, hadvance, he,
    Jlox.Expr.toClox, hmatches.lexeme]

theorem reaches_unary (ht : t.type = .bang ∨ t.type = .minus) (hderives : e.Derives 8 v)
    (hn : v.length < n) (hfollow : Follow 8 rest) :
    Reaches parse n p canAssign (.unary t e) (t :: v) rest := by
  have hrule : (Clox.getRule t.type.toClox).prefixRule = some .unary := by
    rcases ht with h | h <;> rw [h] <;> rfl
  obtain ⟨op, hop⟩ : ∃ op, Clox.Pratt.unaryOp t.type.toClox = some op := by
    rcases ht with h | h <;> rw [h] <;> exact ⟨_, rfl⟩
  refine reaches_of_prefix hrule fun c hstream hmatches => ?_
  obtain ⟨c₁, he, hstream₁⟩ :=
    h .unary (by decide) (by decide) e v rest c hderives hfollow hn hstream
  refine ⟨c₁, ?_, hstream₁⟩
  simp [Clox.Pratt.prefixExpr, hmatches.type, hop, he, Jlox.Expr.toClox, Jlox.TokenType.unaryOp]

theorem reaches_binary (ht : 4 ≤ infixLevel t.type ∧ infixLevel t.type ≤ 7)
    (hp : p.toNat ≤ infixLevel t.type)
    (hleft : Reaches parse n p canAssign left u (t :: (v ++ rest)))
    (hderives : e.Derives (infixLevel t.type + 1) v) (hn : (u ++ t :: v).length ≤ n)
    (hfollow : Follow (infixLevel t.type + 1) rest) :
    Reaches parse n p canAssign (.binary left t e) (u ++ t :: v) rest := by
  have hrule : (Clox.getRule t.type.toClox).infixRule = some .binary := by
    revert ht
    cases t.type <;> decide
  have hnext : (Clox.getRule t.type.toClox).precedence.next.toNat = infixLevel t.type + 1 := by
    revert ht
    cases t.type <;> decide
  obtain ⟨op, hop⟩ : ∃ op, Clox.Pratt.binaryOp t.type.toClox = some op := by
    revert ht
    cases t.type <;> simp [Clox.Pratt.binaryOp, Jlox.TokenType.toClox, infixLevel]
  have hv : v.length < n := by
    simp only [List.length_append, List.length_cons] at hn
    omega
  refine reaches_of_infix hrule hp hn hleft fun k c _ hstream hmatches => ?_
  obtain ⟨c₁, he, hstream₁⟩ := h (Clox.getRule t.type.toClox).precedence.next (by omega)
    (by omega) e v rest c (hnext ▸ hderives) (hnext ▸ hfollow) hv hstream
  refine ⟨c₁, ?_, hstream₁⟩
  simp [Clox.Pratt.infixExpr, hmatches.type, hop, he, Jlox.Expr.toClox, Jlox.TokenType.binaryOp]

theorem reaches_or (ht : t.type = .or_) (hp : p.toNat ≤ infixLevel t.type)
    (hlevel : 3 ≤ left.level) (hleft : Reaches parse n p canAssign left u (t :: (v ++ rest)))
    (hderives : e.Derives 2 v) (hn : (u ++ t :: v).length ≤ n) (hfollow : Follow 2 rest) :
    Reaches parse n p canAssign (left.insertLeft t e) (u ++ t :: v) rest := by
  have hv : v.length < n := by
    simp only [List.length_append, List.length_cons] at hn
    omega
  refine reaches_of_infix (by rw [ht]; rfl) hp hn hleft fun k c _ hstream _ => ?_
  obtain ⟨c₁, he, hstream₁⟩ :=
    h .or (by decide) (by decide) e v rest c hderives hfollow hv hstream
  refine ⟨c₁, ?_, hstream₁⟩
  simp [Clox.Pratt.infixExpr, he, Jlox.Expr.toClox_insertLeft_or ht hlevel]

theorem reaches_and (ht : t.type = .and_) (hp : p.toNat ≤ infixLevel t.type) (hwf : left.Wf)
    (hlevel : 4 ≤ left.level) (hleft : Reaches parse n p canAssign left u (t :: (v ++ rest)))
    (hderives : e.Derives 3 v) (hn : (u ++ t :: v).length ≤ n) (hfollow : Follow 3 rest) :
    Reaches parse n p canAssign (left.insertLeft t e) (u ++ t :: v) rest := by
  have hv : v.length < n := by
    simp only [List.length_append, List.length_cons] at hn
    omega
  refine reaches_of_infix (by rw [ht]; rfl) hp hn hleft fun k c _ hstream _ => ?_
  obtain ⟨c₁, he, hstream₁⟩ :=
    h .and (by decide) (by decide) e v rest c hderives hfollow hv hstream
  refine ⟨c₁, ?_, hstream₁⟩
  simp [Clox.Pratt.infixExpr, he, Jlox.Expr.toClox_insertLeft_and ht hlevel hwf]

theorem reaches_call {paren : Jlox.Token N} {arguments : List (Jlox.Expr N Unit)}
    (ht : t.type = .leftParen) (hparen : paren.type = .rightParen) (hp : p.toNat ≤ 8)
    (hsettled : Settled canAssign left (t :: (v ++ [paren] ++ rest)))
    (hleft : Reaches parse n p canAssign left u (t :: (v ++ [paren] ++ rest)))
    (hwf : Jlox.Expr.WfList arguments) (hspells : Jlox.Expr.SpellsList arguments v)
    (hn : (u ++ t :: (v ++ [paren])).length ≤ n) :
    Reaches parse n p canAssign (.call left paren arguments) (u ++ t :: (v ++ [paren])) rest := by
  have hv : v.length < n := by
    simp only [List.length_append, List.length_cons] at hn
    omega
  refine reaches_of_infix (by rw [ht]; rfl) (by rw [ht]; exact hp.trans (by decide)) hn hleft
    fun k c hk hstream _ => ?_
  have hk : v.length ≤ k := le_trans (by simp) hk
  rw [List.append_assoc] at hstream
  obtain ⟨c₁, hes, hstream₁⟩ := argumentList_accepts h hwf hspells hv hk hparen hstream
  refine ⟨c₁, ?_, hstream₁⟩
  simp [Clox.Pratt.infixExpr, hes, Jlox.Expr.toClox, hsettled.fuse_toClox ht]

theorem reaches_callGet {name opening paren : Jlox.Token N} {arguments : List (Jlox.Expr N Unit)}
    (ht : t.type = .dot) (hname : name.type = .identifier) (hopening : opening.type = .leftParen)
    (hparen : paren.type = .rightParen) (hp : p.toNat ≤ 8)
    (hleft : Reaches parse n p canAssign left u
      (t :: (name :: opening :: (v ++ [paren]) ++ rest)))
    (hwf : Jlox.Expr.WfList arguments) (hspells : Jlox.Expr.SpellsList arguments v)
    (hn : (u ++ t :: name :: opening :: (v ++ [paren])).length ≤ n) :
    Reaches parse n p canAssign (.call (.get left name) paren arguments)
      (u ++ t :: name :: opening :: (v ++ [paren])) rest := by
  have hv : v.length < n := by
    simp only [List.length_append, List.length_cons] at hn
    omega
  refine reaches_of_infix (by rw [ht]; rfl) (by rw [ht]; exact hp.trans (by decide)) hn hleft
    fun k c hk hstream _ => ?_
  have hk : v.length ≤ k := by
    simp only [List.length_append, List.length_cons] at hk
    omega
  rw [List.cons_append, List.cons_append, List.append_assoc] at hstream
  obtain ⟨c₁, hconsume, hstream₁, hmatches⟩ := hstream.consume .identifier hname (by decide)
  have hequal : Clox.Pratt.check .equal c₁ = false :=
    hstream₁.check_false .equal (Jlox.nextNot_cons (by simp [hopening]))
  have hcheck : Clox.Pratt.check .leftParen c₁ = true := hstream₁.check_true .leftParen hopening
  obtain ⟨c₂, hadvance, hstream₂, -⟩ := hstream₁.advance (by simp [hopening])
  obtain ⟨c₃, hes, hstream₃⟩ := argumentList_accepts h hwf hspells hv hk hparen hstream₂
  refine ⟨c₃, ?_, hstream₃⟩
  simp only [Jlox.TokenType.toClox] at hconsume
  simp [Clox.Pratt.infixExpr, Clox.Pratt.dot, hconsume, hequal, hcheck, hadvance, hes,
    Jlox.Expr.toClox, Clox.Expr.fuse, hmatches.lexeme]

omit h in
theorem reaches_get {name : Jlox.Token N} (ht : t.type = .dot) (hname : name.type = .identifier)
    (hp : p.toNat ≤ 8) (hleft : Reaches parse n p canAssign left u (t :: ([name] ++ rest)))
    (hn : (u ++ [t, name]).length ≤ n)
    (hsettled : NextNot [.leftParen] rest ∧ (canAssign = true → NextNot [.equal] rest)) :
    Reaches parse n p canAssign (.get left name) (u ++ [t, name]) rest := by
  refine reaches_of_infix (by rw [ht]; rfl) (by rw [ht]; exact hp.trans (by decide)) hn hleft
    fun k c _ hstream _ => ?_
  obtain ⟨c₁, hconsume, hstream₁, hmatches⟩ :=
    Stream.consume hstream .identifier hname (by decide)
  have hequal : (canAssign && Clox.Pratt.check .equal c₁) = false := by
    cases canAssign with
    | false => rfl
    | true => exact hstream₁.check_false .equal (hsettled.2 rfl)
  have hparen : Clox.Pratt.check .leftParen c₁ = false :=
    hstream₁.check_false .leftParen hsettled.1
  refine ⟨c₁, ?_, hstream₁⟩
  simp only [Jlox.TokenType.toClox] at hconsume
  simp only [Clox.Pratt.infixExpr, Clox.Pratt.dot, hconsume, Option.bind_eq_bind,
    Option.bind_some, hequal, hparen, Bool.false_eq_true, if_false, Jlox.Expr.toClox,
    hmatches.lexeme]
  rfl

theorem reaches_set {name equals : Jlox.Token N} (hcan : canAssign = true) (ht : t.type = .dot)
    (hname : name.type = .identifier) (hequals : equals.type = .equal) (hp : p.toNat ≤ 8)
    (hleft : Reaches parse n p canAssign left u (t :: (name :: equals :: v ++ rest)))
    (hwf : e.Wf) (hspells : e.Spells v) (hn : (u ++ t :: name :: equals :: v).length ≤ n)
    (hfollow : Follow 1 rest) :
    Reaches parse n p canAssign (.set left name e) (u ++ t :: name :: equals :: v) rest := by
  have hv : v.length < n := by
    simp only [List.length_append, List.length_cons] at hn
    omega
  refine reaches_of_infix (by rw [ht]; rfl) (by rw [ht]; exact hp.trans (by decide)) hn hleft
    fun k c _ hstream _ => ?_
  obtain ⟨c₁, hconsume, hstream₁, hmatches⟩ :=
    Stream.consume hstream .identifier hname (by decide)
  have hcheck : Clox.Pratt.check .equal c₁ = true := Stream.check_true hstream₁ .equal hequals
  obtain ⟨c₂, hadvance, hstream₂, -⟩ := Stream.advance hstream₁ (by simp [hequals])
  obtain ⟨c₃, he, hstream₃⟩ := h .assignment (by decide) (by decide) e v rest c₂
    ⟨hwf, Jlox.Expr.one_le_level hwf, hspells⟩ hfollow hv hstream₂
  refine ⟨c₃, ?_, hstream₃⟩
  simp only [Jlox.TokenType.toClox] at hconsume
  simp [Clox.Pratt.infixExpr, Clox.Pratt.dot, hconsume, hcan, hcheck, hadvance, he,
    Jlox.Expr.toClox, hmatches.lexeme]

end Operands

omit [Double N] in
/-- An operand is settled before an operator that binds at most as tight. -/
theorem settled_of_operator {ts : List (Jlox.Token N)} (hwf : left.Wf)
    (ht : 4 ≤ infixLevel t.type ∧ infixLevel t.type ≤ left.level ∨
      2 ≤ infixLevel t.type ∧ infixLevel t.type < left.level)
    (hget : ∀ object name, left = .get object name → t.type ≠ .leftParen)
    (hsuper : ∀ keyword method, left = .super_ keyword method () → t.type ≠ .leftParen) :
    Settled canAssign left (t :: ts) := by
  have hequal : t.type ≠ .equal := fun heq => by
    rw [heq, show infixLevel .equal = 1 from rfl] at ht
    omega
  cases left with
  | assign | set =>
    simp only [Jlox.Expr.level] at ht
    omega
  | logical a op b =>
    have hle : infixLevel op.type ≤ 3 := by rcases hwf.1 with h | h <;> rw [h] <;> decide
    simp only [Jlox.Expr.level] at ht
    exact Jlox.follow_cons (by omega)
  | binary | unary =>
    simp only [Jlox.Expr.level] at ht
    have hne : infixLevel t.type ≠ 8 := by cases t.type <;> decide
    exact Jlox.follow_cons (by omega)
  | get object name =>
    exact ⟨Jlox.nextNot_cons (by simpa using hget object name rfl),
      fun _ => Jlox.nextNot_cons (by simpa using hequal)⟩
  | super_ keyword method _ => exact Jlox.nextNot_cons (by simpa using hsuper keyword method rfl)
  | variable_ => exact fun _ => Jlox.nextNot_cons (by simpa using hequal)
  | call | grouping | literal | this_ => trivial

/-- The loop comes to every expression of the level, if it is settled at the end. -/
theorem reaches (h : AcceptsAll n parse) (hp₁ : 1 ≤ p.toNat) (hp₈ : p.toNat ≤ 8)
    (hcan : p.toNat ≤ 1 → canAssign = true) :
    ∀ (k : ℕ) (e : Jlox.Expr N Unit) (used rest : List (Jlox.Token N)), used.length = k →
      e.Derives p.toNat used → Settled canAssign e rest → used.length ≤ n →
      Reaches parse n p canAssign e used rest := by
  intro k
  induction k using Nat.strong_induction_on with
  | _ k ih =>
  intro e used rest hk hderives hsettled hn
  obtain ⟨hwf, hlevel, hspells⟩ := hderives
  have hlt {u v : List (Jlox.Token N)} {t : Jlox.Token N} (hused : used = u ++ t :: v) :
      u.length < k ∧ u.length ≤ n := by
    subst hused
    simp only [List.length_append, List.length_cons] at hk hn
    omega
  cases e with
  | literal value =>
    obtain ⟨t, rfl, ht⟩ := hspells
    exact reaches_literal ht
  | variable_ name _ =>
    obtain rfl := hspells
    exact reaches_variable hwf hsettled
  | this_ keyword _ =>
    obtain rfl := hspells
    exact reaches_this hwf
  | super_ keyword method _ =>
    obtain ⟨dot, rfl, hdot⟩ := hspells
    exact reaches_super hwf.1 hdot hwf.2 hsettled
  | grouping e =>
    obtain ⟨opening, v, closing, rfl, hopening, hclosing, hv⟩ := hspells
    refine reaches_grouping h hopening hclosing hwf hv ?_
    simp only [List.length_append, List.length_cons] at hn
    omega
  | assign name value _ =>
    obtain ⟨equals, v, rfl, hequals, hv⟩ := hspells
    refine reaches_assign h (hcan hlevel) hwf.1 hequals hwf.2 hv ?_ hsettled
    simp only [List.length_cons] at hn
    omega
  | unary operator right =>
    obtain ⟨v, rfl, hv⟩ := hspells
    refine reaches_unary h hwf.1 ⟨hwf.2.1, hwf.2.2, hv⟩ ?_ hsettled
    simpa using hn
  | binary left operator right =>
    obtain ⟨hop, ⟨hlwf, hllevel⟩, hrwf, hrlevel⟩ := hwf
    obtain ⟨u, v, rfl, hu, hv⟩ := hspells
    obtain ⟨hlt, hle⟩ := hlt rfl
    refine reaches_binary h hop hlevel ?_ ⟨hrwf, hrlevel, hv⟩ hn hsettled
    refine ih _ hlt left u _ rfl ⟨hlwf, hlevel.trans hllevel, hu⟩ ?_ hle
    have hparen : operator.type ≠ .leftParen := fun heq => by
      rw [heq] at hop
      exact absurd hop (by decide)
    exact settled_of_operator hlwf (.inl ⟨hop.1, hllevel⟩) (fun _ _ _ => hparen)
      fun _ _ _ => hparen
  | logical left operator right =>
    obtain ⟨l, t, r, u, v, rfl, ht, hinsert, hl, hr⟩ :=
      Jlox.Expr.exists_insertLeft left operator right hwf hspells
    obtain ⟨hlt, hle⟩ := hlt rfl
    have hlower : 2 ≤ infixLevel t.type := by
      rcases hwf.1 with h | h <;> rw [ht, h] <;> decide
    have hleft : Reaches parse n p canAssign l u (t :: (v ++ rest)) := by
      refine ih _ hlt l u _ rfl ⟨hl.wf, (hlevel.trans (Nat.le_succ _)).trans hl.level, hl.spells⟩ ?_
        hle
      have hparen : t.type ≠ .leftParen := by
        rcases hwf.1 with h | h <;> simp [ht, h]
      exact settled_of_operator hl.wf (.inr ⟨hlower, ht ▸ hl.level⟩) (fun _ _ _ => hparen)
        fun _ _ _ => hparen
    rw [← hinsert]
    rw [Jlox.Expr.level, ← ht] at hlevel
    rcases hwf.1 with hop | hop <;> rw [Settled, hop] at hsettled <;> rw [hop] at ht hl hr
    · exact reaches_or h ht hlevel hl.level hleft hr hn hsettled
    · exact reaches_and h ht hlevel hl.wf hl.level hleft hr hn hsettled
  | get object name =>
    obtain ⟨hname, hobject⟩ := hwf
    obtain ⟨u, dot, rfl, hdot, hu⟩ := hspells
    obtain ⟨hlt, hle⟩ := hlt rfl
    refine reaches_get hdot hname hp₈ ?_ hn hsettled
    refine ih _ hlt object u _ rfl ⟨hobject.1, (by omega : p.toNat ≤ 9).trans hobject.2, hu⟩ ?_ hle
    exact settled_of_operator hobject.1 (.inl (by rw [hdot]; exact ⟨by decide, hobject.2⟩))
      (by simp [hdot]) (by simp [hdot])
  | set object name value =>
    obtain ⟨hname, hobject, hvalue⟩ := hwf
    obtain ⟨u, dot, equals, v, rfl, hdot, hequals, hu, hv⟩ := hspells
    obtain ⟨hlt, hle⟩ := hlt rfl
    refine reaches_set h (hcan hlevel) hdot hname hequals hp₈ ?_ hvalue hv hn hsettled
    refine ih _ hlt object u _ rfl ⟨hobject.1, (by omega : p.toNat ≤ 9).trans hobject.2, hu⟩ ?_ hle
    exact settled_of_operator hobject.1 (.inl (by rw [hdot]; exact ⟨by decide, hobject.2⟩))
      (by simp [hdot]) (by simp [hdot])
  | call callee paren arguments =>
    obtain ⟨hparen, ⟨hcwf, hclevel⟩, harguments⟩ := hwf
    obtain ⟨u, opening, v, rfl, hopening, hu, hv⟩ := hspells
    by_cases hget : ∃ object name, callee = .get object name
    · obtain ⟨object, name, rfl⟩ := hget
      obtain ⟨hname, hobject⟩ := hcwf
      obtain ⟨u, dot, rfl, hdot, hu⟩ := hu
      have hused : u ++ [dot, name] ++ opening :: (v ++ [paren]) =
          u ++ dot :: name :: opening :: (v ++ [paren]) := by simp
      obtain ⟨hlt, hle⟩ := hlt hused
      rw [hused] at hn ⊢
      refine reaches_callGet h hdot hname hopening hparen hp₈ ?_ harguments hv hn
      refine ih _ hlt object u _ rfl ⟨hobject.1, (by omega : p.toNat ≤ 9).trans hobject.2, hu⟩ ?_
        hle
      exact settled_of_operator hobject.1 (.inl (by rw [hdot]; exact ⟨by decide, hobject.2⟩))
        (by simp [hdot]) (by simp [hdot])
    by_cases hsuper : ∃ keyword method, callee = .super_ keyword method ()
    · obtain ⟨keyword, method, rfl⟩ := hsuper
      obtain ⟨dot, rfl, hdot⟩ := hu
      refine reaches_callSuper h hcwf.1 hdot hcwf.2 hopening hparen harguments hv ?_
      simp only [List.length_append, List.length_cons] at hn
      omega
    have hsettled {ts : List (Jlox.Token N)} : Settled canAssign callee (opening :: ts) :=
      settled_of_operator hcwf (.inl (by rw [hopening]; exact ⟨by decide, hclevel⟩))
        (fun object name heq => absurd ⟨object, name, heq⟩ hget)
        fun keyword method heq => absurd ⟨keyword, method, heq⟩ hsuper
    obtain ⟨hlt, hle⟩ := hlt rfl
    refine reaches_call h hopening hparen hp₈ hsettled ?_ harguments hv hn
    exact ih _ hlt callee u _ rfl ⟨hcwf, (by omega : p.toNat ≤ 9).trans hclevel, hu⟩ hsettled hle

end Reaches

omit [Double N] in
/-- What follows an expression at its level leaves it settled. -/
theorem settled_of_follow {p : ℕ} {e : Jlox.Expr N Unit} {rest : List (Jlox.Token N)}
    (hp : p ≤ 8) (hlevel : p ≤ e.level) (hfollow : Follow p rest) :
    Settled (decide (p ≤ 1)) e rest := by
  have hequal (h : decide (p ≤ 1) = true) : NextNot [.equal] rest := fun t ht hmem => by
    have hlt := hfollow t ht
    rw [List.mem_singleton.1 hmem, show infixLevel .equal = 1 from rfl] at hlt
    have hle := of_decide_eq_true h
    omega
  have hparen : NextNot [.leftParen] rest := fun t ht hmem => by
    have hlt := hfollow t ht
    rw [List.mem_singleton.1 hmem, show infixLevel .leftParen = 9 from rfl] at hlt
    omega
  cases e with
  | assign | set | logical | unary => exact hfollow.mono hlevel
  | binary => exact hfollow.mono (hlevel.trans (Nat.le_succ _))
  | get => exact ⟨hparen, hequal⟩
  | super_ => exact hparen
  | variable_ => exact hequal
  | call | grouping | literal | this_ => trivial

theorem parsePrecedence_eq_start (n : ℕ) (p : Precedence) (c : Cursor) :
    Clox.Pratt.parsePrecedence (N := N) (n + 1) p c =
      (start (Clox.Pratt.parsePrecedence n) n p (decide (p.toNat ≤ 1)) c).bind fun x =>
        if decide (p.toNat ≤ 1) && Clox.Pratt.check .equal x.2 then none else some x := by
  simp only [Clox.Pratt.parsePrecedence, start, Option.bind_eq_bind, Option.bind_assoc]
  rfl

/-- The Pratt parser reads every expression of the grammar. -/
theorem parsePrecedence_accepts (n : ℕ) :
    AcceptsAll n (Clox.Pratt.parsePrecedence (N := N) n) := by
  induction n with
  | zero =>
    intro p _ _ e used rest c _ _ hn
    exact absurd hn (Nat.not_lt_zero _)
  | succ n ih =>
    intro p hp₁ hp₈ e used rest c hderives hfollow hn hstream
    have hsettled := settled_of_follow hp₈ hderives.level hfollow
    obtain ⟨m, c₁, hm, hstream₁, hstart⟩ := reaches ih hp₁ hp₈ (decide_eq_true ·) used.length e
      used rest rfl hderives hsettled (by omega) c hstream
    obtain ⟨t, ts, rfl⟩ := hstream₁.exists_cons
    obtain ⟨k, rfl⟩ : ∃ k, m = k + 1 := ⟨m - 1, by omega⟩
    refine ⟨c₁, ?_, hstream₁⟩
    have hlt : infixLevel t.type < p.toNat := hfollow.head
    have hstop : ¬ p.toNat ≤ (Clox.getRule c₁.current.type).precedence.toNat := by
      rw [hstream₁.current.type, precedence_toClox]
      split <;> omega
    have hcheck : ¬ (decide (p.toNat ≤ 1) && Clox.Pratt.check .equal c₁) = true := by
      rw [show Clox.TokenType.equal = Jlox.TokenType.equal.toClox from rfl, hstream₁.check]
      intro hboth
      simp only [Bool.and_eq_true, decide_eq_true_eq] at hboth
      rw [hboth.2, show infixLevel .equal = 1 from rfl] at hlt
      omega
    rw [parsePrecedence_eq_start, hstart, Clox.Pratt.infixLoop, if_neg hstop, Option.bind_some,
      if_neg hcheck]

end Lox
