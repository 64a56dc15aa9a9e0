import Lox.Jlox.Ast

/-!
# The grammar of expressions

Every expression has a level: `1` for assignments, then `or`, `and`, equality, comparison, term,
factor and unary operators, `9` for calls and properties, `10` for what stands alone.

* `Expr.Wf` are the rules for a tree: its tokens are of the right kind, and its parts have the
  levels that precedence and associativity ask for.
* `Expr.Fits` is the limit on arguments.
* `Expr.Spells` are the tokens a tree stands for.  They are those of its nodes, and between them
  any tokens of the right types.
* `infixLevel` is the level at which a token goes on with an expression before it.
-/

namespace Lox.Jlox

variable {N D : Type}

/-- The level at which a token continues an expression that ends before it. -/
def infixLevel : TokenType → ℕ
  | .equal => 1
  | .or_ => 2
  | .and_ => 3
  | .bangEqual | .equalEqual => 4
  | .greater | .greaterEqual | .less | .lessEqual => 5
  | .minus | .plus => 6
  | .slash | .star => 7
  | .leftParen | .dot => 9
  | _ => 0

/-- The token does not go on with an expression of the level. -/
def Follow (level : ℕ) (rest : List (Token N)) : Prop :=
  ∀ t ∈ rest.head?, infixLevel t.type < level

theorem Follow.mono {level level' : ℕ} {rest : List (Token N)} (h : Follow level rest)
    (hle : level ≤ level') : Follow level' rest :=
  fun t ht => (h t ht).trans_le hle

theorem Follow.head {level : ℕ} {t : Token N} {ts : List (Token N)} (h : Follow level (t :: ts)) :
    infixLevel t.type < level := h t rfl

theorem follow_cons {level : ℕ} {t : Token N} {ts : List (Token N)} (h : infixLevel t.type < level) :
    Follow level (t :: ts) := by
  intro u hu
  obtain rfl : t = u := by simpa using hu
  exact h

/-- The next token, if there is one, is none of these. -/
def NextNot (types : List TokenType) (rest : List (Token N)) : Prop :=
  ∀ t ∈ rest.head?, t.type ∉ types

theorem nextNot_cons {types : List TokenType} {t : Token N} {ts : List (Token N)}
    (h : t.type ∉ types) : NextNot types (t :: ts) := by
  intro u hu
  obtain rfl : t = u := by simpa using hu
  exact h

theorem Follow.of_nextNot {level : ℕ} {types : List TokenType} {rest : List (Token N)}
    (h : Follow (level + 1) rest) (hnot : NextNot types rest)
    (htypes : ∀ type, infixLevel type = level → type ∈ types) : Follow level rest := by
  intro t ht
  have hlt := h t ht
  have hne : infixLevel t.type ≠ level := fun heq => hnot t ht (htypes _ heq)
  omega

/-- The token is written for the literal. -/
def Token.IsLiteral (t : Token N) (value : Literal N) : Prop :=
  (t.type = .false_ ∧ value = .bool false) ∨ (t.type = .true_ ∧ value = .bool true) ∨
  (t.type = .nil_ ∧ value = .nil) ∨ ((t.type = .number ∨ t.type = .string) ∧ value = t.literal)

namespace Expr

/-- The level of an expression. -/
def level : Expr N D → ℕ
  | assign _ _ _ | set _ _ _ => 1
  | logical _ operator _ | binary _ operator _ => infixLevel operator.type
  | unary _ _ => 8
  | call _ _ _ | get _ _ => 9
  | grouping _ | literal _ | super_ _ _ _ | this_ _ _ | variable_ _ _ => 10

mutual

/-- The tree obeys the rules of the grammar. -/
def Wf : Expr N D → Prop
  | assign name value _ => name.type = .identifier ∧ value.Wf
  | binary left operator right =>
      (4 ≤ infixLevel operator.type ∧ infixLevel operator.type ≤ 7) ∧
      (left.Wf ∧ infixLevel operator.type ≤ left.level) ∧
      (right.Wf ∧ infixLevel operator.type < right.level)
  | call callee paren arguments =>
      paren.type = .rightParen ∧ (callee.Wf ∧ 9 ≤ callee.level) ∧ WfList arguments
  | get object name => name.type = .identifier ∧ object.Wf ∧ 9 ≤ object.level
  | grouping expression => expression.Wf
  | literal _ => True
  | logical left operator right =>
      (operator.type = .or_ ∨ operator.type = .and_) ∧
      (left.Wf ∧ infixLevel operator.type ≤ left.level) ∧
      (right.Wf ∧ infixLevel operator.type < right.level)
  | set object name value =>
      name.type = .identifier ∧ (object.Wf ∧ 9 ≤ object.level) ∧ value.Wf
  | super_ keyword method _ => keyword.type = .super_ ∧ method.type = .identifier
  | this_ keyword _ => keyword.type = .this_
  | unary operator right =>
      (operator.type = .bang ∨ operator.type = .minus) ∧ right.Wf ∧ 8 ≤ right.level
  | variable_ name _ => name.type = .identifier

/-- All trees obey the rules. -/
def WfList : List (Expr N D) → Prop
  | [] => True
  | e :: es => e.Wf ∧ WfList es

end

mutual

/-- No call has more than 255 arguments. -/
def Fits : Expr N D → Prop
  | assign _ value _ => value.Fits
  | binary left _ right | logical left _ right => left.Fits ∧ right.Fits
  | call callee _ arguments => callee.Fits ∧ arguments.length ≤ 255 ∧ FitsList arguments
  | get object _ => object.Fits
  | grouping expression => expression.Fits
  | set object _ value => object.Fits ∧ value.Fits
  | unary _ right => right.Fits
  | literal _ | super_ _ _ _ | this_ _ _ | variable_ _ _ => True

/-- No call in the trees has more than 255 arguments. -/
def FitsList : List (Expr N D) → Prop
  | [] => True
  | e :: es => e.Fits ∧ FitsList es

end

mutual

/-- The tokens spell the tree. -/
def Spells : Expr N D → List (Token N) → Prop
  | assign name value _, ts =>
      ∃ equals v, ts = name :: equals :: v ∧ equals.type = .equal ∧ value.Spells v
  | binary left operator right, ts =>
      ∃ u v, ts = u ++ operator :: v ∧ left.Spells u ∧ right.Spells v
  | call callee paren arguments, ts =>
      ∃ u opening v, ts = u ++ opening :: (v ++ [paren]) ∧ opening.type = .leftParen ∧
        callee.Spells u ∧ SpellsList arguments v
  | get object name, ts =>
      ∃ u dot, ts = u ++ [dot, name] ∧ dot.type = .dot ∧ object.Spells u
  | grouping expression, ts =>
      ∃ opening v closing, ts = opening :: (v ++ [closing]) ∧ opening.type = .leftParen ∧
        closing.type = .rightParen ∧ expression.Spells v
  | literal value, ts => ∃ t, ts = [t] ∧ t.IsLiteral value
  | logical left operator right, ts =>
      ∃ u v, ts = u ++ operator :: v ∧ left.Spells u ∧ right.Spells v
  | set object name value, ts =>
      ∃ u dot equals v, ts = u ++ dot :: name :: equals :: v ∧ dot.type = .dot ∧
        equals.type = .equal ∧ object.Spells u ∧ value.Spells v
  | super_ keyword method _, ts => ∃ dot, ts = [keyword, dot, method] ∧ dot.type = .dot
  | this_ keyword _, ts => ts = [keyword]
  | unary operator right, ts => ∃ v, ts = operator :: v ∧ right.Spells v
  | variable_ name _, ts => ts = [name]

/-- The tokens spell the trees, with commas between them. -/
def SpellsList : List (Expr N D) → List (Token N) → Prop
  | [], ts => ts = []
  | [e], ts => e.Spells ts
  | e :: es, ts => ∃ u comma v, ts = u ++ comma :: v ∧ comma.type = .comma ∧ e.Spells u ∧
      SpellsList es v

end

@[simp]
theorem spellsList_nil {ts : List (Token N)} : SpellsList ([] : List (Expr N D)) ts ↔ ts = [] := by
  rw [SpellsList]

@[simp]
theorem spellsList_singleton {e : Expr N D} {ts : List (Token N)} :
    SpellsList [e] ts ↔ e.Spells ts := by
  rw [SpellsList]

theorem spellsList_cons {e : Expr N D} {es : List (Expr N D)} (hne : es ≠ [])
    {ts : List (Token N)} :
    SpellsList (e :: es) ts ↔ ∃ u comma v, ts = u ++ comma :: v ∧ comma.type = .comma ∧
      e.Spells u ∧ SpellsList es v := by
  cases es with
  | nil => exact absurd rfl hne
  | cons e' es =>
    rw [SpellsList]
    exact hne

/-- The tree stands for the tokens, at a level or above it. -/
structure Derives (level : ℕ) (e : Expr N D) (used : List (Token N)) : Prop where
  wf : e.Wf
  level : level ≤ e.level
  spells : e.Spells used

theorem Derives.mono {level level' : ℕ} {e : Expr N D} {used : List (Token N)}
    (h : e.Derives level used) (hle : level' ≤ level) : e.Derives level' used :=
  ⟨h.wf, hle.trans h.level, h.spells⟩

/-- The tokens an expression can start with. -/
def starts : TokenType → Bool
  | .false_ | .true_ | .nil_ | .number | .string | .super_ | .this_ | .identifier | .leftParen
  | .bang | .minus => true
  | _ => false

/-- The first token of an expression; above the unary level it is no operator. -/
theorem spells_head : ∀ (e : Expr N D) {used : List (Token N)}, e.Wf → e.Spells used →
    ∃ t tail, used = t :: tail ∧ starts t.type = true ∧
      (9 ≤ e.level → t.type ≠ .bang ∧ t.type ≠ .minus)
  | assign name value _, used, hwf, ⟨equals, v, hused, _, _⟩ =>
    ⟨name, _, hused, by rw [hwf.1]; rfl, by simp [hwf.1]⟩
  | binary left operator right, used, hwf, ⟨u, v, hused, hleft, _⟩ => by
    obtain ⟨t, tail, rfl, ht, -⟩ := spells_head left hwf.2.1.1 hleft
    have hlevel : level (binary left operator right) ≤ 7 := hwf.1.2
    exact ⟨t, _, hused, ht, fun h => by omega⟩
  | call callee paren arguments, used, hwf, ⟨u, opening, v, hused, _, hcallee, _⟩ => by
    obtain ⟨t, tail, rfl, ht, hne⟩ := spells_head callee hwf.2.1.1 hcallee
    exact ⟨t, _, hused, ht, fun _ => hne hwf.2.1.2⟩
  | get object name, used, hwf, ⟨u, dot, hused, _, hobject⟩ => by
    obtain ⟨t, tail, rfl, ht, hne⟩ := spells_head object hwf.2.1 hobject
    exact ⟨t, _, hused, ht, fun _ => hne hwf.2.2⟩
  | grouping e, used, hwf, ⟨opening, v, closing, hused, hopening, _, _⟩ =>
    ⟨opening, _, hused, by rw [hopening]; rfl, by simp [hopening]⟩
  | literal value, used, hwf, ⟨t, hused, ht⟩ => by
    refine ⟨t, [], hused, ?_⟩
    obtain ⟨h, -⟩ | ⟨h, -⟩ | ⟨h, -⟩ | ⟨h | h, -⟩ := ht <;> simp [h, starts]
  | logical left operator right, used, hwf, ⟨u, v, hused, hleft, _⟩ => by
    obtain ⟨t, tail, rfl, ht, -⟩ := spells_head left hwf.2.1.1 hleft
    have hlevel : level (logical left operator right) ≤ 3 := by
      rcases hwf.1 with h | h <;> simp [level, h, infixLevel]
    exact ⟨t, _, hused, ht, fun h => by omega⟩
  | set object name value, used, hwf, ⟨u, dot, equals, v, hused, _, _, hobject, _⟩ => by
    obtain ⟨t, tail, rfl, ht, hne⟩ := spells_head object hwf.2.1.1 hobject
    exact ⟨t, _, hused, ht, fun _ => hne hwf.2.1.2⟩
  | super_ keyword method _, used, hwf, ⟨dot, hused, _⟩ =>
    ⟨keyword, _, hused, by rw [hwf.1]; rfl, by simp [hwf.1]⟩
  | this_ keyword _, used, hwf, hused =>
    ⟨keyword, [], hused, by rw [show keyword.type = .this_ from hwf]; rfl,
      by simp [show keyword.type = .this_ from hwf]⟩
  | unary operator right, used, hwf, ⟨v, hused, _⟩ => by
    refine ⟨operator, v, hused, ?_, fun h => ?_⟩
    · rcases hwf.1 with h | h <;> rw [h] <;> rfl
    · simp [level] at h
  | variable_ name _, used, hwf, hused =>
    ⟨name, [], hused, by rw [show name.type = .identifier from hwf]; rfl,
      by simp [show name.type = .identifier from hwf]⟩

theorem spellsList_head {e : Expr N D} {es : List (Expr N D)} {used : List (Token N)}
    (hwf : WfList (e :: es)) (hspells : SpellsList (e :: es) used) :
    ∃ t tail, used = t :: tail ∧ starts t.type = true := by
  cases es with
  | nil =>
    obtain ⟨t, tail, hused, ht, -⟩ := spells_head e hwf.1 (spellsList_singleton.1 hspells)
    exact ⟨t, tail, hused, ht⟩
  | cons e' es =>
    obtain ⟨u, comma, v, rfl, -, hu, -⟩ := (spellsList_cons (by simp)).1 hspells
    obtain ⟨t, tail, rfl, ht, -⟩ := spells_head e hwf.1 hu
    exact ⟨t, _, rfl, ht⟩

end Expr

end Lox.Jlox
