import Lox.Clox.Pratt
import Lox.Jlox.Grammar

/-!
# One source for both parsers

* `Matches` relates a token of clox to the token of jlox that was scanned from the same text.
* `Stream` says that a cursor of clox is in front of tokens that match those of jlox.
* `Expr.toClox` is the tree that clox walks for an expression of jlox.  Chains of `and` and of `or`
  are nested to the right, and calls of properties and of `super` are one node.
-/

namespace Lox

open Clox (Double Cursor)

variable {N D : Type}

/-- The same type of token in clox. -/
def Jlox.TokenType.toClox : Jlox.TokenType → Clox.TokenType
  | .leftParen => .leftParen
  | .rightParen => .rightParen
  | .leftBrace => .leftBrace
  | .rightBrace => .rightBrace
  | .comma => .comma
  | .dot => .dot
  | .minus => .minus
  | .plus => .plus
  | .semicolon => .semicolon
  | .slash => .slash
  | .star => .star
  | .bang => .bang
  | .bangEqual => .bangEqual
  | .equal => .equal
  | .equalEqual => .equalEqual
  | .greater => .greater
  | .greaterEqual => .greaterEqual
  | .less => .less
  | .lessEqual => .lessEqual
  | .identifier => .identifier
  | .string => .string
  | .number => .number
  | .and_ => .and_
  | .class_ => .class_
  | .else_ => .else_
  | .false_ => .false_
  | .fun_ => .fun_
  | .for_ => .for_
  | .if_ => .if_
  | .nil_ => .nil_
  | .or_ => .or_
  | .print_ => .print_
  | .return_ => .return_
  | .super_ => .super_
  | .this_ => .this_
  | .true_ => .true_
  | .var_ => .var_
  | .while_ => .while_
  | .eof => .eof

theorem Jlox.TokenType.toClox_injective : Function.Injective Jlox.TokenType.toClox := by
  intro a b h
  revert h
  cases a <;> cases b <;> decide

theorem Jlox.TokenType.toClox_ne_error (type : Jlox.TokenType) : type.toClox ≠ .error := by
  cases type <;> decide

/-! ### Tokens -/

/-- The two tokens are scanned from the same text. -/
structure Matches [Double N] (t : Clox.Token) (u : Jlox.Token N) : Prop where
  type : t.type = u.type.toClox
  lexeme : t.lexeme = u.lexeme
  number : u.type = .number → u.literal = .number (Double.strtod t.start)
  string : u.type = .string → u.literal = .string (Clox.stringContents t)

/-- The token that a cursor comes to after `i` others. -/
def Clox.Cursor.upcoming (c : Cursor) : ℕ → Clox.Token
  | 0 => c.current
  | i + 1 => (c.scanner.pending[i]?).getD c.scanner.eofToken

/-- The cursor is in front of these tokens, the last of which is the end. -/
structure Stream [Double N] (c : Cursor) (ts : List (Jlox.Token N)) : Prop where
  tokens : ∀ i t, ts[i]? = some t → Matches (c.upcoming i) t
  ends : ∃ t, ts.getLast? = some t ∧ t.type = .eof

section Stream

variable [Double N] {c : Cursor} {t : Jlox.Token N} {ts : List (Jlox.Token N)}

theorem Stream.current (h : Stream c (t :: ts)) : Matches c.current t := h.tokens 0 t rfl

theorem Stream.exists_cons {ts : List (Jlox.Token N)} (h : Stream c ts) :
    ∃ t rest, ts = t :: rest := by
  obtain ⟨t, ht, -⟩ := h.ends
  cases ts with
  | nil => cases ht
  | cons t rest => exact ⟨t, rest, rfl⟩

theorem Stream.tail_ne_nil (h : Stream c (t :: ts)) (ht : t.type ≠ .eof) : ts ≠ [] := by
  rintro rfl
  obtain ⟨u, hu, heof⟩ := h.ends
  obtain rfl : t = u := by simpa using hu
  exact ht heof

theorem Clox.Cursor.upcoming_succ {c c' : Cursor} (h : Clox.Pratt.advance c = some c') (i : ℕ) :
    c.upcoming (i + 1) = c'.upcoming i := by
  unfold Clox.Pratt.advance Clox.Scanner.scanToken at h
  cases hp : c.scanner.pending with
  | nil =>
    simp only [hp] at h
    split at h
    · cases h
    · obtain rfl := Option.some.inj h
      cases i <;> simp [Clox.Cursor.upcoming, hp, Clox.Scanner.eofToken]
  | cons u us =>
    simp only [hp] at h
    split at h
    · cases h
    · obtain rfl := Option.some.inj h
      cases i <;> simp [Clox.Cursor.upcoming, hp, Clox.Scanner.eofToken]

/-- One token further. -/
theorem Stream.step {c' : Cursor} (h : Stream c (t :: ts)) (ht : t.type ≠ .eof)
    (hc : Clox.Pratt.advance c = some c') : Stream c' ts := by
  refine ⟨fun i u hu => ?_, ?_⟩
  · rw [← Clox.Cursor.upcoming_succ hc]
    exact h.tokens (i + 1) u hu
  · obtain ⟨u, hu, heof⟩ := h.ends
    refine ⟨u, ?_, heof⟩
    obtain ⟨v, vs, rfl⟩ := List.exists_cons_of_ne_nil (h.tail_ne_nil ht)
    rw [← hu]
    simp

theorem advance_previous {c c' : Cursor} (h : Clox.Pratt.advance c = some c') :
    c'.previous = c.current := by
  unfold Clox.Pratt.advance at h
  simp only at h
  split at h
  · cases h
  · obtain rfl := Option.some.inj h
    rfl

/-- A token that is not the end can be left behind. -/
theorem Stream.advance (h : Stream c (t :: ts)) (ht : t.type ≠ .eof) :
    ∃ c', Clox.Pratt.advance c = some c' ∧ Stream c' ts ∧ Matches c'.previous t := by
  obtain ⟨u, us, rfl⟩ := List.exists_cons_of_ne_nil (h.tail_ne_nil ht)
  have hnext : Matches (c.scanner.scanToken).1 u := by
    have hu := h.tokens 1 u rfl
    unfold Clox.Scanner.scanToken
    cases hp : c.scanner.pending <;> simpa [Clox.Cursor.upcoming, hp] using hu
  have hadvance : Clox.Pratt.advance c =
      some ⟨(c.scanner.scanToken).1, c.current, (c.scanner.scanToken).2⟩ := by
    unfold Clox.Pratt.advance
    simp only
    rw [if_neg]
    rw [hnext.type]
    exact u.type.toClox_ne_error
  exact ⟨_, hadvance, h.step ht hadvance, h.current⟩

theorem Stream.check (h : Stream c (t :: ts)) (type : Jlox.TokenType) :
    Clox.Pratt.check type.toClox c = decide (t.type = type) := by
  unfold Clox.Pratt.check
  rw [h.current.type]
  congr 1
  exact propext Jlox.TokenType.toClox_injective.eq_iff

end Stream

/-! ### Trees -/

namespace Clox.Expr

/-- A chain of `or`, with one more operand. -/
def joinOr : Expr N → Expr N → Expr N
  | .or_ a b, c => .or_ a (joinOr b c)
  | a, c => .or_ a c

/-- A chain of `and`, with one more operand. -/
def joinAnd : Expr N → Expr N → Expr N
  | .and_ a b, c => .and_ a (joinAnd b c)
  | a, c => .and_ a c

/-- A call; that of a property or of `super` is one node. -/
def fuse : Expr N → List (Expr N) → Expr N
  | .get object name, arguments => .invoke object name arguments
  | .super_ method, arguments => .superInvoke method arguments
  | callee, arguments => .call callee arguments

mutual

/-- No call has more than 255 arguments. -/
def Fits : Expr N → Prop
  | .nil | .true_ | .false_ | .number _ | .string _ | .variable_ _ | .this_ | .super_ _ => True
  | .grouping e | .unary _ e | .assign _ e | .get e _ => e.Fits
  | .binary _ a b | .and_ a b | .or_ a b | .set a _ b => a.Fits ∧ b.Fits
  | .call e es | .invoke e _ es => e.Fits ∧ es.length ≤ 255 ∧ FitsList es
  | .superInvoke _ es => es.length ≤ 255 ∧ FitsList es

/-- No call in the trees has more than 255 arguments. -/
def FitsList : List (Expr N) → Prop
  | [] => True
  | e :: es => e.Fits ∧ FitsList es

end

end Clox.Expr

namespace Jlox

/-- The binary operator of a token. -/
def TokenType.binaryOp (type : TokenType) : Clox.BinaryOp :=
  (Clox.Pratt.binaryOp type.toClox).getD .plus

/-- The unary operator of a token. -/
def TokenType.unaryOp (type : TokenType) : Clox.UnaryOp :=
  (Clox.Pratt.unaryOp type.toClox).getD .not

/-- The expression for a literal. -/
def Literal.toClox : Literal N → Clox.Expr N
  | .nil => .nil
  | .bool true => .true_
  | .bool false => .false_
  | .number n => .number n
  | .string s => .string s

mutual

/-- The tree that clox walks. -/
def Expr.toClox : Expr N D → Clox.Expr N
  | .assign name value _ => .assign name.lexeme value.toClox
  | .binary left operator right => .binary operator.type.binaryOp left.toClox right.toClox
  | .call callee _ arguments => callee.toClox.fuse (Expr.toCloxList arguments)
  | .get object name => .get object.toClox name.lexeme
  | .grouping e => .grouping e.toClox
  | .literal value => value.toClox
  | .logical left operator right =>
      if operator.type = .or_ then left.toClox.joinOr right.toClox
      else left.toClox.joinAnd right.toClox
  | .set object name value => .set object.toClox name.lexeme value.toClox
  | .super_ _ method _ => .super_ method.lexeme
  | .this_ _ _ => .this_
  | .unary operator right => .unary operator.type.unaryOp right.toClox
  | .variable_ name _ => .variable_ name.lexeme

/-- The trees that clox walks. -/
def Expr.toCloxList : List (Expr N D) → List (Clox.Expr N)
  | [] => []
  | e :: es => e.toClox :: Expr.toCloxList es

end

theorem Expr.length_toCloxList (es : List (Expr N D)) :
    (Expr.toCloxList es).length = es.length := by
  induction es with
  | nil => rfl
  | cons e es ih => simp [Expr.toCloxList, ih]

end Jlox

namespace Clox.Expr

theorem fits_joinOr (a b : Expr N) : (a.joinOr b).Fits ↔ a.Fits ∧ b.Fits := by
  fun_induction joinOr a b with
  | case1 c a b ih => simp only [Fits, ih, and_assoc]
  | case2 a c _ => simp only [Fits]

theorem fits_joinAnd (a b : Expr N) : (a.joinAnd b).Fits ↔ a.Fits ∧ b.Fits := by
  fun_induction joinAnd a b with
  | case1 c a b ih => simp only [Fits, ih, and_assoc]
  | case2 a c _ => simp only [Fits]

theorem fits_fuse (a : Expr N) (es : List (Expr N)) :
    (a.fuse es).Fits ↔ a.Fits ∧ es.length ≤ 255 ∧ FitsList es := by
  cases a <;> simp [fuse, Fits]

end Clox.Expr

mutual

theorem Jlox.Expr.fits_toClox : ∀ e : Jlox.Expr N D, e.toClox.Fits ↔ e.Fits
  | .assign _ value _ => Jlox.Expr.fits_toClox value
  | .binary left _ right =>
    and_congr (Jlox.Expr.fits_toClox left) (Jlox.Expr.fits_toClox right)
  | .call callee _ arguments => by
    simp only [Jlox.Expr.toClox, Clox.Expr.fits_fuse, Jlox.Expr.Fits, Jlox.Expr.length_toCloxList,
      Jlox.Expr.fits_toClox callee, Jlox.Expr.fits_toCloxList arguments]
  | .get object _ => Jlox.Expr.fits_toClox object
  | .grouping e => Jlox.Expr.fits_toClox e
  | .literal .nil => Iff.rfl
  | .literal (.bool true) => Iff.rfl
  | .literal (.bool false) => Iff.rfl
  | .literal (.number _) => Iff.rfl
  | .literal (.string _) => Iff.rfl
  | .logical left operator right => by
    simp only [Jlox.Expr.toClox, Jlox.Expr.Fits]
    split
    · rw [Clox.Expr.fits_joinOr, Jlox.Expr.fits_toClox left, Jlox.Expr.fits_toClox right]
    · rw [Clox.Expr.fits_joinAnd, Jlox.Expr.fits_toClox left, Jlox.Expr.fits_toClox right]
  | .set object _ value =>
    and_congr (Jlox.Expr.fits_toClox object) (Jlox.Expr.fits_toClox value)
  | .super_ _ _ _ => Iff.rfl
  | .this_ _ _ => Iff.rfl
  | .unary _ right => Jlox.Expr.fits_toClox right
  | .variable_ _ _ => Iff.rfl

theorem Jlox.Expr.fits_toCloxList : ∀ es : List (Jlox.Expr N D),
    Clox.Expr.FitsList (Jlox.Expr.toCloxList es) ↔ Jlox.Expr.FitsList es
  | [] => Iff.rfl
  | e :: es => and_congr (Jlox.Expr.fits_toClox e) (Jlox.Expr.fits_toCloxList es)

end

/-! ### Chains -/

namespace Clox.Expr

theorem exists_joinOr (a b : Expr N) : ∃ x y, a.joinOr b = .or_ x y := by
  fun_cases joinOr a b <;> exact ⟨_, _, rfl⟩

theorem exists_joinAnd (a b : Expr N) : ∃ x y, a.joinAnd b = .and_ x y := by
  fun_cases joinAnd a b <;> exact ⟨_, _, rfl⟩

theorem joinOr_eq {a : Expr N} (h : ∀ x y, a ≠ .or_ x y) (b : Expr N) : a.joinOr b = .or_ a b := by
  rw [joinOr]
  exact h

theorem joinAnd_eq {a : Expr N} (h : ∀ x y, a ≠ .and_ x y) (b : Expr N) :
    a.joinAnd b = .and_ a b := by
  rw [joinAnd]
  exact h

theorem joinOr_assoc (a b c : Expr N) : (a.joinOr b).joinOr c = a.joinOr (b.joinOr c) := by
  fun_induction joinOr a b with
  | case1 b x y ih => simp only [joinOr, ih]
  | case2 b a h => simp only [joinOr, joinOr_eq h]

theorem joinAnd_assoc (a b c : Expr N) : (a.joinAnd b).joinAnd c = a.joinAnd (b.joinAnd c) := by
  fun_induction joinAnd a b with
  | case1 b x y ih => simp only [joinAnd, ih]
  | case2 b a h => simp only [joinAnd, joinAnd_eq h]

theorem exists_fuse (a : Expr N) (es : List (Expr N)) :
    a.fuse es = .call a es ∨ (∃ object name, a.fuse es = .invoke object name es) ∨
      ∃ method, a.fuse es = .superInvoke method es := by
  fun_cases fuse a es
  · exact .inr (.inl ⟨_, _, rfl⟩)
  · exact .inr (.inr ⟨_, rfl⟩)
  · exact .inl rfl

theorem fuse_eq {a : Expr N} (hget : ∀ object name, a ≠ .get object name)
    (hsuper : ∀ method, a ≠ .super_ method) (es : List (Expr N)) : a.fuse es = .call a es := by
  rw [fuse]
  · exact hget
  · exact hsuper

end Clox.Expr

namespace Jlox.Expr

/-- One more operand before a chain of the operator. -/
def insertLeft (left : Expr N D) (operator : Token N) : Expr N D → Expr N D
  | .logical a op b =>
      if op.type = operator.type then .logical (insertLeft left operator a) op b
      else .logical left operator (.logical a op b)
  | e => .logical left operator e

theorem toClox_ne_or {e : Expr N D} (h : 3 ≤ e.level) (x y : Clox.Expr N) :
    e.toClox ≠ .or_ x y := by
  cases e with
  | logical a operator b =>
    have hne : operator.type ≠ .or_ := fun heq => by simp [level, heq, infixLevel] at h
    obtain ⟨u, v, huv⟩ := Clox.Expr.exists_joinAnd a.toClox b.toClox
    simp [toClox, hne, huv]
  | call callee paren arguments =>
    obtain h | ⟨_, _, h⟩ | ⟨_, h⟩ := Clox.Expr.exists_fuse callee.toClox (toCloxList arguments) <;>
      simp [toClox, h]
  | literal value => fun_cases Literal.toClox value <;> simp [toClox, Literal.toClox]
  | _ => simp [toClox]

theorem toClox_ne_and {e : Expr N D} (h : 4 ≤ e.level) (hwf : e.Wf) (x y : Clox.Expr N) :
    e.toClox ≠ .and_ x y := by
  cases e with
  | logical a operator b =>
    obtain heq | heq := hwf.1 <;> simp [level, heq, infixLevel] at h
  | call callee paren arguments =>
    obtain h | ⟨_, _, h⟩ | ⟨_, h⟩ := Clox.Expr.exists_fuse callee.toClox (toCloxList arguments) <;>
      simp [toClox, h]
  | literal value => fun_cases Literal.toClox value <;> simp [toClox, Literal.toClox]
  | _ => simp [toClox]

theorem one_le_level : ∀ {e : Expr N D}, e.Wf → 1 ≤ e.level
  | .binary _ _ _, hwf => le_trans (by decide) hwf.1.1
  | .logical _ _ _, hwf => by rcases hwf.1 with h | h <;> simp [level, h, infixLevel]
  | .assign _ _ _, _ | .set _ _ _, _ | .unary _ _, _ | .call _ _ _, _ | .get _ _, _
  | .grouping _, _ | .literal _, _ | .super_ _ _ _, _ | .this_ _ _, _ | .variable_ _ _, _ => by
    simp [level]

/-- An expression at the level of a logical operator is a chain of it. -/
theorem exists_logical_of_level {e : Expr N D} {operator : Token N}
    (hop : operator.type = .or_ ∨ operator.type = .and_) (hwf : e.Wf)
    (hlevel : e.level = infixLevel operator.type) :
    ∃ a op b, e = .logical a op b ∧ op.type = operator.type := by
  have hle : 2 ≤ infixLevel operator.type ∧ infixLevel operator.type ≤ 3 := by
    rcases hop with h | h <;> rw [h] <;> decide
  cases e with
  | logical a op b =>
    refine ⟨a, op, b, rfl, ?_⟩
    rw [level] at hlevel
    rcases hop with h | h <;> rcases hwf.1 with h' | h' <;> simp_all [infixLevel]
  | binary a op b =>
    have hge := hwf.1.1
    rw [level] at hlevel
    omega
  | _ =>
    rw [level] at hlevel
    omega

section InsertLeft

variable {left : Expr N D} {operator : Token N} {u : List (Token N)}

theorem spells_insertLeft (hleft : left.Spells u) :
    ∀ {e : Expr N D} {v : List (Token N)}, e.Spells v →
      (insertLeft left operator e).Spells (u ++ operator :: v) := by
  intro e v h
  fun_induction insertLeft left operator e generalizing v with
  | case1 a op b hop ih =>
    obtain ⟨w, x, rfl, ha, hb⟩ := h
    exact ⟨u ++ operator :: w, x, by simp, ih ha, hb⟩
  | case2 a op b hop => exact ⟨u, v, rfl, hleft, h⟩
  | case3 e => exact ⟨u, v, rfl, hleft, h⟩

theorem level_insertLeft (e : Expr N D) :
    (insertLeft left operator e).level = infixLevel operator.type := by
  fun_cases insertLeft left operator e <;> simp_all [level]

theorem wf_insertLeft (hop : operator.type = .or_ ∨ operator.type = .and_) (hleft : left.Wf)
    (hlevel : infixLevel operator.type < left.level) :
    ∀ {e : Expr N D}, e.Wf → infixLevel operator.type ≤ e.level →
      (insertLeft left operator e).Wf := by
  intro e hwf hle
  fun_induction insertLeft left operator e with
  | case1 a op b heq ih =>
    refine ⟨hwf.1, ⟨ih hwf.2.1.1 (heq ▸ hwf.2.1.2), ?_⟩, hwf.2.2⟩
    rw [level_insertLeft, heq]
  | case2 a op b hne =>
    refine ⟨hop, ⟨hleft, hlevel.le⟩, hwf, lt_of_le_of_ne hle fun heq => ?_⟩
    obtain ⟨_, _, _, he, hop⟩ := exists_logical_of_level hop hwf heq.symm
    cases he
    exact hne hop
  | case3 e hne =>
    refine ⟨hop, ⟨hleft, hlevel.le⟩, hwf, lt_of_le_of_ne hle fun heq => ?_⟩
    obtain ⟨a, op, b, he, -⟩ := exists_logical_of_level hop hwf heq.symm
    exact hne a op b he

theorem toClox_insertLeft_or (hop : operator.type = .or_) (hlevel : 3 ≤ left.level)
    (e : Expr N D) : (insertLeft left operator e).toClox = .or_ left.toClox e.toClox := by
  have hne := toClox_ne_or hlevel
  fun_induction insertLeft left operator e with
  | case1 a op b heq ih =>
    rw [hop] at heq
    simp only [toClox, if_pos heq, ih, Clox.Expr.joinOr]
  | case2 a op b _ => rw [toClox, if_pos hop, Clox.Expr.joinOr_eq hne]
  | case3 e _ => rw [toClox, if_pos hop, Clox.Expr.joinOr_eq hne]

theorem toClox_insertLeft_and (hop : operator.type = .and_) (hlevel : 4 ≤ left.level)
    (hwf : left.Wf) (e : Expr N D) :
    (insertLeft left operator e).toClox = .and_ left.toClox e.toClox := by
  have hne := toClox_ne_and hlevel hwf
  have hor : operator.type ≠ .or_ := by simp [hop]
  fun_induction insertLeft left operator e with
  | case1 a op b heq ih =>
    have hor' : op.type ≠ .or_ := heq ▸ hor
    simp only [toClox, if_neg hor', ih, Clox.Expr.joinAnd]
  | case2 a op b _ => rw [toClox, if_neg hor, Clox.Expr.joinAnd_eq hne]
  | case3 e _ => rw [toClox, if_neg hor, Clox.Expr.joinAnd_eq hne]

end InsertLeft

theorem insertLeft_eq {a b : Expr N D} {op : Token N} (hop : infixLevel op.type < b.level) :
    insertLeft a op b = logical a op b := by
  fun_cases insertLeft a op b
  · rename_i x o y heq
    rw [level, heq] at hop
    omega
  · rfl
  · rfl

/-- The first operand of a chain. -/
theorem exists_insertLeft (a : Expr N D) (op : Token N) (b : Expr N D) {used : List (Token N)}
    (hwf : (logical a op b).Wf) (hspells : (logical a op b).Spells used) :
    ∃ l o r u v, used = u ++ o :: v ∧ o.type = op.type ∧ insertLeft l o r = logical a op b ∧
      l.Derives (infixLevel op.type + 1) u ∧ r.Derives (infixLevel op.type) v := by
  obtain ⟨u', v', rfl, ha, hb⟩ := hspells
  obtain ⟨hop, ⟨hawf, halevel⟩, hbwf, hblevel⟩ := hwf
  by_cases hlevel : a.level = infixLevel op.type
  · -- the left operand is a chain of the same operator
    obtain ⟨x, op₁, y, rfl, heq⟩ := exists_logical_of_level hop hawf hlevel
    obtain ⟨l, o, r, u, v, rfl, ho, hinsert, hl, hr⟩ := exists_insertLeft x op₁ y hawf ha
    rw [heq] at ho hl hr
    refine ⟨l, o, logical r op b, u, v ++ op :: v', by simp, ho, ?_, hl,
      ⟨hop, ⟨hr.wf, hr.level⟩, hbwf, hblevel⟩, le_refl _, ⟨v, v', rfl, hr.spells, hb⟩⟩
    rw [insertLeft, if_pos ho.symm, hinsert]
  · exact ⟨a, op, b, u', v', rfl, rfl, insertLeft_eq hblevel,
      ⟨hawf, by omega, ha⟩, ⟨hbwf, hblevel.le, hb⟩⟩
termination_by sizeOf a

end Jlox.Expr

end Lox
