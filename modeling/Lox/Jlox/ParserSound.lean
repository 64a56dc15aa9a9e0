import Lox.Jlox.Parser
import Lox.Jlox.Grammar

/-!
# What the parser of jlox returns

`Parses f R` is what is known of a function of the parser: errors are never taken back, an exception
comes with an error, and if there was no new error then the tokens that were eaten, the result and
the tokens that are left satisfy `R`.
-/

namespace Lox.Jlox

variable {N α β : Type}

/-- Without a new error, the result and the tokens eaten and left satisfy `R`. -/
def Parses (f : Parse N α) (R : List (Token N) → α → List (Token N) → Prop) : Prop :=
  ∀ p, match f p with
    | .ok a q => p.errors.length ≤ q.errors.length ∧
        (q.errors.length = p.errors.length →
          ∃ used, p.tokens = used ++ q.tokens ∧ R used a q.tokens)
    | .thrown q => p.errors.length < q.errors.length
    | .stuck => True

/-! ### Rules -/

namespace Parses

variable {R : List (Token N) → α → List (Token N) → Prop}
  {T : List (Token N) → β → List (Token N) → Prop}

theorem pure {a : α} (h : ∀ rest, R [] a rest) : Parses (Pure.pure a : Parse N α) R :=
  fun p => ⟨le_refl _, fun _ => ⟨[], rfl, h p.tokens⟩⟩

/-- One after the other: what is known of the first is known when the second is done. -/
theorem bind {f : Parse N α} {g : α → Parse N β} (hf : Parses f R)
    (hg : ∀ a, Parses (g a) fun v b rest => ∀ u, R u a (v ++ rest) → T (u ++ v) b rest) :
    Parses (f >>= g) T := by
  intro p
  have hf := hf p
  change match Parse.bind f g p with | .ok a q => _ | .thrown q => _ | .stuck => _
  unfold Parse.bind
  cases hfp : f p with
  | stuck => trivial
  | thrown q =>
    rw [hfp] at hf
    exact hf
  | ok a q =>
    rw [hfp] at hf
    obtain ⟨hle, hclean⟩ := hf
    have hg := hg a q
    cases hgq : g a q with
    | stuck => simp only [hgq]
    | thrown r =>
      rw [hgq] at hg
      simp only [hgq]
      exact hle.trans_lt hg
    | ok b r =>
      rw [hgq] at hg
      simp only [hgq]
      obtain ⟨hle', hclean'⟩ := hg
      refine ⟨hle.trans hle', fun heq => ?_⟩
      obtain ⟨u, hu, hR⟩ := hclean (by omega)
      obtain ⟨v, hv, hT⟩ := hclean' (by omega)
      refine ⟨u ++ v, by rw [hu, hv, List.append_assoc], hT u ?_⟩
      rw [← hv]
      exact hR

theorem mono {S : List (Token N) → α → List (Token N) → Prop} {f : Parse N α} (hf : Parses f R)
    (h : ∀ used a rest, R used a rest → S used a rest) : Parses f S := by
  intro p
  have hf := hf p
  cases hfp : f p with
  | stuck => trivial
  | thrown q =>
    rw [hfp] at hf
    exact hf
  | ok a q =>
    rw [hfp] at hf
    refine ⟨hf.1, fun heq => ?_⟩
    obtain ⟨used, hused, hR⟩ := hf.2 heq
    exact ⟨used, hused, h used a _ hR⟩

/-- What is known may be left unused. -/
theorem imp {P : List (Token N) → α → List (Token N) → Prop} {f : Parse N α} (hf : Parses f R) :
    Parses f fun used a rest => P used a rest → R used a rest :=
  hf.mono fun _ _ _ h _ => h

theorem stuck : Parses (Parser.stuck : Parse N α) R := fun _ => trivial

/-- After an error nothing is claimed. -/
theorem error (token : Token N) (message : String) :
    Parses (Parser.error token message) fun _ _ _ => False := by
  intro p
  refine ⟨by simp, fun h => ?_⟩
  simp at h

theorem throw_ (token : Token N) (message : String) :
    Parses (Parser.throw_ token message : Parse N α) R := by
  intro p
  simp [Parser.throw_, Parser.error, Bind.bind, Parse.bind]

theorem ite {c : Prop} [Decidable c] {f g : Parse N α} (hf : c → Parses f R)
    (hg : ¬ c → Parses g R) : Parses (if c then f else g) R := by
  split
  · exact hf ‹_›
  · exact hg ‹_›

end Parses

/-! ### Tokens -/

open Jlox.Parser

theorem peek_parses :
    Parses (peek : Parse N (Token N)) fun used t rest => used = [] ∧ rest.head? = some t := by
  intro p
  unfold peek
  cases hp : p.tokens with
  | nil => trivial
  | cons t rest =>
    simp only [le_refl, true_and]
    rw [hp]
    exact fun _ => ⟨[], rfl, rfl, rfl⟩

theorem check_parses (type : TokenType) (htype : type ≠ .eof) :
    Parses (check type : Parse N Bool) fun used b rest => used = [] ∧
      (b = true ↔ ∃ t, rest.head? = some t ∧ t.type = type) := by
  refine Parses.bind peek_parses fun t => Parses.pure ?_
  rintro rest u ⟨rfl, ht⟩
  rw [List.nil_append] at ht
  refine ⟨rfl, ?_⟩
  simp only [ht, Option.some.injEq, exists_eq_left', Bool.and_eq_true, decide_eq_true_eq]
  constructor
  · exact fun h => h.2
  · intro h
    exact ⟨fun heof => htype (h ▸ heof), h⟩

theorem isAtEnd_parses :
    Parses (isAtEnd : Parse N Bool) fun used b rest => used = [] ∧
      (b = true ↔ ∃ t, rest.head? = some t ∧ t.type = .eof) := by
  refine Parses.bind peek_parses fun t => Parses.pure ?_
  rintro rest u ⟨rfl, ht⟩
  rw [List.nil_append] at ht
  refine ⟨rfl, ?_⟩
  simp only [ht, Option.some.injEq, exists_eq_left', decide_eq_true_eq]

theorem advance_parses :
    Parses (advance : Parse N (Token N)) fun used t rest => used = [t] ∨
      (used = [] ∧ ∃ e, rest.head? = some e ∧ e.type = .eof) := by
  intro p
  unfold advance
  cases hp : p.tokens with
  | nil => trivial
  | cons t rest =>
    by_cases heof : t.type = .eof
    · simp only [if_pos heof, previous]
      cases p.before with
      | nil => trivial
      | cons u _ =>
        simp only [le_refl, true_and]
        exact fun _ => ⟨[], by simp [hp], .inr ⟨rfl, t, by simp [hp], heof⟩⟩
    · simp only [if_neg heof, le_refl, true_and]
      exact fun _ => ⟨[t], rfl, .inl rfl⟩

/-- What `match` returns: the token it ate, or none, and then the next one does not match. -/
def Matched (types : List TokenType) (used : List (Token N)) (o : Option (Token N))
    (rest : List (Token N)) : Prop :=
  match o with
  | some t => used = [t] ∧ t.type ∈ types
  | none => used = [] ∧ NextNot types rest

theorem match_parses : ∀ (types : List TokenType), .eof ∉ types →
    Parses (match_ types : Parse N (Option (Token N))) (Matched types)
  | [], _ => Parses.pure fun rest => ⟨rfl, by simp [NextNot]⟩
  | type :: types, heof => by
    obtain ⟨hne, heof'⟩ : TokenType.eof ≠ type ∧ .eof ∉ types := by simpa using heof
    refine Parses.bind (check_parses type hne.symm) fun b => Parses.ite (fun hb => ?_) fun hb => ?_
    · refine Parses.bind advance_parses fun t => Parses.pure ?_
      rintro rest u (rfl | ⟨rfl, e, he, heof⟩) u' ⟨rfl, hiff⟩
      · obtain ⟨t', ht', htype⟩ := hiff.1 hb
        obtain rfl : t = t' := by simpa using ht'
        exact ⟨rfl, by simp [htype]⟩
      · obtain ⟨t', ht', htype⟩ := hiff.1 hb
        obtain rfl : e = t' := by
          simp only [List.nil_append] at ht' he
          rw [he] at ht'
          exact Option.some.inj ht'
        exact absurd (heof.symm.trans htype) hne
    · refine (match_parses types heof').mono ?_
      rintro used o rest h u ⟨rfl, hiff⟩
      cases o with
      | some t => exact ⟨h.1, List.mem_cons_of_mem _ h.2⟩
      | none =>
        obtain ⟨rfl, hnot⟩ := h
        refine ⟨rfl, fun t ht hmem => ?_⟩
        rcases List.mem_cons.1 hmem with htype | hmem
        · exact hb (hiff.2 ⟨t, ht, htype⟩)
        · exact hnot t ht hmem

theorem consume_parses (type : TokenType) (htype : type ≠ .eof) (message : String) :
    Parses (consume type message : Parse N (Token N))
      fun used t _ => used = [t] ∧ t.type = type := by
  refine Parses.bind (check_parses type htype) fun b => Parses.ite (fun hb => ?_) fun hb => ?_
  · refine advance_parses.mono ?_
    rintro used t rest (rfl | ⟨rfl, e, he, heof⟩) u ⟨rfl, hiff⟩
    · obtain ⟨t', ht', h⟩ := hiff.1 hb
      obtain rfl : t = t' := by simpa using ht'
      exact ⟨rfl, h⟩
    · obtain ⟨t', ht', h⟩ := hiff.1 hb
      obtain rfl : e = t' := by
        simp only [List.nil_append] at ht' he
        rw [he] at ht'
        exact Option.some.inj ht'
      exact absurd (h.symm.trans heof) htype
  · exact Parses.bind peek_parses fun t => Parses.throw_ t message

namespace Parses

variable {T : List (Token N) → β → List (Token N) → Prop} {types : List TokenType}
  {type : TokenType}

/-- `match`, and then one way or the other. -/
theorem matching {g : Option (Token N) → Parse N β} (heof : .eof ∉ types)
    (hsome : ∀ t, Parses (g (some t)) fun v b rest => t.type ∈ types → T (t :: v) b rest)
    (hnone : Parses (g none) fun v b rest => NextNot types (v ++ rest) → T v b rest) :
    Parses (match_ types >>= g) T := by
  refine bind (match_parses types heof) fun o => ?_
  cases o with
  | some t =>
    refine (hsome t).mono ?_
    rintro v b rest hT u ⟨rfl, hmem⟩
    exact hT hmem
  | none =>
    refine hnone.mono ?_
    rintro v b rest hT u ⟨rfl, hnot⟩
    exact hT hnot

/-- `if (match(...))`. -/
theorem ifMatch {f g : Parse N β} (heof : .eof ∉ types)
    (hf : ∀ t : Token N, Parses f fun v b rest => t.type ∈ types → T (t :: v) b rest)
    (hg : Parses g fun v b rest => NextNot types (v ++ rest) → T v b rest) :
    Parses (match_ types >>= fun o => if o.isSome then f else g) T :=
  matching heof hf hg

/-- `if (check(...))`. -/
theorem ifCheck {f g : Parse N β} (heof : type ≠ .eof)
    (hf : Parses f fun v b rest => (∃ t, (v ++ rest).head? = some t ∧ t.type = type) → T v b rest)
    (hg : Parses g fun v b rest => NextNot [type] (v ++ rest) → T v b rest) :
    Parses (check type >>= fun b => if b then f else g) T := by
  refine bind (check_parses type heof) fun b => ite (fun hb => ?_) fun hb => ?_
  · refine hf.mono ?_
    rintro v b rest hT u ⟨rfl, hiff⟩
    exact hT (hiff.1 hb)
  · refine hg.mono ?_
    rintro v b rest hT u ⟨rfl, hiff⟩
    refine hT fun t ht hmem => hb (hiff.2 ⟨t, ht, ?_⟩)
    simpa using hmem

/-- `consume`, and then the rest. -/
theorem consuming {message : String} {g : Token N → Parse N β} (heof : type ≠ .eof)
    (hg : ∀ t, Parses (g t) fun v b rest => t.type = type → T (t :: v) b rest) :
    Parses (consume type message >>= g) T := by
  refine bind (consume_parses type heof message) fun t => (hg t).mono ?_
  rintro v b rest hT u ⟨rfl, ht⟩
  exact hT ht

end Parses

/-! ### Expressions -/

/-- The function returns an expression of the level, and eats all that belongs to it. -/
def ParsesAt (level : ℕ) (f : Parse N (Expr N Unit)) : Prop :=
  Parses f fun used e rest => (e.Derives level used ∧ e.Fits) ∧ Follow level rest

theorem follow_ten (rest : List (Token N)) : Follow 10 rest := by
  intro t _
  cases t.type <;> decide

section Expressions

variable {expression : Parse N (Expr N Unit)} (h : ParsesAt 1 expression)

include h

theorem primary_parses :
    Parses (primary expression) fun used e _ => e.Derives 10 used ∧ e.Fits := by
  unfold primary
  refine .ifMatch (by decide) (fun t => .pure fun rest ht => ?_) (.imp ?_)
  · exact ⟨⟨trivial, le_refl _, t, rfl, .inl ⟨List.mem_singleton.1 ht, rfl⟩⟩, trivial⟩
  refine .ifMatch (by decide) (fun t => .pure fun rest ht => ?_) (.imp ?_)
  · exact ⟨⟨trivial, le_refl _, t, rfl, .inr (.inl ⟨List.mem_singleton.1 ht, rfl⟩)⟩, trivial⟩
  refine .ifMatch (by decide) (fun t => .pure fun rest ht => ?_) (.imp ?_)
  · exact ⟨⟨trivial, le_refl _, t, rfl, .inr (.inr (.inl ⟨List.mem_singleton.1 ht, rfl⟩))⟩, trivial⟩
  refine .matching (by decide) (fun t => .pure fun rest ht => ?_) (.imp ?_)
  · exact ⟨⟨trivial, le_refl _, t, rfl, .inr (.inr (.inr ⟨by simpa using ht, rfl⟩))⟩, trivial⟩
  refine .matching (by decide) (fun keyword => ?_) (.imp ?_)
  · refine .consuming (by decide) fun dot => .consuming (by decide) fun method => .pure ?_
    intro rest hmethod hdot hkeyword
    exact ⟨⟨⟨List.mem_singleton.1 hkeyword, hmethod⟩, le_refl _, dot, rfl, hdot⟩, trivial⟩
  refine .matching (by decide) (fun keyword => .pure fun rest ht => ?_) (.imp ?_)
  · exact ⟨⟨List.mem_singleton.1 ht, le_refl _, rfl⟩, trivial⟩
  refine .matching (by decide) (fun name => .pure fun rest ht => ?_) (.imp ?_)
  · exact ⟨⟨List.mem_singleton.1 ht, le_refl _, rfl⟩, trivial⟩
  refine .ifMatch (by decide) (fun opening => ?_) (.imp ?_)
  · refine .bind h fun e => .consuming (by decide) fun closing => .pure ?_
    rintro rest hclosing u ⟨⟨he, hfits⟩, -⟩ hopening
    exact ⟨⟨he.wf, le_refl _, opening, u, closing, rfl, List.mem_singleton.1 hopening, hclosing,
      he.spells⟩, hfits⟩
  · exact .bind peek_parses fun t => .throw_ t _

/-- The arguments of a call: at most 255, with those before them. -/
theorem argumentLoop_parses (n : ℕ) : ∀ size,
    Parses (argumentLoop expression n size) fun used es _ =>
      ((size + es.length ≤ 255 ∧ Expr.FitsList es) ∧ Expr.WfList es) ∧ es ≠ [] ∧
        Expr.SpellsList es used := by
  induction n with
  | zero => exact fun size => .stuck
  | succ n ih =>
    intro size
    unfold argumentLoop
    refine .ite (fun hsize => ?_) fun hsize => ?_
    · refine .bind peek_parses fun t => .bind (.error t _) fun _ => ?_
      refine .bind h fun e => .matching (by decide) (fun comma => .bind (ih (size + 1)) fun es =>
        .pure fun rest v _ _ u _ w hfalse => ?_) (.pure fun rest _ u _ w hfalse => ?_)
      · exact False.elim hfalse
      · exact False.elim hfalse
    · refine .bind h fun e => .matching (by decide) (fun comma => ?_) (.imp (.pure ?_))
      · refine .bind (ih (size + 1)) fun es => .pure ?_
        rintro rest v ⟨⟨⟨hle, hfitss⟩, hwf⟩, hne, hspells⟩ hcomma u ⟨⟨he, hfits⟩, -⟩
        refine ⟨⟨⟨by simp only [List.length_cons]; omega, hfits, hfitss⟩, he.wf, hwf⟩, by simp, ?_⟩
        rw [Expr.spellsList_cons hne]
        exact ⟨u, comma, v, by simp, List.mem_singleton.1 hcomma, he.spells, hspells⟩
      · rintro rest u ⟨⟨he, hfits⟩, -⟩
        refine ⟨⟨⟨by simp only [List.length_singleton]; omega, hfits, trivial⟩, he.wf, trivial⟩,
          by simp, ?_⟩
        simpa using he.spells

/-- The rest of a call, after the opening parenthesis. -/
theorem finishCall_parses (n : ℕ) (callee : Expr N Unit) :
    Parses (finishCall expression n callee) fun used e _ => ∃ v paren arguments,
      used = v ++ [paren] ∧ e = .call callee paren arguments ∧ paren.type = .rightParen ∧
      (arguments.length ≤ 255 ∧ Expr.FitsList arguments) ∧ Expr.WfList arguments ∧
      Expr.SpellsList arguments v := by
  unfold finishCall
  refine .ifCheck (by decide) (.imp ?_) (.imp ?_)
  · refine .consuming (by decide) fun paren => .pure ?_
    intro rest hparen
    exact ⟨[], paren, [], rfl, rfl, hparen, ⟨Nat.zero_le _, trivial⟩, trivial, by simp⟩
  · refine .bind (argumentLoop_parses h n 0) fun es => .consuming (by decide) fun paren => .pure ?_
    rintro rest hparen v ⟨⟨⟨hle, hfits⟩, hwf⟩, -, hspells⟩
    exact ⟨v, paren, es, rfl, rfl, hparen, ⟨by omega, hfits⟩, hwf, hspells⟩

/-- The calls and properties after an expression. -/
theorem callLoop_parses (n : ℕ) : ∀ e : Expr N Unit,
    Parses (callLoop expression n e) fun used e' rest => ∀ u, e.Derives 9 u → e.Fits →
      (e'.Derives 9 (u ++ used) ∧ e'.Fits) ∧ Follow 9 rest := by
  induction n with
  | zero => exact fun e => .stuck
  | succ n ih =>
    intro e
    unfold callLoop
    refine .ifMatch (by decide) (fun opening => ?_) (.ifMatch (by decide) (fun dot => ?_) (.pure ?_))
    · refine .bind (finishCall_parses h n e) fun call => (ih call).mono ?_
      rintro used e' rest hloop _ ⟨v, paren, arguments, rfl, rfl, hparen, hsize, hwf, hspells⟩
        hopening u he hfits
      have hcall : (Expr.call e paren arguments).Derives 9 (u ++ opening :: (v ++ [paren])) :=
        ⟨⟨hparen, ⟨he.wf, he.level⟩, hwf⟩, le_refl _, u, opening, v, rfl,
          List.mem_singleton.1 hopening, he.spells, hspells⟩
      simpa using hloop _ hcall ⟨hfits, hsize⟩
    · refine .consuming (by decide) fun name => (ih (.get e name)).mono ?_
      rintro used e' rest hloop hname hdot - u he hfits
      have hget : (Expr.get e name).Derives 9 (u ++ [dot, name]) :=
        ⟨⟨hname, he.wf, he.level⟩, le_refl _, u, dot, rfl, List.mem_singleton.1 hdot, he.spells⟩
      simpa using hloop _ hget hfits
    · intro rest hdot hparen u he hfits
      refine ⟨⟨by simpa using he, hfits⟩, fun t ht => ?_⟩
      have hne : t.type ≠ .leftParen ∧ t.type ≠ .dot :=
        ⟨fun heq => hparen t ht (by simp [heq]), fun heq => hdot t ht (by simp [heq])⟩
      revert hne
      cases t.type <;> decide

theorem call_parses (n : ℕ) : ParsesAt 9 (call expression n) := by
  refine .bind (primary_parses h) fun e => (callLoop_parses h n e).mono ?_
  rintro used e' rest hloop u ⟨he, hfits⟩
  exact hloop u (he.mono (by omega)) hfits

theorem unary_parses (n : ℕ) : ParsesAt 8 (unary expression n) := by
  induction n with
  | zero => exact .stuck
  | succ n ih =>
    unfold unary
    refine .matching (by decide) (fun operator => ?_) (.imp ?_)
    · refine .bind ih fun right => .pure ?_
      rintro rest v ⟨⟨hright, hfits⟩, hfollow⟩ hoperator
      exact ⟨⟨⟨⟨by simpa using hoperator, hright.wf, hright.level⟩, le_refl _, v, by simp,
        hright.spells⟩, hfits⟩, hfollow⟩
    · refine (call_parses h n).mono ?_
      rintro used e rest ⟨⟨he, hfits⟩, hfollow⟩
      refine ⟨⟨he.mono (by omega), hfits⟩, fun t ht => ?_⟩
      have hlt := hfollow t ht
      revert hlt
      cases t.type <;> decide

end Expressions

/-- The operators of a level, and the nodes they make. -/
structure OperatorLevel (level : ℕ) (types : List TokenType)
    (node : Expr N Unit → Token N → Expr N Unit → Expr N Unit) : Prop where
  eof : .eof ∉ types
  mem : ∀ type, infixLevel type = level ↔ type ∈ types
  derives : ∀ {left operator right u v}, operator.type ∈ types → left.Derives level u →
    right.Derives (level + 1) v → (node left operator right).Derives level (u ++ operator :: v)
  fits : ∀ {left operator right}, left.Fits → right.Fits → (node left operator right).Fits

/-- The operators of a level after an expression. -/
theorem operatorLoop_parses {level : ℕ} {types : List TokenType}
    {node : Expr N Unit → Token N → Expr N Unit → Expr N Unit} {operand : Parse N (Expr N Unit)}
    (hlevel : OperatorLevel level types node) (hoperand : ParsesAt (level + 1) operand) (n : ℕ) :
    ∀ e : Expr N Unit, Parses (operatorLoop node types operand n e) fun used e' rest =>
      ∀ u, e.Derives level u → e.Fits → Follow (level + 1) (used ++ rest) →
        (e'.Derives level (u ++ used) ∧ e'.Fits) ∧ Follow level rest := by
  induction n with
  | zero => exact fun e => .stuck
  | succ n ih =>
    intro e
    unfold operatorLoop
    refine .matching hlevel.eof (fun operator => ?_) (.pure ?_)
    · refine .bind hoperand fun right => (ih (node e operator right)).mono ?_
      rintro used e' rest hloop v ⟨⟨hright, hfitsr⟩, hfollow⟩ hoperator u he hfits -
      have hnode := hlevel.derives hoperator he hright
      simpa using hloop _ hnode (hlevel.fits hfits hfitsr) hfollow
    · intro rest hnot u he hfits hfollow
      exact ⟨⟨by simpa using he, hfits⟩, hfollow.of_nextNot hnot fun type => (hlevel.mem type).1⟩

theorem operator_parses {level : ℕ} {types : List TokenType}
    {node : Expr N Unit → Token N → Expr N Unit → Expr N Unit} {operand : Parse N (Expr N Unit)}
    (hlevel : OperatorLevel level types node) (hoperand : ParsesAt (level + 1) operand) (n : ℕ) :
    ParsesAt level (operator node types operand n) := by
  refine .bind hoperand fun e => (operatorLoop_parses hlevel hoperand n e).mono ?_
  rintro used e' rest hloop u ⟨⟨he, hfits⟩, hfollow⟩
  exact hloop u (he.mono (Nat.le_succ _)) hfits hfollow

theorem derives_binary {left right : Expr N Unit} {operator : Token N} {level : ℕ}
    {u v : List (Token N)} (hlow : 4 ≤ level) (hhigh : level ≤ 7)
    (hoperator : infixLevel operator.type = level) (hleft : left.Derives level u)
    (hright : right.Derives (level + 1) v) :
    (Expr.binary left operator right).Derives level (u ++ operator :: v) := by
  subst hoperator
  exact ⟨⟨⟨hlow, hhigh⟩, ⟨hleft.wf, hleft.level⟩, hright.wf, hright.level⟩, le_refl _, u, v, rfl,
    hleft.spells, hright.spells⟩

theorem derives_logical {left right : Expr N Unit} {operator : Token N} {level : ℕ}
    {u v : List (Token N)} (htype : operator.type = .or_ ∨ operator.type = .and_)
    (hoperator : infixLevel operator.type = level) (hleft : left.Derives level u)
    (hright : right.Derives (level + 1) v) :
    (Expr.logical left operator right).Derives level (u ++ operator :: v) := by
  subst hoperator
  exact ⟨⟨htype, ⟨hleft.wf, hleft.level⟩, hright.wf, hright.level⟩, le_refl _, u, v, rfl,
    hleft.spells, hright.spells⟩

/-- The levels of the binary operators. -/
theorem operatorLevel_binary {level : ℕ} {types : List TokenType} (hlow : 4 ≤ level)
    (hhigh : level ≤ 7) (heof : .eof ∉ types)
    (hmem : ∀ type, infixLevel type = level ↔ type ∈ types) :
    OperatorLevel (N := N) level types .binary :=
  ⟨heof, hmem, fun hoperator => derives_binary hlow hhigh ((hmem _).2 hoperator),
    fun hleft hright => ⟨hleft, hright⟩⟩

theorem level_factor : OperatorLevel (N := N) 7 [.slash, .star] .binary :=
  operatorLevel_binary (by omega) (by omega) (by decide) fun type => by cases type <;> decide

theorem level_term : OperatorLevel (N := N) 6 [.minus, .plus] .binary :=
  operatorLevel_binary (by omega) (by omega) (by decide) fun type => by cases type <;> decide

theorem level_comparison :
    OperatorLevel (N := N) 5 [.greater, .greaterEqual, .less, .lessEqual] .binary :=
  operatorLevel_binary (by omega) (by omega) (by decide) fun type => by cases type <;> decide

theorem level_equality : OperatorLevel (N := N) 4 [.bangEqual, .equalEqual] .binary :=
  operatorLevel_binary (by omega) (by omega) (by decide) fun type => by cases type <;> decide

theorem level_and : OperatorLevel (N := N) 3 [.and_] .logical := by
  refine ⟨by decide, fun type => by cases type <;> decide, fun hoperator => ?_,
    fun hleft hright => ⟨hleft, hright⟩⟩
  have htype := List.mem_singleton.1 hoperator
  exact derives_logical (.inr htype) (by rw [htype]; rfl)

theorem level_or : OperatorLevel (N := N) 2 [.or_] .logical := by
  refine ⟨by decide, fun type => by cases type <;> decide, fun hoperator => ?_,
    fun hleft hright => ⟨hleft, hright⟩⟩
  have htype := List.mem_singleton.1 hoperator
  exact derives_logical (.inl htype) (by rw [htype]; rfl)

section Expressions

variable {expression : Parse N (Expr N Unit)} (h : ParsesAt 1 expression)

include h

theorem or_parses (n : ℕ) : ParsesAt 2 (or_ expression n) := by
  have hfactor : ParsesAt 7 (factor expression n) := operator_parses level_factor (unary_parses h n) n
  have hterm : ParsesAt 6 (term expression n) := operator_parses level_term hfactor n
  have hcomparison : ParsesAt 5 (comparison expression n) := operator_parses level_comparison hterm n
  have hequality : ParsesAt 4 (equality expression n) := operator_parses level_equality hcomparison n
  have hand : ParsesAt 3 (and_ expression n) := operator_parses level_and hequality n
  exact operator_parses level_or hand n

theorem assignment_parses (n : ℕ) : ParsesAt 1 (assignment expression n) := by
  refine .bind (or_parses h n) fun e => .matching (by decide) (fun equals => ?_) (.pure ?_)
  · refine .bind h fun value => ?_
    split
    · rename_i name _
      refine .pure ?_
      rintro rest v ⟨⟨hvalue, hfits⟩, hfollow⟩ hequals u ⟨⟨he, -⟩, -⟩
      obtain rfl : u = [name] := he.spells
      exact ⟨⟨⟨⟨he.wf, hvalue.wf⟩, le_refl _, equals, v, by simp, List.mem_singleton.1 hequals,
        hvalue.spells⟩, hfits⟩, hfollow⟩
    · rename_i object name
      refine .pure ?_
      rintro rest v ⟨⟨hvalue, hfits⟩, hfollow⟩ hequals _ ⟨⟨he, hfitso⟩, -⟩
      obtain ⟨u, dot, rfl, hdot, hobject⟩ := he.spells
      obtain ⟨hname, hwf, hlevel⟩ := he.wf
      exact ⟨⟨⟨⟨hname, ⟨hwf, hlevel⟩, hvalue.wf⟩, le_refl _, u, dot, equals, v, by simp, hdot,
        List.mem_singleton.1 hequals, hobject, hvalue.spells⟩, hfitso, hfits⟩, hfollow⟩
    · refine .bind (.error equals _) fun _ => .pure fun rest u hfalse => ?_
      exact False.elim hfalse
  · rintro rest hnot u ⟨⟨he, hfits⟩, hfollow⟩
    refine ⟨⟨by simpa using he.mono (by omega), hfits⟩, ?_⟩
    exact hfollow.of_nextNot hnot fun type => by cases type <;> decide

end Expressions

theorem expression_parses (n : ℕ) : ParsesAt 1 (expression n : Parse N (Expr N Unit)) := by
  induction n with
  | zero => exact .stuck
  | succ n ih => exact assignment_parses ih n

end Lox.Jlox
