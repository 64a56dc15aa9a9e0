import Lox.StatementsSound

/-!
# The parser of jlox always comes back

`Ends k f p` says that `f`, called at `p`, neither reads outside the token list nor runs out of
fuel: it returns after at least `k` tokens, or throws, and in both cases stands on a later token of
the same list.  The loops of the parser eat a token in each round, and what goes wrong on the way is
caught by a `declaration`, which has one token at least to skip.
-/

namespace Lox.Jlox

open Jlox.Parser

variable {N α β : Type}

/-- The last token is `EOF`, and no other one is. -/
def Ended (ts : List (Token N)) : Prop :=
  ∃ body e, ts = body ++ [e] ∧ e.type = .eof ∧ ∀ t ∈ body, t.type ≠ .eof

namespace Ended

theorem ne_nil {ts : List (Token N)} (h : Ended ts) : ts ≠ [] := by
  obtain ⟨body, e, rfl, -, -⟩ := h
  simp

theorem pos {ts : List (Token N)} (h : Ended ts) : 1 ≤ ts.length :=
  List.length_pos_iff.2 h.ne_nil

/-- The end is reached exactly when one token is left. -/
theorem eof_iff {t : Token N} {rest : List (Token N)} (h : Ended (t :: rest)) :
    t.type = .eof ↔ rest = [] := by
  obtain ⟨body, e, heq, he, hbody⟩ := h
  cases body with
  | nil =>
    obtain ⟨rfl, rfl⟩ : t = e ∧ rest = [] := by simpa using heq
    simpa using he
  | cons b body =>
    obtain ⟨rfl, rfl⟩ : t = b ∧ rest = body ++ [e] := by simpa using heq
    have hb : t.type ≠ .eof := hbody t (by simp)
    simp [hb]

theorem tail {t : Token N} {rest : List (Token N)} (h : Ended (t :: rest)) (hne : rest ≠ []) :
    Ended rest := by
  obtain ⟨body, e, heq, he, hbody⟩ := h
  cases body with
  | nil =>
    obtain ⟨-, rfl⟩ : t = e ∧ rest = [] := by simpa using heq
    exact absurd rfl hne
  | cons b body =>
    obtain ⟨-, rfl⟩ : t = b ∧ rest = body ++ [e] := by simpa using heq
    exact ⟨body, e, rfl, he, fun x hx => hbody x (by simp [hx])⟩

end Ended

/-- From `p` on, `k` tokens or more have been eaten, and the end is still ahead. -/
structure Onward (k : ℕ) (p q : Parser N) : Prop where
  ended : Ended q.tokens
  eaten : ∃ used, p.tokens = used ++ q.tokens ∧ q.before = used.reverse ++ p.before ∧
    k ≤ used.length

namespace Onward

theorem refl {p : Parser N} (h : Ended p.tokens) : Onward 0 p p :=
  ⟨h, [], rfl, rfl, le_refl _⟩

theorem mono {k m : ℕ} {p q : Parser N} (h : Onward k p q) (hle : m ≤ k) : Onward m p q := by
  obtain ⟨hended, used, htokens, hbefore, hk⟩ := h
  exact ⟨hended, used, htokens, hbefore, hle.trans hk⟩

theorem trans {k m : ℕ} {p q r : Parser N} (h : Onward k p q) (h' : Onward m q r) :
    Onward (k + m) p r := by
  obtain ⟨-, used, htokens, hbefore, hk⟩ := h
  obtain ⟨hended, used', htokens', hbefore', hm⟩ := h'
  refine ⟨hended, used ++ used', by rw [htokens, htokens', List.append_assoc], ?_, ?_⟩
  · rw [hbefore', hbefore, List.reverse_append, List.append_assoc]
  · rw [List.length_append]
    exact Nat.add_le_add hk hm

theorem length_le {k : ℕ} {p q : Parser N} (h : Onward k p q) :
    q.tokens.length + k ≤ p.tokens.length := by
  obtain ⟨-, used, htokens, -, hk⟩ := h
  rw [htokens, List.length_append]
  omega

theorem eaten_of_lt {k : ℕ} {p q : Parser N} (h : Onward k p q)
    (hlt : q.tokens.length < p.tokens.length) : Onward 1 p q := by
  obtain ⟨hended, used, htokens, hbefore, -⟩ := h
  refine ⟨hended, used, htokens, hbefore, ?_⟩
  rw [htokens, List.length_append] at hlt
  omega

/-- Once a token has been eaten there is a previous one. -/
theorem before_ne_nil {k : ℕ} {p q : Parser N} (h : Onward k p q)
    (hlt : q.tokens.length < p.tokens.length) : q.before ≠ [] := by
  obtain ⟨-, used, htokens, hbefore, -⟩ := h
  intro hnil
  rw [hbefore, List.append_eq_nil_iff, List.reverse_eq_nil_iff] at hnil
  rw [htokens, hnil.1] at hlt
  simp at hlt

end Onward

/-- The call comes back: after `k` tokens, or with an exception. -/
def Ends (k : ℕ) (f : Parse N α) (p : Parser N) : Prop :=
  match f p with
  | .ok _ q => Onward k p q
  | .thrown q => Onward 0 p q
  | .stuck => False

/-! ### Rules -/

namespace Ends

variable {k m : ℕ} {p : Parser N}

theorem pure {a : α} (h : Ended p.tokens) : Ends 0 (Pure.pure a : Parse N α) p :=
  Onward.refl h

theorem mono {f : Parse N α} (h : Ends k f p) (hle : m ≤ k) : Ends m f p := by
  unfold Ends at h ⊢
  cases hf : f p with
  | stuck =>
    rw [hf] at h
    exact h
  | thrown q =>
    rw [hf] at h
    exact h
  | ok a q =>
    rw [hf] at h
    exact h.mono hle

/-- The first call has returned; the second goes on from there. -/
theorem of_ok {f : Parse N α} {g : α → Parse N β} {a : α} {q : Parser N} (hf : f p = .ok a q)
    (hon : Onward m p q) (hg : Ends (k - m) (g a) q) : Ends k (f >>= g) p := by
  have hbind : (f >>= g) p = g a q := by
    change Parse.bind f g p = g a q
    unfold Parse.bind
    rw [hf]
  unfold Ends at hg ⊢
  rw [hbind]
  cases hgq : g a q with
  | stuck =>
    rw [hgq] at hg
    exact hg
  | thrown r =>
    rw [hgq] at hg
    exact (hon.trans hg).mono (Nat.zero_le _)
  | ok b r =>
    rw [hgq] at hg
    exact (hon.trans hg).mono (by omega)

/-- One after the other. -/
theorem bind {f : Parse N α} {g : α → Parse N β} (hf : Ends m f p)
    (hg : ∀ a q, Onward m p q → Ends (k - m) (g a) q) : Ends k (f >>= g) p := by
  unfold Ends at hf
  cases hfp : f p with
  | stuck =>
    rw [hfp] at hf
    exact False.elim hf
  | thrown q =>
    rw [hfp] at hf
    change match Parse.bind f g p with | .ok _ q => _ | .thrown q => _ | .stuck => _
    unfold Parse.bind
    rw [hfp]
    exact hf
  | ok a q =>
    rw [hfp] at hf
    exact of_ok hfp hf (hg a q hf)

theorem ite {c : Prop} [Decidable c] {f g : Parse N α} (hf : c → Ends k f p)
    (hg : ¬ c → Ends k g p) : Ends k (if c then f else g) p := by
  split
  · exact hf ‹_›
  · exact hg ‹_›

/-- An error that is reported stops nothing. -/
theorem error (h : Ended p.tokens) (token : Token N) (message : String) :
    Ends 0 (Parser.error token message) p :=
  ⟨h, [], rfl, rfl, le_refl _⟩

theorem throw_ (h : Ended p.tokens) (token : Token N) (message : String) :
    Ends k (Parser.throw_ token message : Parse N α) p :=
  ⟨h, [], rfl, rfl, le_refl _⟩

end Ends

/-! ### Tokens -/

section Tokens

variable {p : Parser N} {k : ℕ}

theorem peek_ends (h : Ended p.tokens) : Ends 0 (peek : Parse N (Token N)) p := by
  unfold Ends peek
  cases hp : p.tokens with
  | nil => exact absurd hp h.ne_nil
  | cons t rest => exact Onward.refl h

/-- `check`, and then one way or the other; nothing has been eaten. -/
theorem ends_check {type : TokenType} {g : Bool → Parse N β} (h : Ended p.tokens)
    (hg : ∀ b, Ends k (g b) p) : Ends k (check type >>= g) p := by
  obtain ⟨t, rest, htokens⟩ := List.exists_cons_of_ne_nil h.ne_nil
  have hcheck : check type p = .ok (t.type ≠ .eof && t.type = type) p := by
    simp [check, peek, Bind.bind, Parse.bind, htokens, Pure.pure]
  exact Ends.of_ok hcheck (Onward.refl h) (hg _)

/-- `isAtEnd`, and then one way or the other. -/
theorem ends_isAtEnd {g : Bool → Parse N β} (h : Ended p.tokens)
    (hend : p.tokens.length = 1 → Ends k (g true) p)
    (hmore : 2 ≤ p.tokens.length → Ends k (g false) p) : Ends k (isAtEnd >>= g) p := by
  obtain ⟨t, rest, htokens⟩ := List.exists_cons_of_ne_nil h.ne_nil
  have hat : isAtEnd p = .ok (decide (t.type = .eof)) p := by
    simp [isAtEnd, peek, Bind.bind, Parse.bind, htokens, Pure.pure]
  have heof := (htokens ▸ h : Ended (t :: rest)).eof_iff
  have hg : Ends k (g (decide (t.type = .eof))) p := by
    by_cases hrest : rest = []
    · rw [decide_eq_true (heof.2 hrest)]
      exact hend (by simp [htokens, hrest])
    · rw [decide_eq_false fun ht => hrest (heof.1 ht)]
      have := List.length_pos_iff.2 hrest
      exact hmore (by simp only [htokens, List.length_cons]; omega)
  exact Ends.of_ok hat (Onward.refl h) hg

/-- `advance` before the end. -/
theorem advance_eq (h : Ended p.tokens) (hlt : 2 ≤ p.tokens.length) :
    ∃ t q, advance p = .ok t q ∧ Onward 1 p q ∧ q.before = t :: p.before := by
  obtain ⟨t, rest, htokens⟩ := List.exists_cons_of_ne_nil h.ne_nil
  have hended : Ended (t :: rest) := htokens ▸ h
  have hne : rest ≠ [] := by
    rintro rfl
    simp [htokens] at hlt
  refine ⟨t, ⟨t :: p.before, rest, p.errors⟩, ?_, ⟨hended.tail hne, [t], htokens, rfl, le_refl _⟩, rfl⟩
  unfold advance
  simp only [htokens, if_neg fun ht => hne (hended.eof_iff.1 ht)]

/-- `check` is true before the end only, where `advance` eats the token. -/
theorem check_cases (h : Ended p.tokens) (type : TokenType) :
    check type p = .ok false p ∨
      check type p = .ok true p ∧ ∃ t q, advance p = .ok t q ∧ Onward 1 p q := by
  obtain ⟨t, rest, htokens⟩ := List.exists_cons_of_ne_nil h.ne_nil
  have hcheck : check type p = .ok (t.type ≠ .eof && t.type = type) p := by
    simp [check, peek, Bind.bind, Parse.bind, htokens, Pure.pure]
  by_cases hmatch : t.type ≠ .eof ∧ t.type = type
  · have hne : rest ≠ [] := fun hnil =>
      hmatch.1 ((htokens ▸ h : Ended (t :: rest)).eof_iff.2 hnil)
    have hlt : 2 ≤ p.tokens.length := by
      have := List.length_pos_iff.2 hne
      simp only [htokens, List.length_cons]
      omega
    obtain ⟨t', q, hq, hon, -⟩ := advance_eq h hlt
    exact .inr ⟨by rw [hcheck]; simp [hmatch.2 ▸ hmatch.1, hmatch.2], t', q, hq, hon⟩
  · left
    rw [hcheck]
    congr 1
    simpa using hmatch

/-- `match`, and then one way or the other: a token is eaten, or all is as before. -/
theorem ends_match {types : List TokenType} {g : Option (Token N) → Parse N β}
    (h : Ended p.tokens) (hsome : ∀ t q, Onward 1 p q → Ends (k - 1) (g (some t)) q)
    (hnone : Ends k (g none) p) : Ends k (match_ types >>= g) p := by
  have hmatch : match_ types p = .ok none p ∨
      ∃ t q, match_ types p = .ok (some t) q ∧ Onward 1 p q := by
    induction types with
    | nil => exact .inl rfl
    | cons type types ih =>
      rcases check_cases h type with hfalse | ⟨htrue, t, q, hq, hon⟩
      · have heq : match_ (type :: types) p = match_ types p := by
          simp [match_, Bind.bind, Parse.bind, hfalse]
        rw [heq]
        exact ih
      · refine .inr ⟨t, q, ?_, hon⟩
        simp [match_, Bind.bind, Parse.bind, htrue, hq, Pure.pure]
  rcases hmatch with heq | ⟨t, q, heq, hon⟩
  · exact Ends.of_ok heq (Onward.refl h) hnone
  · exact Ends.of_ok heq hon (hsome t q hon)

/-- `consume`, and then the rest. -/
theorem ends_consume {type : TokenType} {message : String} {g : Token N → Parse N β}
    (h : Ended p.tokens) (hg : ∀ t q, Onward 1 p q → Ends (k - 1) (g t) q) :
    Ends k (consume type message >>= g) p := by
  have hconsume : Ends 1 (consume type message) p := by
    unfold consume
    rcases check_cases h type with hfalse | ⟨htrue, t, q, hq, hon⟩
    · refine Ends.of_ok hfalse (Onward.refl h) ?_
      exact Ends.bind (peek_ends h) fun t q hon => Ends.throw_ hon.ended t message
    · refine Ends.of_ok htrue (Onward.refl h) ?_
      unfold Ends
      simp only [if_true, hq]
      exact hon
  exact Ends.bind hconsume hg

/-- One argument or parameter too many is reported, and then comes the rest in any case. -/
theorem ends_report {c : Prop} [Decidable c] {message : String} {g : Parse N β} (h : Ended p.tokens)
    (hg : ∀ q, Onward 0 p q → Ends k g q) :
    Ends k (if c then peek >>= fun t => Parser.error t message >>= fun _ => g else g) p := by
  refine .ite (fun _ => .bind (peek_ends h) fun t q hq => ?_) fun _ => hg p (Onward.refl h)
  exact .bind (.error hq.ended t message) fun _ r hr => hg r (hq.trans hr)

end Tokens

/-! ### Expressions -/

/-- The call comes back, and eats `k` tokens, wherever at most `size` tokens are left. -/
def EndsWithin (size k : ℕ) (f : Parse N α) : Prop :=
  ∀ p, Ended p.tokens → p.tokens.length ≤ size → Ends k f p

section Expressions

variable {size : ℕ} {expression : Parse N (Expr N Unit)} (he : EndsWithin size 1 expression)

include he

theorem primary_ends : EndsWithin (size + 1) 1 (primary expression) := by
  intro p hp hsize
  unfold primary
  refine ends_match hp (fun t q hq => .pure hq.ended) ?_
  refine ends_match hp (fun t q hq => .pure hq.ended) ?_
  refine ends_match hp (fun t q hq => .pure hq.ended) ?_
  refine ends_match hp (fun t q hq => .pure hq.ended) ?_
  refine ends_match hp (fun t q hq => ?_) ?_
  · refine ends_consume hq.ended fun t q hq => ends_consume hq.ended fun t q hq => ?_
    exact .pure hq.ended
  refine ends_match hp (fun t q hq => .pure hq.ended) ?_
  refine ends_match hp (fun t q hq => .pure hq.ended) ?_
  refine ends_match hp (fun t q hq => ?_) ?_
  · have hexpression : Ends 1 expression q := he q hq.ended (by have := hq.length_le; omega)
    refine .bind hexpression fun e r hr => ?_
    exact ends_consume hr.ended fun t q hq => .pure hq.ended
  · exact .bind (peek_ends hp) fun t q hq => .throw_ hq.ended t _

/-- Each argument is a token or more, so the fuel lasts. -/
theorem argumentLoop_ends (n : ℕ) : ∀ count, ∀ p, Ended p.tokens → p.tokens.length ≤ n →
    p.tokens.length ≤ size → Ends 1 (argumentLoop expression n count) p := by
  induction n with
  | zero =>
    intro count p hp hn
    have := hp.pos
    omega
  | succ n ih =>
    intro count p hp hn hsize
    unfold argumentLoop
    refine ends_report hp fun q hq => ?_
    have hle := hq.length_le
    refine .bind (he q hq.ended (by omega)) fun e r hr => ?_
    have hle' := hr.length_le
    refine ends_match hr.ended (fun comma u hu => ?_) (.pure hr.ended)
    have hle'' := hu.length_le
    have hmore := (ih (count + 1) u hu.ended (by omega) (by omega)).mono (Nat.zero_le 1)
    exact .bind hmore fun es v hv => .pure hv.ended

theorem finishCall_ends {n : ℕ} {p : Parser N} (callee : Expr N Unit) (hp : Ended p.tokens)
    (hn : p.tokens.length ≤ n) (hsize : p.tokens.length ≤ size) :
    Ends 1 (finishCall expression n callee) p := by
  unfold finishCall
  refine ends_check hp fun b => .ite (fun _ => ?_) fun _ => ?_
  · exact ends_consume hp fun t q hq => .pure hq.ended
  · refine .bind (argumentLoop_ends he n 0 p hp hn hsize) fun es q hq => ?_
    exact ends_consume hq.ended fun t r hr => .pure hr.ended

theorem callLoop_ends (n : ℕ) : ∀ callee, ∀ p, Ended p.tokens → p.tokens.length ≤ n →
    p.tokens.length ≤ size + 1 → Ends 0 (callLoop expression n callee) p := by
  induction n with
  | zero =>
    intro callee p hp hn
    have := hp.pos
    omega
  | succ n ih =>
    intro callee p hp hn hsize
    unfold callLoop
    refine ends_match hp (fun t q hq => ?_) (ends_match hp (fun t q hq => ?_) (.pure hp))
    · have hle := hq.length_le
      refine .bind (finishCall_ends he callee hq.ended (by omega) (by omega)) fun e r hr => ?_
      have hle' := hr.length_le
      exact ih e r hr.ended (by omega) (by omega)
    · have hle := hq.length_le
      refine ends_consume hq.ended fun name r hr => ?_
      have hle' := hr.length_le
      exact ih (.get callee name) r hr.ended (by omega) (by omega)

theorem unary_ends (n : ℕ) : ∀ p, Ended p.tokens → p.tokens.length ≤ n →
    p.tokens.length ≤ size + 1 → Ends 1 (unary expression n) p := by
  induction n with
  | zero =>
    intro p hp hn
    have := hp.pos
    omega
  | succ n ih =>
    intro p hp hn hsize
    unfold unary
    refine ends_match hp (fun t q hq => ?_) ?_
    · have hle := hq.length_le
      have hright := (ih q hq.ended (by omega) (by omega)).mono (Nat.zero_le 1)
      exact .bind hright fun right r hr => .pure hr.ended
    · unfold call
      refine .bind (primary_ends he p hp hsize) fun e q hq => ?_
      have hle := hq.length_le
      exact callLoop_ends he n e q hq.ended (by omega) (by omega)

omit he in
/-- The operators of one level: each round eats an operator. -/
theorem operatorLoop_ends {node : Expr N Unit → Token N → Expr N Unit → Expr N Unit}
    {types : List TokenType} {operand : Parse N (Expr N Unit)} (ho : EndsWithin size 1 operand)
    (n : ℕ) : ∀ e, ∀ p, Ended p.tokens → p.tokens.length ≤ n → p.tokens.length ≤ size →
      Ends 0 (operatorLoop node types operand n e) p := by
  induction n with
  | zero =>
    intro e p hp hn
    have := hp.pos
    omega
  | succ n ih =>
    intro e p hp hn hsize
    unfold operatorLoop
    refine ends_match hp (fun t q hq => ?_) (.pure hp)
    have hle := hq.length_le
    refine .bind (ho q hq.ended (by omega)) fun right r hr => ?_
    have hle' := hr.length_le
    exact ih (node e t right) r hr.ended (by omega) (by omega)

omit he in
theorem operator_ends {node : Expr N Unit → Token N → Expr N Unit → Expr N Unit}
    {types : List TokenType} {operand : Parse N (Expr N Unit)} (ho : EndsWithin size 1 operand)
    {n : ℕ} (hn : size ≤ n) : EndsWithin size 1 (operator node types operand n) := by
  intro p hp hsize
  refine .bind (ho p hp hsize) fun e q hq => ?_
  have hle := hq.length_le
  exact operatorLoop_ends ho n e q hq.ended (by omega) (by omega)

theorem assignment_ends {n : ℕ} (hn : size + 1 ≤ n) :
    EndsWithin (size + 1) 1 (assignment expression n) := by
  have hunary : EndsWithin (size + 1) 1 (unary expression n) := fun p hp hsize =>
    unary_ends he n p hp (hsize.trans hn) hsize
  have hfactor : EndsWithin (size + 1) 1 (factor expression n) := operator_ends hunary hn
  have hterm : EndsWithin (size + 1) 1 (term expression n) := operator_ends hfactor hn
  have hcomparison : EndsWithin (size + 1) 1 (comparison expression n) := operator_ends hterm hn
  have hequality : EndsWithin (size + 1) 1 (equality expression n) := operator_ends hcomparison hn
  have hand : EndsWithin (size + 1) 1 (and_ expression n) := operator_ends hequality hn
  have hor : EndsWithin (size + 1) 1 (or_ expression n) := operator_ends hand hn
  intro p hp hsize
  unfold assignment
  refine .bind (hor p hp hsize) fun e q hq => ?_
  have hle := hq.length_le
  refine ends_match hq.ended (fun equals r hr => ?_) (.pure hq.ended)
  have hle' := hr.length_le
  refine .bind (he r hr.ended (by omega)) fun value u hu => ?_
  split
  · exact .pure hu.ended
  · exact .pure hu.ended
  · exact .bind (.error hu.ended equals _) fun _ v hv => .pure hv.ended

end Expressions

/-- An expression takes one unit of fuel more than there are tokens. -/
theorem expression_ends (n : ℕ) : EndsWithin n 1 (expression (n + 1) : Parse N (Expr N Unit)) := by
  induction n with
  | zero =>
    intro p hp hsize
    have := hp.pos
    omega
  | succ n ih => exact assignment_ends ih (le_refl _)

/-! ### Blocks and functions -/

/-- A `declaration` comes back wherever at most `size` tokens are left, before the end. -/
def DeclarationEnds (size : ℕ) (declaration : Parse N (Stmt N Unit)) : Prop :=
  ∀ p, Ended p.tokens → 2 ≤ p.tokens.length → p.tokens.length ≤ size → Ends 1 declaration p

section Declarations

variable {size : ℕ} {declaration : Parse N (Stmt N Unit)} (hd : DeclarationEnds size declaration)

include hd

theorem blockLoop_ends (n : ℕ) : ∀ p, Ended p.tokens → p.tokens.length ≤ n →
    p.tokens.length ≤ size → Ends 0 (blockLoop declaration n) p := by
  induction n with
  | zero =>
    intro p hp hn
    have := hp.pos
    omega
  | succ n ih =>
    intro p hp hn hsize
    unfold blockLoop
    refine ends_check hp fun b => ends_isAtEnd hp (fun _ => ?_) fun hmore => ?_
    · rw [Bool.or_true]
      exact .pure hp
    · refine .ite (fun _ => .pure hp) fun _ => .bind (hd p hp hmore hsize) fun s q hq => ?_
      have hle := hq.length_le
      exact .bind (ih q hq.ended (by omega) (by omega)) fun ss r hr => .pure hr.ended

theorem block_ends {n : ℕ} {p : Parser N} (hp : Ended p.tokens) (hn : p.tokens.length ≤ n)
    (hsize : p.tokens.length ≤ size) : Ends 1 (block declaration n) p := by
  refine .bind (blockLoop_ends hd n p hp hn hsize) fun ss q hq => ?_
  exact ends_consume hq.ended fun t r hr => .pure hr.ended

omit hd in
theorem parameterLoop_ends (n : ℕ) : ∀ count, ∀ p : Parser N, Ended p.tokens →
    p.tokens.length ≤ n → Ends 1 (parameterLoop n count) p := by
  induction n with
  | zero =>
    intro count p hp hn
    have := hp.pos
    omega
  | succ n ih =>
    intro count p hp hn
    unfold parameterLoop
    refine ends_report hp fun q hq => ends_consume hq.ended fun t r hr => ?_
    have hle := hq.length_le
    have hle' := hr.length_le
    refine ends_match hr.ended (fun comma u hu => ?_) (.pure hr.ended)
    have hle'' := hu.length_le
    have hmore := (ih (count + 1) u hu.ended (by omega)).mono (Nat.zero_le 1)
    exact .bind hmore fun es v hv => .pure hv.ended

theorem function_ends {n : ℕ} {p : Parser N} (kind : String) (hp : Ended p.tokens)
    (hn : p.tokens.length ≤ n + 1) (hsize : p.tokens.length ≤ size) :
    Ends 1 (function declaration kind n) p := by
  unfold function
  refine ends_consume hp fun name q hq => ends_consume hq.ended fun opening r hr => ?_
  have hle := (hq.trans hr).length_le
  have hrest : ∀ params : List (Token N), ∀ u, Onward 0 r u → Ends 0 (do
      let _ ← consume .rightParen "Expect ')' after parameters."
      let _ ← consume .leftBrace s!"Expect '\x7b' before {kind} body."
      let body ← block declaration n
      return .function name params body : Parse N (Stmt N Unit)) u := by
    intro params u hu
    refine ends_consume hu.ended fun closing v hv => ends_consume hv.ended fun left w hw => ?_
    have hle' := ((hu.trans hv).trans hw).length_le
    exact .bind (block_ends hd hw.ended (by omega) (by omega)) fun body x hx => .pure hx.ended
  refine ends_check hr.ended fun b => .ite (fun _ => hrest [] r (Onward.refl hr.ended)) fun _ => ?_
  refine .bind (parameterLoop_ends n 0 r hr.ended (by omega)) fun params u hu => ?_
  exact hrest params u (hu.mono (Nat.zero_le _))

theorem methodLoop_ends (n : ℕ) : ∀ p, Ended p.tokens → p.tokens.length ≤ n →
    p.tokens.length ≤ size → Ends 0 (methodLoop declaration n) p := by
  induction n with
  | zero =>
    intro p hp hn
    have := hp.pos
    omega
  | succ n ih =>
    intro p hp hn hsize
    unfold methodLoop
    refine ends_check hp fun b => ends_isAtEnd hp (fun _ => ?_) fun hmore => ?_
    · rw [Bool.or_true]
      exact .pure hp
    · refine .ite (fun _ => .pure hp) fun _ => ?_
      refine .bind (function_ends hd "method" hp hn hsize) fun s q hq => ?_
      have hle := hq.length_le
      exact .bind (ih q hq.ended (by omega) (by omega)) fun ss r hr => .pure hr.ended

theorem classDeclaration_ends {n : ℕ} {p : Parser N} (hp : Ended p.tokens)
    (hn : p.tokens.length ≤ n) (hsize : p.tokens.length ≤ size) :
    Ends 0 (classDeclaration declaration n) p := by
  unfold classDeclaration
  refine ends_consume hp fun name q hq => ?_
  have hle := hq.length_le
  have hrest : ∀ superclass : Option (Token N × Unit), ∀ r, Onward 0 q r → Ends 0 (do
      let _ ← consume .leftBrace "Expect '\x7b' before class body."
      let methods ← methodLoop declaration n
      let _ ← consume .rightBrace "Expect '\x7d' after class body."
      return .class_ name superclass methods : Parse N (Stmt N Unit)) r := by
    intro superclass r hr
    refine ends_consume hr.ended fun opening u hu => ?_
    have hle' := (hr.trans hu).length_le
    refine .bind (methodLoop_ends hd n u hu.ended (by omega) (by omega)) fun methods v hv => ?_
    exact ends_consume hv.ended fun closing w hw => .pure hw.ended
  refine ends_match hq.ended (fun less r hr => ?_) (hrest none q (Onward.refl hq.ended))
  refine ends_consume hr.ended fun superclass u hu => ?_
  exact hrest (some (superclass, ())) u ((hr.trans hu).mono (Nat.zero_le _))

end Declarations

/-! ### Statements -/

section Statements

variable {size : ℕ} {expression : Parse N (Expr N Unit)} (he : EndsWithin size 1 expression)

include he

theorem varDeclaration_ends : EndsWithin size 1 (varDeclaration expression) := by
  intro p hp hsize
  unfold varDeclaration
  refine ends_consume hp fun name q hq => ?_
  have hqle := hq.length_le
  refine ends_match hq.ended (fun equals r hr => ?_) ?_
  · have hrle := hr.length_le
    refine .bind (he r hr.ended (by omega)) fun e u hu => ?_
    exact ends_consume hu.ended fun semicolon v hv => .pure hv.ended
  · exact ends_consume hq.ended fun semicolon r hr => .pure hr.ended

theorem expressionStatement_ends : EndsWithin size 1 (expressionStatement expression) := by
  intro p hp hsize
  refine .bind (he p hp hsize) fun e q hq => ?_
  exact ends_consume hq.ended fun semicolon r hr => .pure hr.ended

theorem printStatement_ends : EndsWithin size 1 (printStatement expression) := by
  intro p hp hsize
  refine .bind (he p hp hsize) fun e q hq => ?_
  exact ends_consume hq.ended fun semicolon r hr => .pure hr.ended

theorem optionalExpression_ends (close : TokenType) :
    EndsWithin size 0 (optionalExpression expression close) := by
  intro p hp hsize
  unfold optionalExpression
  refine ends_check hp fun b => .ite (fun _ => .pure hp) fun _ => ?_
  exact .bind (he p hp hsize) fun e q hq => .pure hq.ended

theorem returnStatement_ends (keyword : Token N) :
    EndsWithin size 1 (returnStatement expression keyword) := by
  intro p hp hsize
  refine .bind (optionalExpression_ends he .semicolon p hp hsize) fun value q hq => ?_
  exact ends_consume hq.ended fun semicolon r hr => .pure hr.ended

theorem forInitializer_ends : EndsWithin size 1 (forInitializer expression) := by
  intro p hp hsize
  unfold forInitializer
  refine ends_match hp (fun semicolon q hq => .pure hq.ended) (ends_match hp (fun var q hq => ?_) ?_)
  · have hqle := hq.length_le
    have hvar := (varDeclaration_ends he q hq.ended (by omega)).mono (Nat.zero_le 1)
    exact .bind hvar fun s r hr => .pure hr.ended
  · exact .bind (expressionStatement_ends he p hp hsize) fun s r hr => .pure hr.ended

variable {statement : Parse N (Stmt N Unit)} (hs : EndsWithin size 1 statement)

include hs

theorem ifStatement_ends : EndsWithin size 1 (ifStatement expression statement) := by
  intro p hp hsize
  unfold ifStatement
  refine ends_consume hp fun opening q hq => ?_
  have hqle := hq.length_le
  refine .bind (he q hq.ended (by omega)) fun condition r hr => ?_
  refine ends_consume hr.ended fun closing u hu => ?_
  have hule := (hr.trans hu).length_le
  refine .bind (hs u hu.ended (by omega)) fun thenBranch v hv => ?_
  refine ends_match hv.ended (fun else_ w hw => ?_) (.pure hv.ended)
  have hwle := (hv.trans hw).length_le
  have helse := (hs w hw.ended (by omega)).mono (Nat.zero_le 1)
  exact .bind helse fun elseBranch x hx => .pure hx.ended

theorem whileStatement_ends : EndsWithin size 1 (whileStatement expression statement) := by
  intro p hp hsize
  unfold whileStatement
  refine ends_consume hp fun opening q hq => ?_
  have hqle := hq.length_le
  refine .bind (he q hq.ended (by omega)) fun condition r hr => ?_
  refine ends_consume hr.ended fun closing u hu => ?_
  have hule := (hr.trans hu).length_le
  exact .bind (hs u hu.ended (by omega)) fun body v hv => .pure hv.ended

theorem forStatement_ends : EndsWithin size 1 (forStatement expression statement) := by
  intro p hp hsize
  unfold forStatement
  refine ends_consume hp fun opening q hq => ?_
  have hqle := hq.length_le
  refine .bind (forInitializer_ends he q hq.ended (by omega)) fun initializer r hr => ?_
  have hrle := hr.length_le
  refine .bind (optionalExpression_ends he .semicolon r hr.ended (by omega)) fun condition u hu => ?_
  refine ends_consume hu.ended fun semicolon v hv => ?_
  have hvle := (hu.trans hv).length_le
  refine .bind (optionalExpression_ends he .rightParen v hv.ended (by omega)) fun increment w hw => ?_
  refine ends_consume hw.ended fun closing x hx => ?_
  have hxle := (hw.trans hx).length_le
  exact .bind (hs x hx.ended (by omega)) fun body y hy => .pure hy.ended

end Statements

/-- A statement: what follows its first token is shorter. -/
theorem statementBody_ends {size n : ℕ} {expression : Parse N (Expr N Unit)}
    {statement declaration : Parse N (Stmt N Unit)} (he : EndsWithin (size + 1) 1 expression)
    (hs : EndsWithin size 1 statement) (hd : DeclarationEnds size declaration) (hn : size ≤ n) :
    EndsWithin (size + 1) 1 (statementBody expression statement declaration n) := by
  intro p hp hsize
  have he' : EndsWithin size 1 expression := fun q hq hle => he q hq (by omega)
  have hshort : ∀ {q : Parser N}, Onward 1 p q → q.tokens.length ≤ size := fun hq => by
    have := hq.length_le
    omega
  unfold statementBody
  refine ends_match hp (fun keyword q hq => ?_) ?_
  · exact (forStatement_ends he' hs q hq.ended (hshort hq)).mono (Nat.zero_le 1)
  refine ends_match hp (fun keyword q hq => ?_) ?_
  · exact (ifStatement_ends he' hs q hq.ended (hshort hq)).mono (Nat.zero_le 1)
  refine ends_match hp (fun keyword q hq => ?_) ?_
  · exact (printStatement_ends he' q hq.ended (hshort hq)).mono (Nat.zero_le 1)
  refine ends_match hp (fun keyword q hq => ?_) ?_
  · exact (returnStatement_ends he' keyword q hq.ended (hshort hq)).mono (Nat.zero_le 1)
  refine ends_match hp (fun keyword q hq => ?_) ?_
  · exact (whileStatement_ends he' hs q hq.ended (hshort hq)).mono (Nat.zero_le 1)
  refine ends_match hp (fun opening q hq => ?_) ?_
  · have hblock : Ends 1 (block declaration n) q :=
      block_ends hd hq.ended ((hshort hq).trans hn) (hshort hq)
    exact .bind (hblock.mono (Nat.zero_le 1)) fun ss r hr => .pure hr.ended
  · exact expressionStatement_ends he p hp hsize

/-- A declaration: it may be a statement from its first token on. -/
theorem declarationBody_ends {size n : ℕ} {expression : Parse N (Expr N Unit)}
    {statement declaration : Parse N (Stmt N Unit)} (he : EndsWithin size 1 expression)
    (hs : EndsWithin (size + 1) 1 statement) (hd : DeclarationEnds size declaration)
    (hn : size ≤ n) :
    EndsWithin (size + 1) 1 (declarationBody expression statement declaration n) := by
  intro p hp hsize
  have hshort : ∀ {q : Parser N}, Onward 1 p q → q.tokens.length ≤ size := fun hq => by
    have := hq.length_le
    omega
  unfold declarationBody
  refine ends_match hp (fun keyword q hq => ?_) ?_
  · exact classDeclaration_ends hd hq.ended ((hshort hq).trans hn) (hshort hq)
  refine ends_match hp (fun keyword q hq => ?_) ?_
  · have hle := hshort hq
    exact (function_ends hd "function" hq.ended (by omega) hle).mono (Nat.zero_le 1)
  refine ends_match hp (fun keyword q hq => ?_) ?_
  · exact (varDeclaration_ends he q hq.ended (hshort hq)).mono (Nat.zero_le 1)
  · exact hs p hp hsize

/-! ### Recovery -/

/-- There is a token before the current one, so `previous` finds it. -/
theorem synchronizeLoop_ends (n : ℕ) : ∀ p : Parser N, Ended p.tokens → p.before ≠ [] →
    p.tokens.length ≤ n → Ends 0 (synchronizeLoop n) p := by
  induction n with
  | zero =>
    intro p hp _ hn
    have := hp.pos
    omega
  | succ n ih =>
    intro p hp hbefore hn
    obtain ⟨t, before, ht⟩ := List.exists_cons_of_ne_nil hbefore
    have hprevious : previous p = .ok t p := by
      simp [previous, ht]
    unfold synchronizeLoop
    refine ends_isAtEnd hp (fun _ => .pure hp) fun hmore => ?_
    refine .of_ok hprevious (Onward.refl hp) (.ite (fun _ => .pure hp) fun _ => ?_)
    obtain ⟨t', q, hq, hon, hcons⟩ := advance_eq hp hmore
    have hle := hon.length_le
    exact .of_ok hq hon (ih q hon.ended (by simp [hcons]) (by omega))

/-- `synchronize` before the end skips a token. -/
theorem synchronize_ends {n : ℕ} {p : Parser N} (hp : Ended p.tokens) (hmore : 2 ≤ p.tokens.length)
    (hn : p.tokens.length ≤ n) : Ends 1 (synchronize n) p := by
  obtain ⟨t, q, hq, hon, hcons⟩ := advance_eq hp hmore
  have hle := hon.length_le
  exact .of_ok hq hon (synchronizeLoop_ends n q hon.ended (by simp [hcons]) (by omega))

/-- At the end `advance` looks back, so there must be a token to see. -/
theorem synchronize_ends_at_end {n : ℕ} {p : Parser N} (hp : Ended p.tokens)
    (hbefore : p.before ≠ []) (hend : p.tokens.length = 1) (hn : 1 ≤ n) :
    Ends 0 (synchronize n) p := by
  obtain ⟨e, htokens⟩ := List.length_eq_one_iff.1 hend
  obtain ⟨t, before, ht⟩ := List.exists_cons_of_ne_nil hbefore
  have heof : e.type = .eof := (htokens ▸ hp : Ended [e]).eof_iff.2 rfl
  have hadvance : advance p = .ok t p := by
    simp [advance, previous, htokens, heof, ht]
  exact .of_ok hadvance (Onward.refl hp) (synchronizeLoop_ends n p hp hbefore (by omega))

/-- Wherever an exception comes from, a token at least is behind when the declaration returns: one
is skipped, or the end was reached by eating some. -/
theorem recover_ends {n : ℕ} {body : Parse N (Stmt N Unit)} {p : Parser N} (hbody : Ends 1 body p)
    (hmore : 2 ≤ p.tokens.length) (hn : p.tokens.length ≤ n) : Ends 1 (recover body n) p := by
  unfold Ends at hbody
  unfold Ends recover
  cases hb : body p with
  | stuck =>
    rw [hb] at hbody
    exact hbody
  | ok s q =>
    rw [hb] at hbody
    exact hbody
  | thrown q =>
    rw [hb] at hbody
    have hle := hbody.length_le
    simp only
    by_cases hend : q.tokens.length = 1
    · have hbefore := hbody.before_ne_nil (by omega)
      have hends : Ends 0 (synchronize n >>= fun _ => Pure.pure .null : Parse N (Stmt N Unit)) q :=
        .bind (synchronize_ends_at_end hbody.ended hbefore hend (by omega))
          fun _ r hr => .pure hr.ended
      unfold Ends at hends
      split at hends
      · exact (hbody.trans hends).eaten_of_lt (by have := hends.length_le; omega)
      · exact hbody.trans hends
      · exact hends
    · have hpos := hbody.ended.pos
      have hends : Ends 1 (synchronize n >>= fun _ => Pure.pure .null : Parse N (Stmt N Unit)) q :=
        .bind (synchronize_ends hbody.ended (by omega) (by omega)) fun _ r hr => .pure hr.ended
      unfold Ends at hends
      split at hends
      · exact hbody.trans hends
      · exact hbody.trans hends
      · exact hends

/-- Each pair of braces costs two units of fuel, one for the statement and one for the declaration
in it; a pair is two tokens. -/
theorem statement_declaration_ends (n : ℕ) :
    (∀ size, 2 * size ≤ n → 3 ≤ n → EndsWithin size 1 (statement n : Parse N (Stmt N Unit))) ∧
      ∀ size, 2 * size + 1 ≤ n → DeclarationEnds size (declaration n : Parse N (Stmt N Unit)) := by
  induction n with
  | zero => exact ⟨fun _ _ h => by omega, fun _ h => by omega⟩
  | succ n ih =>
    obtain ⟨ihs, ihd⟩ := ih
    refine ⟨fun size hsize hn p hp hle => ?_, fun size hsize p hp hmore hle => ?_⟩
    · obtain ⟨m, rfl⟩ : ∃ m, n = m + 1 := ⟨n - 1, by omega⟩
      have hpos := hp.pos
      obtain ⟨short, rfl⟩ : ∃ short, size = short + 1 := ⟨size - 1, by omega⟩
      have he : EndsWithin (short + 1) 1 (expression (m + 1) : Parse N (Expr N Unit)) :=
        fun q hq hqle => expression_ends m q hq (by omega)
      have hs : EndsWithin short 1 (statement (m + 1) : Parse N (Stmt N Unit)) := by
        intro q hq hqle
        have := hq.pos
        exact ihs short (by omega) (by omega) q hq hqle
      exact statementBody_ends he hs (ihd short (by omega)) (by omega) p hp hle
    · obtain ⟨m, rfl⟩ : ∃ m, n = m + 1 := ⟨n - 1, by omega⟩
      obtain ⟨short, rfl⟩ : ∃ short, size = short + 1 := ⟨size - 1, by omega⟩
      have he : EndsWithin short 1 (expression (m + 1) : Parse N (Expr N Unit)) :=
        fun q hq hqle => expression_ends m q hq (by omega)
      have hs : EndsWithin (short + 1) 1 (statement (m + 1) : Parse N (Stmt N Unit)) :=
        ihs (short + 1) (by omega) (by omega)
      have hbody := declarationBody_ends (n := m + 1) he hs (ihd short (by omega)) (by omega) p hp hle
      exact recover_ends hbody hmore (by omega)

/-! ### Nothing is thrown out of a declaration -/

theorem bind_thrown {f : Parse N α} {g : α → Parse N β} {p q : Parser N}
    (h : (f >>= g) p = .thrown q) :
    f p = .thrown q ∨ ∃ a r, f p = .ok a r ∧ g a r = .thrown q := by
  change Parse.bind f g p = .thrown q at h
  unfold Parse.bind at h
  cases hf : f p with
  | stuck =>
    rw [hf] at h
    cases h
  | thrown r =>
    rw [hf] at h
    cases h
    exact .inl rfl
  | ok a r =>
    rw [hf] at h
    exact .inr ⟨a, r, rfl, h⟩

theorem isAtEnd_ne_thrown (p q : Parser N) : isAtEnd p ≠ .thrown q := by
  unfold isAtEnd peek
  cases hp : p.tokens <;> simp [Bind.bind, Parse.bind, hp, Pure.pure]

theorem previous_ne_thrown (p q : Parser N) : previous p ≠ .thrown q := by
  unfold previous
  cases p.before <;> simp

theorem advance_ne_thrown (p q : Parser N) : advance p ≠ .thrown q := by
  unfold advance
  cases hp : p.tokens with
  | nil => simp
  | cons t rest =>
    simp only
    split
    · exact previous_ne_thrown p q
    · simp

theorem synchronizeLoop_ne_thrown (n : ℕ) : ∀ p q : Parser N,
    synchronizeLoop n p ≠ .thrown q := by
  induction n with
  | zero => exact fun p q h => by cases h
  | succ n ih =>
    intro p q h
    unfold synchronizeLoop at h
    rcases bind_thrown h with h | ⟨atEnd, r, -, h⟩
    · exact isAtEnd_ne_thrown p q h
    split at h
    · cases h
    rcases bind_thrown h with h | ⟨t, u, -, h⟩
    · exact previous_ne_thrown r q h
    split at h
    · cases h
    rcases bind_thrown h with h | ⟨t', v, -, h⟩
    · exact advance_ne_thrown u q h
    · exact ih v q h

theorem recover_ne_thrown {body : Parse N (Stmt N Unit)} (n : ℕ) (p q : Parser N) :
    recover body n p ≠ .thrown q := by
  unfold recover
  cases body p with
  | stuck => simp
  | ok s r => simp
  | thrown r =>
    intro h
    rcases bind_thrown h with h | ⟨_, u, -, h⟩
    · rcases bind_thrown h with h | ⟨t, u, -, h⟩
      · exact advance_ne_thrown r q h
      · exact synchronizeLoop_ne_thrown n u q h
    · cases h

/-- The loop of `parse` ends at the end. -/
theorem parseLoop_ends (n : ℕ) : ∀ p : Parser N, Ended p.tokens → 2 * p.tokens.length + 2 ≤ n →
    ∃ ss q, parseLoop n p = .ok ss q ∧ Onward 0 p q ∧ q.tokens.length = 1 := by
  induction n with
  | zero => exact fun p _ hn => by omega
  | succ n ih =>
    intro p hp hn
    obtain ⟨t, rest, htokens⟩ := List.exists_cons_of_ne_nil hp.ne_nil
    have heof := (htokens ▸ hp : Ended (t :: rest)).eof_iff
    have hat : isAtEnd p = .ok (decide (t.type = .eof)) p := by
      simp [isAtEnd, peek, Bind.bind, Parse.bind, htokens, Pure.pure]
    by_cases hrest : rest = []
    · refine ⟨[], p, ?_, Onward.refl hp, by simp [htokens, hrest]⟩
      simp [parseLoop, Bind.bind, Parse.bind, hat, heof.2 hrest, Pure.pure]
    · have hmore : 2 ≤ p.tokens.length := by
        have := List.length_pos_iff.2 hrest
        simp only [htokens, List.length_cons]
        omega
      have hends := (statement_declaration_ends n).2 p.tokens.length (by omega) p hp hmore (le_refl _)
      unfold Ends at hends
      cases hdecl : declaration n p with
      | stuck =>
        rw [hdecl] at hends
        exact False.elim hends
      | thrown q =>
        cases n with
        | zero => omega
        | succ n => exact absurd hdecl (recover_ne_thrown n p q)
      | ok s q =>
        rw [hdecl] at hends
        have hle := hends.length_le
        obtain ⟨ss, r, hloop, hr, hone⟩ := ih q hends.ended (by omega)
        refine ⟨s :: ss, r, ?_, (hends.trans hr).mono (Nat.zero_le _), hone⟩
        have hnot : decide (t.type = .eof) = false := decide_eq_false fun ht => hrest (heof.1 ht)
        simp [parseLoop, Bind.bind, Parse.bind, hat, hnot, hdecl, hloop, Pure.pure]

/-! ### No holes -/

namespace Stmt

variable {D : Type}

mutual

/-- Nowhere in the statement stands `null`. -/
def Whole : Stmt N D → Prop
  | .null => False
  | .block body => WholeList body
  | .class_ _ _ methods => WholeList methods
  | .function _ _ body => WholeList body
  | .if_ _ thenBranch none => thenBranch.Whole
  | .if_ _ thenBranch (some elseBranch) => thenBranch.Whole ∧ elseBranch.Whole
  | .while_ _ body => body.Whole
  | .expression _ | .print _ | .return_ _ _ | .var _ _ => True

/-- Neither is `null` in the list, nor in one of its statements. -/
def WholeList : List (Stmt N D) → Prop
  | [] => True
  | s :: ss => s.Whole ∧ WholeList ss

end

end Stmt

theorem derivesForInit_whole {init : Clox.ForInit N} {o : Option (Stmt N Unit)}
    {ts : List (Token N)} (h : DerivesForInit init o ts) : ∀ s ∈ o, s.Whole := by
  cases init with
  | empty =>
    obtain ⟨rfl, -⟩ := h
    simp
  | var name value =>
    obtain ⟨s, keyword, v, rfl, -, -, t, init', u, semicolon, rfl, -⟩ := h
    simp [Stmt.Whole]
  | expression e =>
    obtain ⟨e', v, semicolon, rfl, -⟩ := h
    simp [Stmt.Whole]

theorem desugarFor_whole {init : Option (Stmt N Unit)} {condition increment : Option (Expr N Unit)}
    {body : Stmt N Unit} (hinit : ∀ s ∈ init, s.Whole) (hbody : body.Whole) :
    (desugarFor init condition increment body).Whole := by
  cases init <;> cases increment <;> simp_all [desugarFor, Stmt.Whole, Stmt.WholeList]

mutual

theorem derives_whole : ∀ (s' : Clox.Stmt N) {s : Stmt N Unit} {ts : List (Token N)},
    s'.Derives s ts → s.Whole
  | .expression e', s, ts, h => by
    obtain ⟨e, v, semicolon, rfl, -⟩ := h
    trivial
  | .print e', s, ts, h => by
    obtain ⟨e, keyword, v, semicolon, rfl, -⟩ := h
    trivial
  | .var name init, s, ts, h => by
    obtain ⟨keyword, v, -, -, t, o, u, semicolon, rfl, -⟩ := h
    trivial
  | .block body', s, ts, h => by
    obtain ⟨body, opening, v, closing, rfl, -, -, -, hbody⟩ := h
    exact derivesList_whole body' hbody
  | .if_ condition' thenBranch' none, s, ts, h => by
    obtain ⟨condition, thenBranch, keyword, opening, u, closing, v, rfl, -, -, -, -, -, -, hthen⟩ := h
    have hwhole := derives_whole thenBranch' hthen
    exact hwhole
  | .if_ condition' thenBranch' (some elseBranch'), s, ts, h => by
    obtain ⟨condition, thenBranch, elseBranch, keyword, opening, u, closing, v, else_, w, rfl, -, -,
      -, -, -, -, ⟨-, -, hthen⟩, -, helse⟩ := h
    exact ⟨derives_whole thenBranch' hthen, derives_whole elseBranch' helse⟩
  | .while_ condition' body', s, ts, h => by
    obtain ⟨condition, body, keyword, opening, u, closing, v, rfl, -, -, -, -, -, -, hbody⟩ := h
    have hwhole := derives_whole body' hbody
    exact hwhole
  | .for_ init' condition' increment' body', s, ts, h => by
    obtain ⟨init, condition, increment, body, keyword, opening, a, u, semicolon, v, closing, w, rfl,
      -, -, -, -, -, hinit, -, -, -, hbody⟩ := h
    exact desugarFor_whole (derivesForInit_whole hinit) (derives_whole body' hbody)
  | .function name params' body', s, ts, h => by
    obtain ⟨t, params, body, opening, u, closing, left, v, right, rfl, -, -, -, -, -, -, -, -, -, -,
      hbody⟩ := h
    exact derivesList_whole body' hbody
  | .return_ value', s, ts, h => by
    obtain ⟨value, keyword, v, semicolon, rfl, -⟩ := h
    trivial
  | .class_ name superclass' methods', s, ts, h => by
    obtain ⟨keyword, t, superclass, methods, u, opening, v, closing, rfl, -, -, -, -, -, -, -,
      hmethods⟩ := h
    exact derivesMethods_whole methods' hmethods

theorem derivesList_whole : ∀ (ss' : List (Clox.Stmt N)) {ss : List (Stmt N Unit)}
    {ts : List (Token N)}, Clox.Stmt.DerivesList ss' ss ts → Stmt.WholeList ss
  | [], ss, ts, h => by
    obtain ⟨rfl, -⟩ := h
    trivial
  | s' :: ss', ss, ts, h => by
    obtain ⟨s, rest, u, v, rfl, -, hs, hss⟩ := h
    refine ⟨?_, derivesList_whole ss' hss⟩
    unfold Clox.Stmt.Declares at hs
    split at hs
    · obtain ⟨keyword, w, -, -, hs⟩ := hs
      exact derives_whole _ hs
    · exact derives_whole _ hs

theorem derivesMethods_whole : ∀ (ss' : List (Clox.Stmt N)) {ss : List (Stmt N Unit)}
    {ts : List (Token N)}, Clox.Stmt.DerivesMethods ss' ss ts → Stmt.WholeList ss
  | [], ss, ts, h => by
    obtain ⟨rfl, -⟩ := h
    trivial
  | s' :: ss', ss, ts, h => by
    obtain ⟨-, s, rest, u, v, rfl, -, hs, hss⟩ := h
    exact ⟨derives_whole s' hs, derivesMethods_whole ss' hss⟩

end

/-- `parse` returns for every token list that ends in its only `EOF`, never outside the list, and
with `current` at the `EOF`; and if no error was reported, no statement list holds a `null`. -/
theorem parse_total (tokens : List (Token N)) (h : Ended tokens) :
    ∃ ss p, parse tokens = .ok ss p ∧ p.before.reverse ++ p.tokens = tokens ∧
      (∃ e, p.tokens = [e] ∧ e.type = .eof) ∧ (p.errors = [] → Stmt.WholeList ss) := by
  obtain ⟨ss, p, hparse, ⟨hended, used, htokens, hbefore, -⟩, hone⟩ :=
    parseLoop_ends (2 * tokens.length + 2) ⟨[], tokens, []⟩ h (le_refl _)
  obtain ⟨e, he⟩ := List.length_eq_one_iff.1 hone
  refine ⟨ss, p, hparse, ?_, ⟨e, he, (he ▸ hended : Ended [e]).eof_iff.2 rfl⟩, fun herrors => ?_⟩
  · simp [hbefore, ← htokens]
  · have hsound := parseLoop_parses (2 * tokens.length + 2) (⟨[], tokens, []⟩ : Parser N)
    rw [hparse] at hsound
    obtain ⟨used', -, ⟨ss', hss⟩, -⟩ := hsound.2 (by simp [herrors])
    exact derivesList_whole ss' hss

/-- `print 1` without its semicolon: the error is met at the end, where `synchronize` looks back. -/
theorem parse_total_unfinished : ∃ ss p,
    parse [⟨.print_, "print".toList, .nil, 1⟩, ⟨.number, "1".toList, .number 1, 1⟩,
      (⟨.eof, [], .nil, 1⟩ : Token ℕ)] = .ok ss p ∧ ∃ e, p.tokens = [e] ∧ e.type = .eof := by
  have hended : Ended [⟨.print_, "print".toList, .nil, 1⟩, ⟨.number, "1".toList, .number 1, 1⟩,
      (⟨.eof, [], .nil, 1⟩ : Token ℕ)] :=
    ⟨[⟨.print_, "print".toList, .nil, 1⟩, ⟨.number, "1".toList, .number 1, 1⟩], ⟨.eof, [], .nil, 1⟩,
      rfl, rfl, by decide⟩
  obtain ⟨ss, p, hparse, -, hend, -⟩ := parse_total _ hended
  exact ⟨ss, p, hparse, hend⟩

end Lox.Jlox
