import Lox.Jlox.ParserTotal
import Mathlib.Order.Bounds.Basic

/-!
# Where error recovery of jlox stops

`synchronize` is meant to stop where a statement ends or where the next one begins.  Its `break`
leaves the `switch` only, so a keyword does not stop it: it goes on to the next semicolon or to the
end.  Positions are indices in the whole token list, as `current` is.
-/

namespace Lox.Jlox

open Jlox.Parser

variable {N : Type}

/-- The parser with `current` at `i`. -/
def Parser.standingAt (ts : List (Token N)) (i : ℕ) (errors : List (Token N × String)) : Parser N :=
  ⟨(ts.take i).reverse, ts.drop i, errors⟩

/-- The type of the token at `i`. -/
def typeAt (ts : List (Token N)) (i : ℕ) : Option TokenType :=
  ts[i]?.map (·.type)

/-- The keywords of the `switch` in `synchronize`. -/
def startsStatement (type : TokenType) : Prop :=
  type ∈ [TokenType.class_, .fun_, .var_, .for_, .if_, .while_, .print_, .return_]

/-- The end, or a semicolon before the token at `i`. -/
def StatementOver (ts : List (Token N)) (i : ℕ) : Prop :=
  typeAt ts i = some .eof ∨ typeAt ts (i - 1) = some .semicolon

/-- A statement is over, or the next one begins at `i`. -/
def StatementBoundary (ts : List (Token N)) (i : ℕ) : Prop :=
  StatementOver ts i ∨ ∃ type, typeAt ts i = some type ∧ startsStatement type

/-! ### One step of the parser at an index -/

section Steps

variable {ts : List (Token N)} {i : ℕ} {errors : List (Token N × String)} {t : Token N}

theorem drop_of_getElem? (h : ts[i]? = some t) : ts.drop i = t :: ts.drop (i + 1) := by
  obtain ⟨hlt, rfl⟩ := List.getElem?_eq_some_iff.1 h
  exact List.drop_eq_getElem_cons hlt

theorem take_of_getElem? (h : ts[i]? = some t) :
    (ts.take (i + 1)).reverse = t :: (ts.take i).reverse := by
  rw [List.take_add_one, h]
  simp

theorem isAtEnd_standingAt (h : ts[i]? = some t) :
    isAtEnd (standingAt ts i errors) = .ok (decide (t.type = .eof)) (standingAt ts i errors) := by
  simp [isAtEnd, peek, standingAt, drop_of_getElem? h, Bind.bind, Parse.bind, Pure.pure]

theorem previous_standingAt (h : ts[i]? = some t) :
    previous (standingAt ts (i + 1) errors) = .ok t (standingAt ts (i + 1) errors) := by
  simp [previous, standingAt, take_of_getElem? h]

theorem advance_standingAt (h : ts[i]? = some t) (ht : t.type ≠ .eof) :
    advance (standingAt ts i errors) = .ok t (standingAt ts (i + 1) errors) := by
  simp [advance, standingAt, drop_of_getElem? h, take_of_getElem? h, ht]

end Steps

/-! ### The loop -/

section Loop

variable {ts : List (Token N)} (errors : List (Token N × String))

/-- The loop stops at the first index from `i + 1` on where a statement is over. -/
theorem synchronizeLoop_least (hlast : typeAt ts (ts.length - 1) = some .eof) (n : ℕ) :
    ∀ i, i + 1 < ts.length → ts.length ≤ n + i + 1 →
      ∃ j, synchronizeLoop n (standingAt ts (i + 1) errors) = .ok () (standingAt ts j errors) ∧
        IsLeast {j | i < j ∧ StatementOver ts j} j := by
  induction n with
  | zero =>
    intro i hlt hn
    omega
  | succ n ih =>
    intro i hlt hn
    have hi : ts[i]? = some ts[i] := List.getElem?_eq_getElem (by omega)
    have hnext : ts[i + 1]? = some ts[i + 1] := List.getElem?_eq_getElem hlt
    by_cases heof : ts[i + 1].type = .eof
    · refine ⟨i + 1, ?_, ⟨Nat.lt_succ_self i, .inl ?_⟩, fun j hj => hj.1⟩
      · simp [synchronizeLoop, Bind.bind, Parse.bind, isAtEnd_standingAt hnext, heof, Pure.pure]
      · simp [typeAt, hnext, heof]
    · by_cases hsemicolon : ts[i].type = .semicolon
      · refine ⟨i + 1, ?_, ⟨Nat.lt_succ_self i, .inr ?_⟩, fun j hj => hj.1⟩
        · simp [synchronizeLoop, Bind.bind, Parse.bind, isAtEnd_standingAt hnext, heof,
            previous_standingAt hi, hsemicolon, Pure.pure]
        · simp [typeAt, hi, hsemicolon]
      · -- one token further: it is not the last one, since that is the end
        have hfurther : i + 2 < ts.length := by
          by_contra hge
          have hlen : ts.length - 1 = i + 1 := by omega
          rw [hlen] at hlast
          simp [typeAt, hnext, heof] at hlast
        obtain ⟨j, hloop, ⟨hj, hover⟩, hleast⟩ := ih (i + 1) hfurther (by omega)
        refine ⟨j, ?_, ⟨by omega, hover⟩, fun k hk => ?_⟩
        · simp [synchronizeLoop, Bind.bind, Parse.bind, isAtEnd_standingAt hnext, heof,
            previous_standingAt hi, hsemicolon, advance_standingAt hnext heof, hloop]
        · obtain ⟨hlt', hover'⟩ := hk
          refine hleast ⟨?_, hover'⟩
          by_contra hge
          have hk : k = i + 1 := by omega
          subst hk
          rcases hover' with h | h
          · simp [typeAt, hnext, heof] at h
          · simp [typeAt, hi, hsemicolon] at h

/-- `synchronize` stops at the first index after `start` where a statement is over. -/
theorem synchronize_least {start n : ℕ} (hlast : typeAt ts (ts.length - 1) = some .eof)
    (hstart : ∃ t, ts[start]? = some t ∧ t.type ≠ .eof) (hn : ts.length ≤ n) :
    ∃ i, synchronize n (standingAt ts start errors) = .ok () (standingAt ts i errors) ∧
      IsLeast {i | start < i ∧ StatementOver ts i} i := by
  obtain ⟨t, ht, hne⟩ := hstart
  have hlt : start < ts.length := (List.getElem?_eq_some_iff.1 ht).1
  have hnext : start + 1 < ts.length := by
    by_contra hge
    have hlen : ts.length - 1 = start := by omega
    rw [hlen] at hlast
    simp [typeAt, ht, hne] at hlast
  obtain ⟨i, hloop, hleast⟩ := synchronizeLoop_least errors hlast n start hnext (by omega)
  refine ⟨i, ?_, hleast⟩
  simp [synchronize, Bind.bind, Parse.bind, advance_standingAt ht hne, hloop]

/-- `synchronize` stops at the first statement boundary exactly when, of the keywords after `start`,
each has the end of a statement before it. -/
theorem synchronize_boundary_iff (ts : List (Token N)) (start n : ℕ)
    (errors : List (Token N × String)) (hlast : typeAt ts (ts.length - 1) = some .eof)
    (hstart : ∃ t, ts[start]? = some t ∧ t.type ≠ .eof) (hn : ts.length ≤ n) :
    ∃ i, synchronize n (standingAt ts start errors) = .ok () (standingAt ts i errors) ∧
      (IsLeast {i | start < i ∧ StatementBoundary ts i} i ↔
        ∀ j type, start < j → typeAt ts j = some type → startsStatement type →
          ∃ k, start < k ∧ k ≤ j ∧ StatementOver ts k) := by
  obtain ⟨i, heq, ⟨hi, hover⟩, hleast⟩ := synchronize_least errors hlast hstart hn
  refine ⟨i, heq, fun hboundary j type hj htype hkeyword => ?_, fun hkeywords => ?_⟩
  · have hle : i ≤ j := hboundary.2 ⟨hj, .inr ⟨type, htype, hkeyword⟩⟩
    exact ⟨i, hi, hle, hover⟩
  · refine ⟨⟨hi, .inl hover⟩, fun j hj => ?_⟩
    obtain ⟨hlt, hj | ⟨type, htype, hkeyword⟩⟩ := hj
    · exact hleast ⟨hlt, hj⟩
    · obtain ⟨k, hk, hle, hk'⟩ := hkeywords j type hlt htype hkeyword
      exact (hleast ⟨hk, hk'⟩).trans hle

end Loop

/-- The tokens of `2; print`. -/
def semicolonBeforeKeyword : List (Token ℕ) :=
  [⟨.number, "2".toList, .number 2, 1⟩, ⟨.semicolon, ";".toList, .nil, 1⟩,
    ⟨.print_, "print".toList, .nil, 1⟩, ⟨.eof, [], .nil, 1⟩]

/-- The keyword of `2; print` comes after a semicolon, and `synchronize` stops at it. -/
theorem synchronize_boundary_iff_semicolon :
    ∃ i, synchronize 4 (standingAt semicolonBeforeKeyword 0 []) =
        .ok () (standingAt semicolonBeforeKeyword i []) ∧
      IsLeast {i | 0 < i ∧ StatementBoundary semicolonBeforeKeyword i} i := by
  obtain ⟨i, heq, hiff⟩ := synchronize_boundary_iff semicolonBeforeKeyword 0 4 [] rfl
    ⟨_, rfl, by decide⟩ (by decide)
  refine ⟨i, heq, hiff.2 fun j type hj htype hkeyword => ⟨2, by omega, ?_, .inr rfl⟩⟩
  by_contra hlt
  have hj : j = 1 := by omega
  subst hj
  obtain rfl : TokenType.semicolon = type := Option.some.inj htype
  simp [startsStatement] at hkeyword

/-- The tokens of `) print 1;`. -/
def keywordBeforeSemicolon : List (Token ℕ) :=
  [⟨.rightParen, ")".toList, .nil, 1⟩, ⟨.print_, "print".toList, .nil, 1⟩,
    ⟨.number, "1".toList, .number 1, 1⟩, ⟨.semicolon, ";".toList, .nil, 1⟩, ⟨.eof, [], .nil, 1⟩]

/-- In `) print 1;` the statement that begins at index 1 is skipped. -/
theorem synchronize_skips_statement :
    ¬ ∀ (ts : List (Token ℕ)) (start n : ℕ), typeAt ts (ts.length - 1) = some .eof →
      (∃ t, ts[start]? = some t ∧ t.type ≠ .eof) → ts.length ≤ n →
      ∃ i, synchronize n (standingAt ts start []) = .ok () (standingAt ts i []) ∧
        IsLeast {i | start < i ∧ StatementBoundary ts i} i := by
  intro hclaim
  obtain ⟨i, heq, hleast⟩ := hclaim keywordBeforeSemicolon 0 5 rfl ⟨_, rfl, by decide⟩ (by decide)
  have hle : i ≤ 1 := hleast.2 ⟨Nat.one_pos, .inr ⟨.print_, rfl, by simp [startsStatement]⟩⟩
  have hstop : synchronize 5 (standingAt keywordBeforeSemicolon 0 []) =
      .ok () (standingAt keywordBeforeSemicolon 4 []) := rfl
  rw [hstop] at heq
  injection heq with _ heq
  have hlength := congrArg (fun p : Parser ℕ => p.tokens.length) heq
  simp only [standingAt, List.length_drop, keywordBeforeSemicolon, List.length_cons,
    List.length_nil] at hlength
  omega

end Lox.Jlox
