import Lox.ToClox
import Lox.Clox.Scanner

/-!
# Keywords

`identifierType` is a trie of nested cases, and two of the outer ones have no `break`: a lexeme with
`f` whose second letter begins no keyword is looked at as if it began with `i`, and one with `t` as
if it began with `v`.  `trie` lists what the cases recognise: the keywords of jlox, and two words
that are not keywords.
-/

namespace Lox

open Clox (Lexer)

/-- The scanner after a lexeme: it began where the lexeme does, and is at what comes after it. -/
def Clox.Lexer.after (text rest : List Char) (line : ℕ) : Lexer := ⟨text ++ rest, rest, line⟩

/-- What `identifierType` says of a lexeme, if it is not an identifier. -/
def trie : List (Name × Clox.TokenType) :=
  Jlox.keywords.map (fun k => (k.1, k.2.toClox)) ++ [("ff".toList, .if_), ("tar".toList, .var_)]

/-- The type that the map of jlox gives a lexeme. -/
def keywordType (text : Name) : Clox.TokenType :=
  ((Jlox.keywords.lookup text).getD .identifier).toClox

theorem checkKeyword_after (front back rest : List Char) (line length : ℕ) (word : String)
    (type : Clox.TokenType) (hword : word.toList.length = length) :
    (Lexer.after (front ++ back) rest line).checkKeyword front.length length word type =
      if back = word.toList then type else .identifier := by
  unfold Lexer.checkKeyword Lexer.after Lexer.length
  congr 1
  simp only [List.append_assoc, List.length_append, List.drop_left, Bool.and_eq_true,
    decide_eq_true_eq, eq_iff_iff]
  constructor
  · rintro ⟨hlength, heq⟩
    rwa [List.take_left' (by omega)] at heq
  · rintro rfl
    exact ⟨by omega, List.take_left' hword⟩

/-- A case of the trie adds nothing to it. -/
theorem checkKeyword_mem_trie (front back rest : List Char) (line length : ℕ) (word : String)
    (type : Clox.TokenType) (hword : word.toList.length = length)
    (hmem : (front ++ word.toList, type) ∈ trie) :
    (Lexer.after (front ++ back) rest line).checkKeyword front.length length word type =
        .identifier ∨
      (front ++ back,
        (Lexer.after (front ++ back) rest line).checkKeyword front.length length word type) ∈
        trie := by
  rw [checkKeyword_after front back rest line length word type hword]
  by_cases h : back = word.toList
  · rw [if_pos h, h]
    exact .inr hmem
  · rw [if_neg h]
    exact .inl rfl

theorem identifierType_mem_trie (c : Char) (cs rest : List Char) (line : ℕ) :
    (Lexer.after (c :: cs) rest line).identifierType = .identifier ∨
      (c :: cs, (Lexer.after (c :: cs) rest line).identifierType) ∈ trie := by
  unfold Lexer.identifierType
  split
  -- The first letter is known from here on.
  all_goals try (rename_i hc; obtain ⟨rfl, rfl⟩ := List.cons.inj hc)
  case h_4 =>
    cases cs with
    | nil =>
      rw [show decide ((Lexer.after ['f'] rest line).length > 1) = false by
        simp [Lexer.after, Lexer.length]]
      exact checkKeyword_mem_trie ['f'] [] rest line 1 "f" .if_ rfl (by decide)
    | cons d cs =>
      split
      · rename_i hd
        obtain ⟨rfl, -⟩ := List.cons.inj hd
        exact checkKeyword_mem_trie ['f', 'a'] cs rest line 3 "lse" .false_ rfl (by decide)
      · rename_i hd
        obtain ⟨rfl, -⟩ := List.cons.inj hd
        exact checkKeyword_mem_trie ['f', 'o'] cs rest line 1 "r" .for_ rfl (by decide)
      · rename_i hd
        obtain ⟨rfl, -⟩ := List.cons.inj hd
        exact checkKeyword_mem_trie ['f', 'u'] cs rest line 1 "n" .fun_ rfl (by decide)
      · exact checkKeyword_mem_trie ['f'] (d :: cs) rest line 1 "f" .if_ rfl (by decide)
  case h_11 =>
    cases cs with
    | nil =>
      rw [show decide ((Lexer.after ['t'] rest line).length > 1) = false by
        simp [Lexer.after, Lexer.length]]
      exact checkKeyword_mem_trie ['t'] [] rest line 2 "ar" .var_ rfl (by decide)
    | cons d cs =>
      split
      · rename_i hd
        obtain ⟨rfl, -⟩ := List.cons.inj hd
        exact checkKeyword_mem_trie ['t', 'h'] cs rest line 2 "is" .this_ rfl (by decide)
      · rename_i hd
        obtain ⟨rfl, -⟩ := List.cons.inj hd
        exact checkKeyword_mem_trie ['t', 'r'] cs rest line 2 "ue" .true_ rfl (by decide)
      · exact checkKeyword_mem_trie ['t'] (d :: cs) rest line 2 "ar" .var_ rfl (by decide)
  case h_14 => exact .inl rfl
  case h_1 => exact checkKeyword_mem_trie ['a'] cs rest line 2 "nd" .and_ rfl (by decide)
  case h_2 => exact checkKeyword_mem_trie ['c'] cs rest line 4 "lass" .class_ rfl (by decide)
  case h_3 => exact checkKeyword_mem_trie ['e'] cs rest line 3 "lse" .else_ rfl (by decide)
  case h_5 => exact checkKeyword_mem_trie ['i'] cs rest line 1 "f" .if_ rfl (by decide)
  case h_6 => exact checkKeyword_mem_trie ['n'] cs rest line 2 "il" .nil_ rfl (by decide)
  case h_7 => exact checkKeyword_mem_trie ['o'] cs rest line 1 "r" .or_ rfl (by decide)
  case h_8 => exact checkKeyword_mem_trie ['p'] cs rest line 4 "rint" .print_ rfl (by decide)
  case h_9 => exact checkKeyword_mem_trie ['r'] cs rest line 5 "eturn" .return_ rfl (by decide)
  case h_10 => exact checkKeyword_mem_trie ['s'] cs rest line 4 "uper" .super_ rfl (by decide)
  case h_12 => exact checkKeyword_mem_trie ['v'] cs rest line 2 "ar" .var_ rfl (by decide)
  case h_13 => exact checkKeyword_mem_trie ['w'] cs rest line 4 "hile" .while_ rfl (by decide)

theorem identifierType_of_mem_trie {k : Name × Clox.TokenType} (hk : k ∈ trie) (rest : List Char)
    (line : ℕ) : (Lexer.after k.1 rest line).identifierType = k.2 := by
  have hall : ∀ k ∈ trie, (Lexer.after k.1 rest line).identifierType = k.2 := by
    simp [trie, Jlox.keywords, Lexer.identifierType, Lexer.after, Lexer.checkKeyword, Lexer.length,
      Jlox.TokenType.toClox]
  exact hall k hk

/-- The keywords are what the cases recognise, but for two words. -/
theorem keywordType_of_mem_trie : ∀ k ∈ trie, keywordType k.1 = k.2 ↔
    k.1 ≠ "ff".toList ∧ k.1 ≠ "tar".toList := by decide

theorem keywordType_of_not_mem_trie {text : Name} (h : ∀ type, (text, type) ∉ trie) :
    keywordType text = .identifier := by
  unfold keywordType
  cases hlookup : Jlox.keywords.lookup text with
  | none => rfl
  | some type =>
    obtain ⟨before, after, heq, -⟩ := List.lookup_eq_some_iff.1 hlookup
    refine (h type.toClox (List.mem_append_left _ (List.mem_map.2 ⟨(text, type), ?_, rfl⟩))).elim
    simp [heq]

/-- After any lexeme, `identifierType` gives the type that the map of jlox has for it, unless the
lexeme is one of the two words that fall through to another letter. -/
theorem identifierType_eq_keywordType_iff (c : Char) (cs rest : List Char) (line : ℕ) :
    (Lexer.after (c :: cs) rest line).identifierType = keywordType (c :: cs) ↔
      c :: cs ≠ "ff".toList ∧ c :: cs ≠ "tar".toList := by
  by_cases h : ∃ type, (c :: cs, type) ∈ trie
  · obtain ⟨type, hmem⟩ := h
    rw [identifierType_of_mem_trie hmem rest line, eq_comm]
    exact keywordType_of_mem_trie _ hmem
  · have hnot : ∀ type, (c :: cs, type) ∉ trie := fun type hmem => h ⟨type, hmem⟩
    have hidentifier := (identifierType_mem_trie c cs rest line).resolve_right (hnot _)
    rw [hidentifier, keywordType_of_not_mem_trie hnot]
    refine iff_of_true rfl ⟨fun heq => hnot .if_ ?_, fun heq => hnot .var_ ?_⟩
    · rw [heq]
      decide
    · rw [heq]
      decide

/-- `ff`, before a semicolon, is an identifier, and is taken for `if`. -/
theorem identifierType_ff :
    ("ff".toList.all fun c => Clox.isAlpha c || Clox.isDigit c) ∧
    (Lexer.after "ff".toList ";".toList 1).identifierType = .if_ ∧
    (Lexer.after "ff".toList ";".toList 1).identifierType ≠ keywordType "ff".toList := by decide

end Lox
