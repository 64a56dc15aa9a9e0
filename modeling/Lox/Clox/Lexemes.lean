import Lox.ScannersAgree
import Mathlib.Data.List.TakeWhile

/-!
# The scanner of clox loses nothing

`Lexed before text tokens` says how a text, after what comes before it, is cut into tokens: blanks,
a lexeme, blanks, a lexeme, up to the end.  Each lexeme is the longest of its kind, and the line of a
token counts the newlines up to its end.  The calls of `scanToken` return exactly these tokens, and
then `TOKEN_EOF` for ever.
-/

namespace Lox.Clox

/-! ### Blanks and lexemes -/

/-- Spaces and comments before `rest`; a comment goes on to the end of its line. -/
inductive Blank : List Char → List Char → Prop
  | nil (rest : List Char) : Blank [] rest
  | space {c : Char} {gap rest : List Char} (hc : c ∈ [' ', '\r', '\t', '\n'])
      (h : Blank gap rest) : Blank (c :: gap) rest
  | comment {body gap rest : List Char} (hbody : '\n' ∉ body)
      (hend : ∀ c ∈ (gap ++ rest).head?, c = '\n') (h : Blank gap rest) :
      Blank ('/' :: '/' :: (body ++ gap)) rest

/-- Of all prefixes of the text that are of a kind, `lexeme` is the longest one. -/
def Longest (kind : List Char → Prop) (lexeme rest : List Char) : Prop :=
  kind lexeme ∧ ∀ s, kind s → s <+: lexeme ++ rest → s.length ≤ lexeme.length

/-- A letter, and then letters and digits. -/
def IsIdentifier (s : List Char) : Prop :=
  ∃ c cs, s = c :: cs ∧ isAlpha c = true ∧ ∀ d ∈ cs, (isAlpha d || isDigit d) = true

/-- One digit or more. -/
def IsDigits (s : List Char) : Prop := s ≠ [] ∧ ∀ c ∈ s, isDigit c = true

/-- Digits, and perhaps a point with more digits. -/
def IsNumber (s : List Char) : Prop :=
  ∃ whole, IsDigits whole ∧ (s = whole ∨ ∃ fraction, IsDigits fraction ∧ s = whole ++ '.' :: fraction)

/-- The tokens of one and of two characters. -/
def operators : List (List Char × TokenType) :=
  [(['('], .leftParen), ([')'], .rightParen), (['{'], .leftBrace), (['}'], .rightBrace),
   ([';'], .semicolon), ([','], .comma), (['.'], .dot), (['-'], .minus), (['+'], .plus),
   (['/'], .slash), (['*'], .star), (['!'], .bang), (['!', '='], .bangEqual), (['='], .equal),
   (['=', '='], .equalEqual), (['<'], .less), (['<', '='], .lessEqual), (['>'], .greater),
   (['>', '='], .greaterEqual)]

/-- One of the operators. -/
def IsOperator (s : List Char) : Prop := s ∈ operators.map (·.1)

/-- What a token of the type has for its lexeme, before `rest`. -/
inductive Lexes : TokenType → List Char → List Char → Prop
  | number {lexeme rest : List Char} (h : Longest IsNumber lexeme rest) : Lexes .number lexeme rest
  | identifier {type : TokenType} {lexeme rest : List Char} (htype : type.plain = .identifier)
      (h : Longest IsIdentifier lexeme rest) : Lexes type lexeme rest
  | operator {type : TokenType} {lexeme rest : List Char} (htype : (lexeme, type) ∈ operators)
      (h : Longest IsOperator lexeme rest) : Lexes type lexeme rest
  | string {body rest : List Char} (h : '"' ∉ body) :
      Lexes .string ('"' :: (body ++ ['"'])) rest

/-- The character begins no lexeme. -/
def BeginsNothing (c : Char) : Prop :=
  isAlpha c = false ∧ isDigit c = false ∧ c ≠ '"' ∧ ∀ s, IsOperator s → s.head? ≠ some c

/-- The characters of an error token, and its message. -/
inductive Errs : String → List Char → List Char → Prop
  | unexpected {c : Char} {rest : List Char} (h : BeginsNothing c) :
      Errs "Unexpected character." [c] rest
  | unterminated {body : List Char} (h : '"' ∉ body) :
      Errs "Unterminated string." ('"' :: body) []

/-- The line on which a text ends. -/
def lineAfter (text : List Char) : ℕ := 1 + text.count '\n'

/-- The text, after what comes before it, is cut into the tokens. -/
inductive Lexed : List Char → List Char → List Token → Prop
  | eof {before gap : List Char} (hgap : Blank gap []) :
      Lexed before gap [⟨.eof, [], 0, lineAfter (before ++ gap)⟩]
  | token {before gap lexeme rest : List Char} {type : TokenType} {tokens : List Token}
      (hgap : Blank gap (lexeme ++ rest)) (hlexeme : Lexes type lexeme rest)
      (hrest : Lexed (before ++ gap ++ lexeme) rest tokens) :
      Lexed before (gap ++ (lexeme ++ rest))
        (⟨type, lexeme ++ rest, lexeme.length, lineAfter (before ++ gap ++ lexeme)⟩ :: tokens)
  | error {before gap lexeme rest : List Char} {message : String} {tokens : List Token}
      (hgap : Blank gap (lexeme ++ rest)) (hlexeme : Errs message lexeme rest)
      (hrest : Lexed (before ++ gap ++ lexeme) rest tokens) :
      Lexed before (gap ++ (lexeme ++ rest))
        (⟨.error, message.toList, message.toList.length, lineAfter (before ++ gap ++ lexeme)⟩ :: tokens)

/-! ### Blanks -/

/-- `skipWhitespace` skips blanks, and counts their newlines. -/
theorem skipWhitespace_blank (text : List Char) (line : ℕ) :
    ∃ gap, text = gap ++ (Lexer.skipWhitespace text line).1 ∧
      Blank gap (Lexer.skipWhitespace text line).1 ∧
      (Lexer.skipWhitespace text line).2 = line + gap.count '\n' ∧
      (Lexer.skipWhitespace text line).1.head? ≠ some '\n' := by
  fun_induction Lexer.skipWhitespace text line with
  | case1 line => exact ⟨[], rfl, .nil _, rfl, by simp⟩
  | case2 c cs line hspace ih =>
    obtain ⟨gap, htext, hblank, hline, hhead⟩ := ih
    have hc : c = ' ' ∨ c = '\r' ∨ c = '\t' := by simpa [or_assoc] using hspace
    have hnewline : c ≠ '\n' := by rcases hc with rfl | rfl | rfl <;> decide
    refine ⟨c :: gap, ?_, .space ?_ hblank, ?_, hhead⟩
    · rw [List.cons_append, ← htext]
    · rcases hc with rfl | rfl | rfl <;> decide
    · rw [hline, List.count_cons_of_ne hnewline]
  | case3 cs line hspace ih =>
    obtain ⟨gap, htext, hblank, hline, hhead⟩ := ih
    refine ⟨'\n' :: gap, ?_, .space (by decide) hblank, ?_, hhead⟩
    · rw [List.cons_append, ← htext]
    · rw [hline, List.count_cons_self]
      omega
  | case4 line rest hspace hnewline ih =>
    -- the comment takes all characters before the newline, which the next round sees
    obtain ⟨gap, htext, hblank, hline, hnext⟩ := ih
    have hbody : '\n' ∉ rest.takeWhile fun c => decide (c ≠ '\n') := fun hmem => by
      simpa using List.mem_takeWhile_imp hmem
    refine ⟨'/' :: '/' :: (rest.takeWhile (fun c => decide (c ≠ '\n')) ++ gap), ?_,
      .comment hbody ?_ hblank, ?_, hnext⟩
    · rw [List.cons_append, List.cons_append, List.append_assoc, ← htext,
        List.takeWhile_append_dropWhile]
    · rw [← htext]
      intro c hc
      have hhead := List.head?_dropWhile_not (fun c => decide (c ≠ '\n')) rest
      rw [Option.mem_def.1 hc] at hhead
      simpa using hhead
    · rw [hline, List.count_cons_of_ne (by decide), List.count_cons_of_ne (by decide),
        List.count_append, List.count_eq_zero.2 hbody, Nat.zero_add]
  | case5 cs line hcs hspace hnewline => exact ⟨[], rfl, .nil _, rfl, by simp⟩
  | case6 c cs line hspace hnewline hslash => exact ⟨[], rfl, .nil _, rfl, by simpa using hnewline⟩

/-! ### Longest lexemes -/

theorem length_le_takeWhile {p : Char → Bool} {s text : List Char} (h : s <+: text)
    (hs : ∀ c ∈ s, p c = true) : s.length ≤ (text.takeWhile p).length := by
  obtain ⟨rest, rfl⟩ := h
  rw [List.takeWhile_append_of_pos hs, List.length_append]
  omega

theorem longest_identifier {c : Char} (text : List Char) (hc : isAlpha c = true) :
    Longest IsIdentifier (c :: text.takeWhile fun c => isAlpha c || isDigit c)
      (text.dropWhile fun c => isAlpha c || isDigit c) := by
  have hrest : ∀ d ∈ text.takeWhile fun c => isAlpha c || isDigit c, (isAlpha d || isDigit d) = true :=
    fun d hd => List.mem_takeWhile_imp (p := fun c => isAlpha c || isDigit c) hd
  refine ⟨⟨c, _, rfl, hc, hrest⟩, ?_⟩
  rintro s ⟨d, ds, rfl, -, hds⟩ hpre
  rw [List.cons_append, List.takeWhile_append_dropWhile, List.cons_prefix_cons] at hpre
  have hle := length_le_takeWhile hpre.2 hds
  simpa using hle

/-- Digits without a fraction after them. -/
theorem longest_whole {text : List Char} (hne : text.takeWhile isDigit ≠ [])
    (h : ∀ d rest, text.dropWhile isDigit = '.' :: d :: rest → isDigit d = false) :
    Longest IsNumber (text.takeWhile isDigit) (text.dropWhile isDigit) := by
  refine ⟨⟨_, ⟨hne, fun c hc => List.mem_takeWhile_imp hc⟩, .inl rfl⟩, ?_⟩
  rintro s ⟨whole, ⟨-, hwhole⟩, rfl | ⟨fraction, ⟨hfraction, hdigits⟩, rfl⟩⟩ hpre
  · rw [List.takeWhile_append_dropWhile] at hpre
    exact length_le_takeWhile hpre hwhole
  · obtain ⟨d, ds, rfl⟩ := List.exists_cons_of_ne_nil hfraction
    rw [List.takeWhile_append_dropWhile] at hpre
    obtain ⟨rest, rfl⟩ := hpre
    have hdrop : (whole ++ '.' :: d :: ds ++ rest).dropWhile isDigit = '.' :: d :: (ds ++ rest) := by
      rw [List.append_assoc, List.dropWhile_append_of_pos hwhole]
      rfl
    have hd := h d (ds ++ rest) hdrop
    rw [hdigits d (by simp)] at hd
    cases hd

/-- Digits with a fraction after them. -/
theorem longest_fraction {text rest : List Char} {d : Char} (hne : text.takeWhile isDigit ≠ [])
    (hdrop : text.dropWhile isDigit = '.' :: d :: rest) (hd : isDigit d = true) :
    Longest IsNumber (text.takeWhile isDigit ++ '.' :: (d :: rest).takeWhile isDigit)
      ((d :: rest).dropWhile isDigit) := by
  have htext : text.takeWhile isDigit ++ '.' :: (d :: rest).takeWhile isDigit ++
      (d :: rest).dropWhile isDigit = text := by
    rw [List.append_assoc, List.cons_append, List.takeWhile_append_dropWhile, ← hdrop,
      List.takeWhile_append_dropWhile]
  refine ⟨⟨_, ⟨hne, fun c hc => List.mem_takeWhile_imp hc⟩, .inr ⟨_, ⟨?_, fun c hc =>
    List.mem_takeWhile_imp hc⟩, rfl⟩⟩, ?_⟩
  · simp [hd]
  · rintro s ⟨whole, ⟨-, hwhole⟩, rfl | ⟨fraction, ⟨-, hdigits⟩, rfl⟩⟩ hpre
    · rw [htext] at hpre
      have hle := length_le_takeWhile hpre hwhole
      rw [List.length_append]
      omega
    · rw [htext] at hpre
      obtain ⟨after, htail⟩ := hpre
      -- the digits before the point are the same
      have hsame : text.takeWhile isDigit = whole := by
        rw [← htail, List.append_assoc, List.takeWhile_append_of_pos hwhole]
        simp [show isDigit '.' = false by decide]
      have hfraction : d :: rest = fraction ++ after := by
        have heq : text.dropWhile isDigit = '.' :: (fraction ++ after) := by
          rw [← htail, List.append_assoc, List.dropWhile_append_of_pos hwhole]
          rfl
        rw [hdrop] at heq
        exact (List.cons.inj heq).2
      have hpre : fraction <+: d :: rest := ⟨after, hfraction.symm⟩
      have hle := length_le_takeWhile hpre hdigits
      simp only [List.length_append, List.length_cons, hsame]
      omega

/-! ### One token -/

/-- What a call of `scanToken` finds where a lexeme begins: a token with the lexeme, or an error. -/
def Scans (text : List Char) (line : ℕ) (r : Token × Lexer) : Prop :=
  ∃ lexeme, text = lexeme ++ r.2.current ∧ r.2.line = line + lexeme.count '\n' ∧
    ((Lexes r.1.type lexeme r.2.current ∧ r.1 = ⟨r.1.type, text, lexeme.length, r.2.line⟩) ∨
      ∃ message, Errs message lexeme r.2.current ∧
        r.1 = ⟨.error, message.toList, message.toList.length, r.2.line⟩)

theorem scans_token {lexeme rest : List Char} {type : TokenType} (line line' : ℕ)
    (h : Lexes type lexeme rest) (hline : line' = line + lexeme.count '\n') :
    Scans (lexeme ++ rest) line (Lexer.makeToken type ⟨lexeme ++ rest, rest, line'⟩,
      ⟨lexeme ++ rest, rest, line'⟩) := by
  refine ⟨lexeme, rfl, hline, .inl ⟨h, ?_⟩⟩
  simp [Lexer.makeToken, Lexer.length]

theorem count_newline {s : List Char} (h : ∀ c ∈ s, c ≠ '\n') : s.count '\n' = 0 :=
  List.count_eq_zero.2 fun hmem => h _ hmem rfl

theorem identifier_scans {c : Char} (hc : isAlpha c = true) (text : List Char) (line : ℕ) :
    Scans (c :: text) line (Lexer.identifier ⟨c :: text, text, line⟩) := by
  have hlexes := Lexes.identifier (identifierType_plain ⟨c :: text,
    text.dropWhile fun c => isAlpha c || isDigit c, line⟩) (longest_identifier text hc)
  have hcount : (c :: text.takeWhile fun c => isAlpha c || isDigit c).count '\n' = 0 := by
    refine count_newline fun d hd => ?_
    rintro rfl
    rcases List.mem_cons.1 hd with rfl | hd
    · exact absurd hc (by decide)
    · exact absurd (List.mem_takeWhile_imp hd) (by decide)
  have htext : c :: text = (c :: text.takeWhile fun c => isAlpha c || isDigit c) ++
      text.dropWhile fun c => isAlpha c || isDigit c := by
    rw [List.cons_append, List.takeWhile_append_dropWhile]
  have hscans := scans_token line line hlexes (by rw [hcount, Nat.add_zero])
  rw [← htext] at hscans
  exact hscans

theorem number_scans {c : Char} (hc : isDigit c = true) (text : List Char) (line : ℕ) :
    Scans (c :: text) line (Lexer.number ⟨c :: text, text, line⟩) := by
  have htake : (c :: text).takeWhile isDigit = c :: text.takeWhile isDigit := by
    simp [hc]
  have hdrop : (c :: text).dropWhile isDigit = text.dropWhile isDigit := by
    simp [hc]
  have hne : (c :: text).takeWhile isDigit ≠ [] := by simp [htake]
  have hdigits : ∀ l : List Char, ∀ d ∈ l.takeWhile isDigit, d ≠ '\n' := by
    rintro l _ hd rfl
    exact absurd (List.mem_takeWhile_imp hd) (by decide)
  by_cases hfraction : ∃ d rest, text.dropWhile isDigit = '.' :: d :: rest ∧ isDigit d = true
  · obtain ⟨d, rest, heq, hd⟩ := hfraction
    have hlexes := Lexes.number (longest_fraction hne (hdrop.trans heq) hd)
    have hcount : ((c :: text).takeWhile isDigit ++ '.' :: (d :: rest).takeWhile isDigit).count '\n' =
        0 := by
      rw [List.count_append, List.count_cons_of_ne (by decide), count_newline (hdigits _),
        count_newline (hdigits _)]
    have hscans := scans_token line line hlexes (by rw [hcount, Nat.add_zero])
    have htext : (c :: text).takeWhile isDigit ++ '.' :: (d :: rest).takeWhile isDigit ++
        (d :: rest).dropWhile isDigit = c :: text := by
      rw [List.append_assoc, List.cons_append, List.takeWhile_append_dropWhile, ← heq, ← hdrop,
        List.takeWhile_append_dropWhile]
    rw [htext] at hscans
    have hnumber : Lexer.number ⟨c :: text, text, line⟩ =
        (Lexer.makeToken .number ⟨c :: text, (d :: rest).dropWhile isDigit, line⟩,
          ⟨c :: text, (d :: rest).dropWhile isDigit, line⟩) := by
      simp only [Lexer.number, Lexer.skipWhile, heq, hd, if_true]
    rw [hnumber]
    exact hscans
  · have hwhole := longest_whole hne fun d rest heq => by
      by_contra hd
      exact hfraction ⟨d, rest, hdrop.symm.trans heq, by simpa using hd⟩
    have hcount := count_newline (hdigits (c :: text))
    have hscans := scans_token line line (.number hwhole)
      (by rw [hcount, Nat.add_zero])
    rw [List.takeWhile_append_dropWhile, hdrop] at hscans
    have hnumber : Lexer.number ⟨c :: text, text, line⟩ =
        (Lexer.makeToken .number ⟨c :: text, text.dropWhile isDigit, line⟩,
          ⟨c :: text, text.dropWhile isDigit, line⟩) := by
      simp only [Lexer.number, Lexer.skipWhile]
      split
      · rename_i d rest heq
        rw [if_neg fun hd => hfraction ⟨d, rest, heq, hd⟩]
      · rfl
    rw [hnumber]
    exact hscans

theorem string_scans (text : List Char) (line : ℕ) :
    Scans ('"' :: text) line (Lexer.string ⟨'"' :: text, text, line⟩) := by
  have hbody : '"' ∉ text.takeWhile fun c => decide (c ≠ '"') := fun hmem => by
    simpa using List.mem_takeWhile_imp hmem
  cases hrest : text.dropWhile fun c => decide (c ≠ '"') with
  | nil =>
    have htext : text = text.takeWhile fun c => decide (c ≠ '"') := by
      conv_lhs => rw [← List.takeWhile_append_dropWhile (p := fun c => decide (c ≠ '"')) (l := text),
        hrest, List.append_nil]
    have hstring : Lexer.string ⟨'"' :: text, text, line⟩ =
        (Lexer.errorToken "Unterminated string." ⟨'"' :: text, [],
          line + (text.takeWhile fun c => decide (c ≠ '"')).count '\n'⟩, ⟨'"' :: text, [],
          line + (text.takeWhile fun c => decide (c ≠ '"')).count '\n'⟩) := by
      simp only [Lexer.string, hrest]
    rw [hstring]
    refine ⟨'"' :: text, (List.append_nil _).symm, ?_, .inr ⟨_, .unterminated (htext ▸ hbody), rfl⟩⟩
    rw [List.count_cons_of_ne (by decide), ← htext]
  | cons q rest =>
    obtain rfl : q = '"' := by
      have hhead := List.head?_dropWhile_not (fun c => decide (c ≠ '"')) text
      rw [hrest] at hhead
      simpa using hhead
    have htext : '"' :: text = '"' :: (text.takeWhile (fun c => decide (c ≠ '"')) ++ ['"']) ++ rest := by
      rw [List.cons_append, List.append_assoc, List.singleton_append, ← hrest,
        List.takeWhile_append_dropWhile]
    have hlexes : Lexes .string ('"' :: (text.takeWhile (fun c => decide (c ≠ '"')) ++ ['"'])) rest :=
      .string hbody
    have hscans := scans_token line
      (line + (text.takeWhile fun c => decide (c ≠ '"')).count '\n') hlexes (by
        rw [List.count_cons_of_ne (by decide), List.count_append]
        rfl)
    rw [← htext] at hscans
    have hstring : Lexer.string ⟨'"' :: text, text, line⟩ =
        (Lexer.makeToken .string ⟨'"' :: text, rest,
          line + (text.takeWhile fun c => decide (c ≠ '"')).count '\n'⟩, ⟨'"' :: text, rest,
          line + (text.takeWhile fun c => decide (c ≠ '"')).count '\n'⟩) := by
      simp only [Lexer.string, hrest]
    rw [hstring]
    exact hscans

theorem longest_one {c : Char} {rest : List Char} (hc : IsOperator [c])
    (hnext : ∀ d, IsOperator [c, d] → rest.head? ≠ some d) : Longest IsOperator [c] rest := by
  refine ⟨hc, fun s hs hpre => ?_⟩
  have htwo : ∀ s ∈ operators.map (·.1), s.length ≤ 2 := by decide
  have hlength := htwo s hs
  by_contra hlt
  obtain ⟨a, d, rfl⟩ : ∃ a d, s = [a, d] := List.length_eq_two.1 (by simp at hlt; omega)
  rw [List.singleton_append, List.cons_prefix_cons] at hpre
  obtain ⟨rfl, rest', rfl⟩ := hpre
  exact hnext d hs rfl

theorem longest_two {c d : Char} {rest : List Char} (h : IsOperator [c, d]) :
    Longest IsOperator [c, d] rest :=
  ⟨h, fun s hs _ => (by decide : ∀ s ∈ operators.map (·.1), s.length ≤ 2) s hs⟩

/-- A token of one character that begins no longer one. -/
theorem symbol_scans {c : Char} {type : TokenType} (h : ([c], type) ∈ operators)
    (honly : ∀ d, ¬ IsOperator [c, d]) (hc : c ≠ '\n') (text : List Char) (line : ℕ) :
    Scans (c :: text) line (Lexer.makeToken type ⟨c :: text, text, line⟩, ⟨c :: text, text, line⟩) := by
  have hlongest : Longest IsOperator [c] text :=
    longest_one (List.mem_map_of_mem h) fun d hd => absurd hd (honly d)
  exact scans_token line line (.operator h hlongest) (by rw [List.count_cons_of_ne hc]; rfl)

/-- A token that is longer with `=` after it. -/
theorem operator_scans {c : Char} {double single : TokenType} (hsingle : ([c], single) ∈ operators)
    (hdouble : ([c, '='], double) ∈ operators) (honly : ∀ d, IsOperator [c, d] → d = '=')
    (hc : c ≠ '\n') (text : List Char) (line : ℕ) :
    Scans (c :: text) line (Lexer.operator '=' double single ⟨c :: text, text, line⟩) := by
  have hone : text.head? ≠ some '=' → Scans (c :: text) line
      (Lexer.makeToken single ⟨c :: text, text, line⟩, ⟨c :: text, text, line⟩) := by
    intro hhead
    have hlongest : Longest IsOperator [c] text := by
      refine longest_one (List.mem_map_of_mem hsingle) fun d hd => ?_
      rw [honly d hd]
      exact hhead
    exact scans_token line line (.operator hsingle hlongest)
      (by rw [List.count_cons_of_ne hc]; rfl)
  unfold Lexer.operator
  cases text with
  | nil => exact hone (by simp)
  | cons d rest =>
    by_cases hd : d = '='
    · subst hd
      simp only [if_true]
      have hlongest : Longest IsOperator [c, '='] rest := longest_two (List.mem_map_of_mem hdouble)
      refine scans_token line line (.operator hdouble hlongest) ?_
      rw [List.count_cons_of_ne hc]
      rfl
    · simp only [if_neg hd]
      exact hone (by simpa using hd)

/-- No operator begins with a character that is not among those of the `switch`. -/
theorem operator_head {s : List Char} (hs : IsOperator s) {c : Char} (hc : s.head? = some c) :
    c ∈ ['(', ')', '{', '}', ';', ',', '.', '-', '+', '/', '*', '!', '=', '<', '>'] := by
  have hall : ∀ s ∈ operators.map (·.1), ∀ c ∈ s.head?,
      c ∈ ['(', ')', '{', '}', ';', ',', '.', '-', '+', '/', '*', '!', '=', '<', '>'] := by
    simp [operators]
  exact hall s hs c hc

/-- `scanToken`, where a lexeme begins. -/
theorem scanToken_scans {x : Lexer} {c : Char} {rest : List Char} {line : ℕ}
    (hskip : Lexer.skipWhitespace x.current x.line = (c :: rest, line)) (hc : c ≠ '\n') :
    Scans (c :: rest) line x.scanToken := by
  simp only [Lexer.scanToken, hskip]
  by_cases halpha : isAlpha c = true
  · rw [if_pos halpha]
    exact identifier_scans halpha rest line
  rw [if_neg halpha]
  by_cases hdigit : isDigit c = true
  · rw [if_pos hdigit]
    exact number_scans hdigit rest line
  rw [if_neg hdigit]
  have htwo : ∀ c ∈ ['!', '=', '<', '>'], ∀ d, IsOperator [c, d] → d = '=' := by
    simp [IsOperator, operators]
  split
  case h_12 => exact operator_scans (by decide) (by decide) (htwo _ (by decide)) (by decide) _ _
  case h_13 => exact operator_scans (by decide) (by decide) (htwo _ (by decide)) (by decide) _ _
  case h_14 => exact operator_scans (by decide) (by decide) (htwo _ (by decide)) (by decide) _ _
  case h_15 => exact operator_scans (by decide) (by decide) (htwo _ (by decide)) (by decide) _ _
  case h_16 => exact string_scans rest line
  case h_17 =>
    have hnothing : BeginsNothing c := by
      refine ⟨by simpa using halpha, by simpa using hdigit, by assumption, fun s hs hhead => ?_⟩
      have hmem := operator_head hs hhead
      simp only [List.mem_cons, List.not_mem_nil, or_false] at hmem
      rcases hmem with h | h | h | h | h | h | h | h | h | h | h | h | h | h | h
      all_goals contradiction
    refine ⟨[c], rfl, ?_, .inr ⟨_, .unexpected hnothing, rfl⟩⟩
    rw [List.count_cons_of_ne hc]
    rfl
  all_goals exact symbol_scans (by decide) (by simp [IsOperator, operators]) (by decide) _ _

/-! ### The whole source -/

/-- The token that the call of `scanToken` after `k` others returns. -/
def Lexer.call : ℕ → Lexer → Token
  | 0, x => x.scanToken.1
  | k + 1, x => call k x.scanToken.2

theorem scanToken_end {x : Lexer} {line : ℕ}
    (h : Lexer.skipWhitespace x.current x.line = ([], line)) :
    x.scanToken = (⟨.eof, [], 0, line⟩, ⟨[], [], line⟩) := by
  simp [Lexer.scanToken, h, Lexer.makeToken, Lexer.length]

/-- At the end the scanner returns `TOKEN_EOF` for ever. -/
theorem call_end (start : List Char) (line k : ℕ) :
    Lexer.call k ⟨start, [], line⟩ = ⟨.eof, [], 0, line⟩ := by
  have hscan : Lexer.scanToken ⟨start, [], line⟩ = (⟨.eof, [], 0, line⟩, ⟨[], [], line⟩) :=
    scanToken_end (by simp [Lexer.skipWhitespace])
  induction k generalizing start with
  | zero => rw [Lexer.call, hscan]
  | succ k ih =>
    rw [Lexer.call, hscan]
    exact ih [] (scanToken_end (by simp [Lexer.skipWhitespace]))

theorem Lexes.ne_eof {type : TokenType} {lexeme rest : List Char} (h : Lexes type lexeme rest) :
    type ≠ .eof := by
  rintro rfl
  cases h with
  | identifier htype => cases htype
  | operator htype => exact absurd htype (by simp [operators])

theorem Lexes.ne_nil {type : TokenType} {lexeme rest : List Char} (h : Lexes type lexeme rest) :
    lexeme ≠ [] := by
  rintro rfl
  cases h with
  | number h =>
    obtain ⟨⟨whole, ⟨hne, -⟩, h | ⟨fraction, -, h⟩⟩, -⟩ := h
    · exact hne h.symm
    · simp at h
  | identifier _ h =>
    obtain ⟨⟨c, cs, h, -⟩, -⟩ := h
    cases h
  | operator htype => exact absurd htype (by simp [operators])

theorem Errs.ne_nil {message : String} {lexeme rest : List Char} (h : Errs message lexeme rest) :
    lexeme ≠ [] := by
  cases h <;> simp

/-- The loop cuts the text into tokens, which are those of the calls. -/
theorem scanLoop_lexed (n : ℕ) : ∀ (x : Lexer) (before : List Char), x.current.length < n →
    x.line = lineAfter before →
    Lexed before x.current ((x.scanLoop n).pending ++ [(x.scanLoop n).eofToken]) ∧
      ∀ k, x.call k = (x.scanLoop n).pending.getD k (x.scanLoop n).eofToken := by
  induction n with
  | zero =>
    intro x before hlt
    omega
  | succ n ih =>
    intro x before hlt hline
    obtain ⟨gap, htext, hblank, hgapline, hhead⟩ := skipWhitespace_blank x.current x.line
    cases hskip : Lexer.skipWhitespace x.current x.line with
    | mk rest line =>
    rw [hskip] at htext hblank hgapline hhead
    simp only at htext hblank hgapline hhead
    have hlineAfter : line = lineAfter (before ++ gap) := by
      rw [hgapline, hline, lineAfter, lineAfter, List.count_append]
      omega
    cases rest with
    | nil =>
      have hscan := scanToken_end hskip
      have hloop : x.scanLoop (n + 1) = ⟨[], line⟩ := by
        simp [Lexer.scanLoop, hscan]
      rw [hloop, htext, List.append_nil]
      refine ⟨?_, fun k => ?_⟩
      · have heof : Lexed before gap [⟨.eof, [], 0, lineAfter (before ++ gap)⟩] := .eof hblank
        rw [← hlineAfter] at heof
        exact heof
      · cases k with
        | zero => rw [Lexer.call, hscan]; rfl
        | succ k =>
          rw [Lexer.call, hscan, call_end]
          rfl
    | cons c rest =>
      have hscans := scanToken_scans hskip (by simpa using hhead)
      obtain ⟨lexeme, hlexeme, hendline, hkind⟩ := hscans
      have hne : lexeme ≠ [] := by
        rcases hkind with ⟨h, -⟩ | ⟨message, h, -⟩
        · exact h.ne_nil
        · exact h.ne_nil
      have heof : x.scanToken.1.type ≠ .eof := by
        rcases hkind with ⟨h, -⟩ | ⟨message, -, h⟩
        · exact h.ne_eof
        · simp [h]
      have hloop : x.scanLoop (n + 1) = ⟨x.scanToken.1 :: (x.scanToken.2.scanLoop n).pending,
          (x.scanToken.2.scanLoop n).eofLine⟩ := by
        simp [Lexer.scanLoop, heof]
      have hlength : x.scanToken.2.current.length < n := by
        have hpos := List.length_pos_iff.2 hne
        rw [htext, hlexeme] at hlt
        simp only [List.length_append] at hlt
        omega
      have hafter : x.scanToken.2.line = lineAfter (before ++ gap ++ lexeme) := by
        rw [hendline, hlineAfter, lineAfter, lineAfter, List.count_append, List.count_append, List.count_append]
        omega
      obtain ⟨hlexed, hcalls⟩ := ih x.scanToken.2 (before ++ gap ++ lexeme) hlength hafter
      refine ⟨?_, fun k => ?_⟩
      · rw [hloop, htext, hlexeme]
        rw [hlexeme] at hblank
        rcases hkind with ⟨hlexes, htoken⟩ | ⟨message, herrs, htoken⟩
        · rw [htoken, hlexeme, hafter]
          exact .token hblank hlexes hlexed
        · rw [htoken, hafter]
          exact .error hblank herrs hlexed
      · rw [hloop]
        cases k with
        | zero => rfl
        | succ k => exact hcalls k

/-- For every source, the calls of `scanToken` return the tokens into which it is cut, and then
`TOKEN_EOF` for ever. -/
theorem scanner_lossless (source : List Char) :
    Lexed [] source ((scanAll source).pending ++ [(scanAll source).eofToken]) ∧
      ∀ k, Lexer.call k ⟨source, source, 1⟩ =
        (scanAll source).pending.getD k (scanAll source).eofToken :=
  scanLoop_lexed (source.length + 1) ⟨source, source, 1⟩ [] (Nat.lt_succ_self _) rfl

end Lox.Clox
