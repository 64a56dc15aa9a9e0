import Lox.Clox.Scanner
import Lox.Jlox.Scanner

/-!
# The two scanners

What both scanners find in a source is a sequence of lexemes: where it begins, its text, its line,
and whether it is a token of some type or one of two errors.  Keywords count as identifiers.  The
two sequences are the same for every source.
-/

namespace Lox

/-- What a scanner says of a lexeme. -/
inductive LexKind where
  | token (type : Clox.TokenType)
  | unexpectedCharacter
  | unterminatedString
  deriving DecidableEq, Repr

/-- A lexeme: where it begins, as the text from there on, its own text, and the line. -/
structure Lexeme where
  kind : LexKind
  start : List Char
  text : Name
  line : ℕ
  deriving DecidableEq, Repr

/-- Keywords and identifiers are one type. -/
def Clox.TokenType.plain : Clox.TokenType → Clox.TokenType
  | .and_ | .class_ | .else_ | .false_ | .for_ | .fun_ | .if_ | .nil_ | .or_ | .print_ | .return_
  | .super_ | .this_ | .true_ | .var_ | .while_ => .identifier
  | type => type

/-- The types of jlox in those of clox, with keywords as identifiers. -/
def Jlox.TokenType.plain : Jlox.TokenType → Clox.TokenType
  | .leftParen => .leftParen
  | .rightParen => .rightParen
  | .leftBrace => .leftBrace
  | .rightBrace => .rightBrace
  | .comma => .comma
  | .dot => .dot
  | .minus => .minus
  | .plus => .plus
  | .semicolon => .semicolon
  | .slash => .slash
  | .star => .star
  | .bang => .bang
  | .bangEqual => .bangEqual
  | .equal => .equal
  | .equalEqual => .equalEqual
  | .greater => .greater
  | .greaterEqual => .greaterEqual
  | .less => .less
  | .lessEqual => .lessEqual
  | .string => .string
  | .number => .number
  | .eof => .eof
  | _ => .identifier

namespace Clox

/-- What a token says of the lexeme; the scanner has just scanned it. -/
def Lexer.lexeme (x : Lexer) (t : Token) : Lexeme where
  kind :=
    if t.type = .error then
      if t.start = "Unterminated string.".toList then .unterminatedString else .unexpectedCharacter
    else .token t.type.plain
  start := x.start
  text := if t.type = .error then x.start.take x.length else t.lexeme
  line := t.line

/-- `scanToken`, called until it returns `TOKEN_EOF`. -/
def Lexer.lexemes : ℕ → Lexer → List Lexeme
  | 0, _ => []
  | n + 1, x =>
    let (t, x) := x.scanToken
    if t.type = .eof then [x.lexeme t] else x.lexeme t :: lexemes n x

end Clox

namespace Jlox

variable {N : Type}

/-- What a step of the scanner says of a lexeme. -/
def Scanned.lexeme (x : Scanner) : Scanned N → Option Lexeme
  | .nothing => none
  | .token t => some ⟨.token t.type.plain, x.start, t.lexeme, t.line⟩
  | .error line message =>
      some ⟨if message = "Unterminated string." then .unterminatedString else .unexpectedCharacter,
        x.start, x.text, line⟩

/-- The lexemes among the steps of a scanner. -/
def lexemes (steps : List (Scanned N × Scanner)) : List Lexeme :=
  steps.filterMap fun step => step.1.lexeme step.2

end Jlox

open Clox (Double)

variable {N : Type}

/-! ### One lexeme -/

/-- Both scanners have found the same lexeme, and go on at the same place. -/
structure Agree (r : Clox.Token × Clox.Lexer) (s : Jlox.Scanned N × Jlox.Scanner) : Prop where
  lexeme : s.1.lexeme s.2 = some (r.2.lexeme r.1)
  current : s.2.current = r.2.current
  line : s.2.line = r.2.line
  notEof : r.1.type ≠ .eof

theorem agree_token {start current : List Char} {line : ℕ} {type : Clox.TokenType}
    {type' : Jlox.TokenType} (literal : Jlox.Literal N) (h : type'.plain = type.plain)
    (herror : type ≠ .error) (heof : type ≠ .eof) :
    Agree (Clox.Lexer.makeToken type ⟨start, current, line⟩, ⟨start, current, line⟩)
      (Jlox.Scanner.addToken type' literal ⟨start, current, line⟩) := by
  refine ⟨?_, rfl, rfl, heof⟩
  simp [Jlox.Scanned.lexeme, Jlox.Scanner.addToken, Clox.Lexer.lexeme, Clox.Lexer.makeToken, herror,
    h, Jlox.Scanner.text, Clox.Token.lexeme, Clox.Lexer.length]

theorem agree_operator {start current : List Char} {line : ℕ} (expected : Char)
    {double single : Clox.TokenType} {double' single' : Jlox.TokenType}
    (hdouble : double'.plain = double.plain) (hsingle : single'.plain = single.plain)
    (h₁ : double ≠ .error ∧ double ≠ .eof) (h₂ : single ≠ .error ∧ single ≠ .eof) :
    Agree (N := N) (Clox.Lexer.operator expected double single ⟨start, current, line⟩)
      (Jlox.Scanner.twoChars expected double' single' ⟨start, current, line⟩) := by
  unfold Clox.Lexer.operator Jlox.Scanner.twoChars
  cases current with
  | nil => exact agree_token .nil hsingle h₂.1 h₂.2
  | cons c rest =>
    by_cases hc : c = expected
    · simp only [if_pos hc]
      exact agree_token .nil hdouble h₁.1 h₁.2
    · simp only [if_neg hc]
      exact agree_token .nil hsingle h₂.1 h₂.2

theorem agree_string (start current : List Char) (line : ℕ) :
    Agree (N := N) (Clox.Lexer.string ⟨start, current, line⟩)
      (Jlox.Scanner.string ⟨start, current, line⟩) := by
  unfold Clox.Lexer.string Jlox.Scanner.string
  cases hrest : current.dropWhile (· ≠ '"') with
  | nil =>
    exact ⟨rfl, rfl, rfl, by simp [Clox.Lexer.errorToken]⟩
  | cons c rest =>
    exact agree_token _ rfl (by simp) (by simp)

/-- Without a point after the digits, clox does not look further. -/
theorem Clox.number_whole {start current : List Char} {line : ℕ} {c : Char} {cs : List Char}
    (hdigits : current.dropWhile Clox.isDigit = c :: cs) (hdot : c ≠ '.') :
    Clox.Lexer.number ⟨start, current, line⟩
      = (Clox.Lexer.makeToken .number ⟨start, c :: cs, line⟩, ⟨start, c :: cs, line⟩) := by
  unfold Clox.Lexer.number Clox.Lexer.skipWhile
  simp only [hdigits]
  split
  · rename_i heq
    exact absurd (List.cons.inj heq).1 hdot
  · rfl

/-- Nor does jlox. -/
theorem Jlox.number_whole [Double N] {start current : List Char} {line : ℕ} {c : Char}
    {cs : List Char} (hdigits : current.dropWhile Jlox.isDigit = c :: cs) (hdot : c ≠ '.') :
    Jlox.Scanner.number (N := N) ⟨start, current, line⟩
      = Jlox.Scanner.addToken .number (.number (Double.strtod
          (Jlox.Scanner.text ⟨start, c :: cs, line⟩))) ⟨start, c :: cs, line⟩ := by
  unfold Jlox.Scanner.number Jlox.Scanner.skipWhile
  simp only [hdigits]
  split
  · rename_i heq
    exact absurd (List.cons.inj heq).1 hdot
  · rfl

theorem agree_number [Double N] (start current : List Char) (line : ℕ) :
    Agree (N := N) (Clox.Lexer.number ⟨start, current, line⟩)
      (Jlox.Scanner.number ⟨start, current, line⟩) := by
  have hdigit : Jlox.isDigit = Clox.isDigit := rfl
  cases hdigits : current.dropWhile Clox.isDigit with
  | nil =>
    unfold Clox.Lexer.number Jlox.Scanner.number Clox.Lexer.skipWhile Jlox.Scanner.skipWhile
    simp only [hdigit, hdigits]
    exact agree_token _ rfl (by simp) (by simp)
  | cons c cs =>
    by_cases hdot : c = '.'
    · subst hdot
      unfold Clox.Lexer.number Jlox.Scanner.number Clox.Lexer.skipWhile Jlox.Scanner.skipWhile
      simp only [hdigit, hdigits]
      cases cs with
      | nil => exact agree_token _ rfl (by simp) (by simp)
      | cons d ds =>
        by_cases hd : Clox.isDigit d = true
        · simp only [if_pos hd]
          exact agree_token _ rfl (by simp) (by simp)
        · simp only [if_neg hd]
          exact agree_token _ rfl (by simp) (by simp)
    · rw [Clox.number_whole hdigits hdot, Jlox.number_whole (hdigit ▸ hdigits) hdot]
      exact agree_token _ rfl (by simp) (by simp)

theorem checkKeyword_plain {type : Clox.TokenType} (h : type.plain = .identifier)
    (start length : ℕ) (rest : String) (x : Clox.Lexer) :
    (x.checkKeyword start length rest type).plain = .identifier := by
  unfold Clox.Lexer.checkKeyword
  split
  · exact h
  · rfl

theorem identifierType_plain (x : Clox.Lexer) : x.identifierType.plain = .identifier := by
  unfold Clox.Lexer.identifierType
  split
  case h_4 => split <;> exact checkKeyword_plain rfl _ _ _ _
  case h_11 => split <;> exact checkKeyword_plain rfl _ _ _ _
  case h_14 => rfl
  all_goals exact checkKeyword_plain rfl _ _ _ _

theorem keywords_plain (text : Name) :
    ((Jlox.keywords.lookup text).getD .identifier).plain = .identifier := by
  cases h : Jlox.keywords.lookup text with
  | none => rfl
  | some type =>
    have hall : ∀ entry ∈ Jlox.keywords, entry.2.plain = .identifier := by decide
    obtain ⟨l₁, l₂, heq, -⟩ := List.lookup_eq_some_iff.1 h
    exact hall (text, type) (by rw [heq]; simp)

theorem agree_identifier (start current : List Char) (line : ℕ) :
    Agree (N := N) (Clox.Lexer.identifier ⟨start, current, line⟩)
      (Jlox.Scanner.identifier ⟨start, current, line⟩) := by
  have hplain := identifierType_plain
  unfold Clox.Lexer.identifier Jlox.Scanner.identifier Clox.Lexer.skipWhile Jlox.Scanner.skipWhile
  have halpha : Jlox.isAlphaNumeric = fun c => Clox.isAlpha c || Clox.isDigit c := rfl
  simp only [halpha]
  refine agree_token _ ?_ ?_ ?_
  · rw [keywords_plain, hplain]
  · intro h
    have := hplain ⟨start, current.dropWhile fun c => Clox.isAlpha c || Clox.isDigit c, line⟩
    rw [h] at this
    cases this
  · intro h
    have := hplain ⟨start, current.dropWhile fun c => Clox.isAlpha c || Clox.isDigit c, line⟩
    rw [h] at this
    cases this

theorem Clox.not_isAlpha_of_isDigit {c : Char} (h : Clox.isDigit c = true) :
    ¬ Clox.isAlpha c = true := by
  simp only [Clox.isDigit, Bool.and_eq_true, decide_eq_true_eq, Char.le_def,
    UInt32.le_iff_toNat_le] at h
  simp only [Clox.isAlpha, Bool.or_eq_true, Bool.and_eq_true, decide_eq_true_eq, Char.le_def,
    UInt32.le_iff_toNat_le]
  have h₁ : '9'.val.toNat = 57 := rfl
  have h₂ : 'a'.val.toNat = 97 := rfl
  have h₃ : 'A'.val.toNat = 65 := rfl
  rintro ((⟨ha, -⟩ | ⟨ha, -⟩) | rfl)
  · omega
  · omega
  · exact absurd h.2 (by decide)

/-- The characters that jlox tells apart by cases. -/
def special : List Char :=
  ['(', ')', '{', '}', ',', '.', '-', '+', ';', '*', '!', '=', '<', '>', '/', '"', ' ', '\r', '\t',
   '\n']

theorem Jlox.scanToken_ordinary [Double N] {c : Char} (h : c ∉ special) (x : Jlox.Scanner) :
    Jlox.Scanner.scanToken (N := N) c x =
      if Jlox.isDigit c then x.number
      else if Jlox.isAlpha c then x.identifier
      else (.error x.line "Unexpected character", x) := by
  unfold Jlox.Scanner.scanToken
  split
  case h_21 => rfl
  all_goals exact absurd (by decide) h

/-- A character that begins a lexeme: no space, and not the first of a comment. -/
def Begins (c : Char) (rest : List Char) : Prop :=
  c ∉ [' ', '\r', '\t', '\n'] ∧ (c = '/' → ∀ tail, rest ≠ '/' :: tail)

/-- Where a lexeme begins, both scanners find the same one. -/
theorem scanToken_agree [Double N] {x : Clox.Lexer} {c : Char} {rest : List Char} {line : ℕ}
    (hskip : Clox.Lexer.skipWhitespace x.current x.line = (c :: rest, line)) (h : Begins c rest) :
    Agree (N := N) x.scanToken (Jlox.Scanner.scanToken c ⟨c :: rest, rest, line⟩) := by
  obtain ⟨hspace, hcomment⟩ := h
  simp only [Clox.Lexer.scanToken, hskip]
  by_cases hc : c ∈ special
  · simp only [special, List.mem_cons, List.not_mem_nil, or_false] at hc
    rcases hc with rfl | rfl | rfl | rfl | rfl | rfl | rfl | rfl | rfl | rfl | rfl | rfl | rfl |
      rfl | rfl | rfl | rfl | rfl | rfl | rfl
    · exact agree_token .nil rfl (by simp) (by simp)
    · exact agree_token .nil rfl (by simp) (by simp)
    · exact agree_token .nil rfl (by simp) (by simp)
    · exact agree_token .nil rfl (by simp) (by simp)
    · exact agree_token .nil rfl (by simp) (by simp)
    · exact agree_token .nil rfl (by simp) (by simp)
    · exact agree_token .nil rfl (by simp) (by simp)
    · exact agree_token .nil rfl (by simp) (by simp)
    · exact agree_token .nil rfl (by simp) (by simp)
    · exact agree_token .nil rfl (by simp) (by simp)
    · exact agree_operator '=' rfl rfl (by simp) (by simp)
    · exact agree_operator '=' rfl rfl (by simp) (by simp)
    · exact agree_operator '=' rfl rfl (by simp) (by simp)
    · exact agree_operator '=' rfl rfl (by simp) (by simp)
    · have hslash : Jlox.Scanner.scanToken (N := N) '/' ⟨'/' :: rest, rest, line⟩
          = Jlox.Scanner.addToken .slash .nil ⟨'/' :: rest, rest, line⟩ := by
        simp only [Jlox.Scanner.scanToken]
        split
        · rename_i tail
          exact absurd rfl (hcomment rfl tail)
        · rfl
      rw [hslash]
      exact agree_token .nil rfl (by simp) (by simp)
    · exact agree_string _ _ _
    · simp at hspace
    · simp at hspace
    · simp at hspace
    · simp at hspace
  · rw [Jlox.scanToken_ordinary hc]
    have halpha : Jlox.isAlpha c = Clox.isAlpha c := rfl
    have hdigit : Jlox.isDigit c = Clox.isDigit c := rfl
    rw [halpha, hdigit]
    by_cases hd : Clox.isDigit c = true
    · simp only [if_pos hd, if_neg (Clox.not_isAlpha_of_isDigit hd)]
      exact agree_number _ _ _
    · by_cases ha : Clox.isAlpha c = true
      · simp only [if_neg hd, if_pos ha]
        exact agree_identifier _ _ _
      · simp only [if_neg hd, if_neg ha]
        split
        case h_17 => exact ⟨rfl, rfl, rfl, by simp [Clox.Lexer.errorToken]⟩
        all_goals exact absurd (by decide) hc

/-! ### The whole source -/

theorem length_dropWhile_le {α : Type} (p : α → Bool) (l : List α) :
    (l.dropWhile p).length ≤ l.length :=
  (List.dropWhile_suffix p).length_le

theorem Jlox.number_length [Double N] (x : Jlox.Scanner) :
    (Jlox.Scanner.number (N := N) x).2.current.length ≤ x.current.length := by
  have hdrop := length_dropWhile_le Jlox.isDigit x.current
  simp only [Jlox.Scanner.number, Jlox.Scanner.skipWhile, Jlox.Scanner.addToken]
  split
  · rename_i d rest heq
    rw [heq] at hdrop
    simp only [List.length_cons] at hdrop
    split
    · have hdigits := length_dropWhile_le Jlox.isDigit (d :: rest)
      simp only [List.length_cons] at hdigits ⊢
      omega
    · rw [heq]
      simpa using hdrop
  · exact hdrop

theorem Jlox.string_length (x : Jlox.Scanner) :
    (Jlox.Scanner.string (N := N) x).2.current.length ≤ x.current.length := by
  have hdrop := length_dropWhile_le (fun c => decide (c ≠ '"')) x.current
  simp only [Jlox.Scanner.string]
  split
  · exact hdrop
  · rename_i heq
    simp only [heq, List.length_cons, Jlox.Scanner.addToken] at hdrop ⊢
    omega

theorem Jlox.twoChars_length (expected : Char) (double single : Jlox.TokenType) (x : Jlox.Scanner) :
    (Jlox.Scanner.twoChars (N := N) expected double single x).2.current.length
      ≤ x.current.length := by
  unfold Jlox.Scanner.twoChars
  split
  · rename_i heq
    split
    · simp [heq, Jlox.Scanner.addToken]
    · simp [Jlox.Scanner.addToken]
  · simp [Jlox.Scanner.addToken]

/-- A step takes its first character at least. -/
theorem Jlox.scanToken_length [Double N] (c : Char) (x : Jlox.Scanner) :
    (Jlox.Scanner.scanToken (N := N) c x).2.current.length ≤ x.current.length := by
  unfold Jlox.Scanner.scanToken
  split
  case h_11 | h_12 | h_13 | h_14 => exact Jlox.twoChars_length _ _ _ x
  case h_15 =>
    split
    · rename_i rest heq
      have hdrop := length_dropWhile_le (fun c => decide (c ≠ '\n')) rest
      simp only [heq, List.length_cons] at hdrop ⊢
      omega
    · exact le_refl _
  case h_20 => exact Jlox.string_length x
  case h_21 =>
    split
    · exact Jlox.number_length x
    · split
      · exact length_dropWhile_le _ _
      · exact le_refl _
  all_goals exact le_refl _

theorem Clox.scanToken_skip {x y : Clox.Lexer}
    (h : Clox.Lexer.skipWhitespace x.current x.line = Clox.Lexer.skipWhitespace y.current y.line) :
    x.scanToken = y.scanToken := by
  simp only [Clox.Lexer.scanToken, h]

theorem Clox.lexemes_skip {x y : Clox.Lexer} (n : ℕ)
    (h : Clox.Lexer.skipWhitespace x.current x.line = Clox.Lexer.skipWhitespace y.current y.line) :
    x.lexemes n = y.lexemes n := by
  cases n with
  | zero => rfl
  | succ n => simp only [Clox.Lexer.lexemes, Clox.scanToken_skip h]

theorem lexemes_nil [Double N] {line m k : ℕ} {start start' : List Char} (hm : 0 < m) (hk : 0 < k) :
    Jlox.lexemes (Jlox.Scanner.scanLoop (N := N) m ⟨start, [], line⟩) =
      Clox.Lexer.lexemes k ⟨start', [], line⟩ := by
  obtain ⟨m, rfl⟩ := Nat.exists_eq_succ_of_ne_zero hm.ne'
  obtain ⟨k, rfl⟩ := Nat.exists_eq_succ_of_ne_zero hk.ne'
  simp only [Clox.Lexer.lexemes, Clox.Lexer.scanToken, Clox.Lexer.skipWhitespace]
  rfl

/-- How a text goes on: with a space or a comment, after which `rest'` and the line `line'` follow,
or with a lexeme. -/
theorem text_cases [Double N] (c : Char) (rest : List Char) (line : ℕ) :
    (∃ rest' line', rest'.length ≤ rest.length ∧
      Jlox.Scanner.scanToken (N := N) c ⟨c :: rest, rest, line⟩
        = (.nothing, ⟨c :: rest, rest', line'⟩) ∧
      Clox.Lexer.skipWhitespace (c :: rest) line = Clox.Lexer.skipWhitespace rest' line') ∨
    (Begins c rest ∧ Clox.Lexer.skipWhitespace (c :: rest) line = (c :: rest, line)) := by
  by_cases hspace : c ∈ [' ', '\r', '\t']
  · refine .inl ⟨rest, line, le_refl _, ?_, ?_⟩
    · simp only [List.mem_cons, List.not_mem_nil, or_false] at hspace
      rcases hspace with rfl | rfl | rfl <;> rfl
    · simp only [List.mem_cons, List.not_mem_nil, or_false] at hspace
      rw [Clox.Lexer.skipWhitespace.eq_def]
      rcases hspace with rfl | rfl | rfl <;> simp
  · by_cases hnewline : c = '\n'
    · subst hnewline
      refine .inl ⟨rest, line + 1, le_refl _, rfl, ?_⟩
      rw [Clox.Lexer.skipWhitespace.eq_def]
      simp
    · by_cases hcomment : c = '/' ∧ ∃ tail, rest = '/' :: tail
      · obtain ⟨rfl, tail, rfl⟩ := hcomment
        refine .inl ⟨tail.dropWhile (· ≠ '\n'), line, ?_, rfl, ?_⟩
        · have hdrop := length_dropWhile_le (fun c => decide (c ≠ '\n')) tail
          simp only [List.length_cons]
          omega
        · rw [Clox.Lexer.skipWhitespace.eq_def]
          simp
      · have hbegins : Begins c rest := by
          refine ⟨by simp_all, fun hc tail htail => hcomment ⟨hc, tail, htail⟩⟩
        refine .inr ⟨hbegins, ?_⟩
        rw [Clox.Lexer.skipWhitespace.eq_def]
        simp only [List.mem_cons, List.not_mem_nil, or_false, not_or] at hspace
        simp only [hspace, hnewline, decide_false, Bool.or_self, Bool.false_eq_true, if_false]
        split
        · rename_i hslash
          split
          · rename_i tail
            exact absurd rfl (hbegins.2 hslash tail)
          · rfl
        · rfl

/-- Both scanners find the same lexemes in a text. -/
theorem lexemes_agree [Double N] (n : ℕ) : ∀ {text : List Char} {line m k : ℕ}
    {start start' : List Char}, text.length ≤ n → text.length < m → text.length < k →
    Jlox.lexemes (Jlox.Scanner.scanLoop (N := N) m ⟨start, text, line⟩) =
      Clox.Lexer.lexemes k ⟨start', text, line⟩ := by
  induction n with
  | zero =>
    intro text line m k start start' hn hm hk
    obtain rfl := List.length_eq_zero_iff.1 (Nat.le_zero.1 hn)
    exact lexemes_nil hm hk
  | succ n ih =>
    intro text line m k start start' hn hm hk
    cases text with
    | nil => exact lexemes_nil hm hk
    | cons c rest =>
      obtain ⟨m, rfl⟩ := Nat.exists_eq_succ_of_ne_zero (Nat.ne_zero_of_lt hm)
      simp only [List.length_cons] at hn hm hk
      rcases text_cases (N := N) c rest line with
        ⟨rest', line', hlength, hstep, hskip⟩ | ⟨hbegins, hskip⟩
      · -- jlox takes a turn of its own for this, clox skips it before the next token.
        have hrest : Clox.Lexer.lexemes k ⟨start', c :: rest, line⟩
            = Clox.Lexer.lexemes k ⟨start', rest', line'⟩ := Clox.lexemes_skip k hskip
        have hlater : Jlox.lexemes (Jlox.Scanner.scanLoop (N := N) m ⟨c :: rest, rest', line'⟩)
            = Clox.Lexer.lexemes k ⟨start', rest', line'⟩ :=
          ih (by omega) (by omega) (by omega)
        rw [hrest, ← hlater]
        simp only [Jlox.Scanner.scanLoop, hstep]
        rfl
      · obtain ⟨k, rfl⟩ := Nat.exists_eq_succ_of_ne_zero (Nat.ne_zero_of_lt hk)
        have hagree := scanToken_agree (N := N) (x := ⟨start', c :: rest, line⟩) hskip hbegins
        have hlength : (Jlox.Scanner.scanToken (N := N) c ⟨c :: rest, rest, line⟩).2.current.length
            ≤ rest.length := Jlox.scanToken_length c ⟨c :: rest, rest, line⟩
        simp only [Jlox.Scanner.scanLoop, Clox.Lexer.lexemes, if_neg hagree.notEof]
        simp only [Jlox.lexemes, List.filterMap_cons, hagree.lexeme]
        congr 1
        have hsame : (Clox.Lexer.scanToken ⟨start', c :: rest, line⟩).2
            = ⟨(Clox.Lexer.scanToken ⟨start', c :: rest, line⟩).2.start,
              (Jlox.Scanner.scanToken (N := N) c ⟨c :: rest, rest, line⟩).2.current,
              (Jlox.Scanner.scanToken (N := N) c ⟨c :: rest, rest, line⟩).2.line⟩ := by
          rw [hagree.current, hagree.line]
        rw [hsame]
        refine ih (hlength.trans ?_) (hlength.trans_lt ?_) (hlength.trans_lt ?_)
        · omega
        · omega
        · omega

/-- The last lexeme is the end of the text. -/
theorem Jlox.lexemes_end [Double N] (m : ℕ) : ∀ {x : Jlox.Scanner}, x.current.length < m →
    (Jlox.lexemes (Jlox.Scanner.scanLoop (N := N) m x)).getLast?.map Lexeme.kind
      = some (.token .eof) := by
  induction m with
  | zero =>
    intro x hx
    omega
  | succ m ih =>
    intro x hx
    unfold Jlox.Scanner.scanLoop
    split
    · rfl
    · rename_i c rest heq
      rw [heq, List.length_cons] at hx
      have hlength := Jlox.scanToken_length (N := N) c { x with start := x.current, current := rest }
      have hlater := ih (x := (Jlox.Scanner.scanToken (N := N) c
        { x with start := x.current, current := rest }).2) (hlength.trans_lt (by
          simp only
          omega))
      obtain ⟨last, hlast, hkind⟩ := Option.map_eq_some_iff.1 hlater
      simp only [Jlox.lexemes, List.filterMap_cons] at hlast ⊢
      split
      · rw [hlast]
        exact congrArg some hkind
      · rw [List.getLast?_cons, hlast]
        exact congrArg some hkind

/-- The two scanners split every source alike, up to its end. -/
theorem scanners_agree [Double N] (source : List Char) :
    Clox.Lexer.lexemes (source.length + 1) ⟨source, source, 1⟩ =
        Jlox.lexemes (Jlox.scanSteps (N := N) source) ∧
      (Jlox.lexemes (Jlox.scanSteps (N := N) source)).getLast?.map Lexeme.kind
        = some (.token .eof) := by
  refine ⟨?_, Jlox.lexemes_end _ (Nat.lt_succ_self _)⟩
  exact (lexemes_agree source.length (le_refl _) (Nat.lt_succ_self _) (Nat.lt_succ_self _)).symm

end Lox
