import Lox.Clox.Token

/-!
# The scanner of `scanner.c`

A source is the list of its characters, without the terminating NUL; the two C pointers
`start` and `current` are the texts they point at.  `scanAll` calls `scanToken` until it
returns `TOKEN_EOF`, which gives the token stream (`Scanner`) the compiler reads.
-/

namespace Lox.Clox

/-- `Scanner` of `scanner.c`, with its pointers as remaining texts. -/
structure Lexer where
  start : List Char
  current : List Char
  line : ℕ

/-- `isDigit`. -/
def isDigit (c : Char) : Bool := '0' ≤ c && c ≤ '9'

/-- `isAlpha`. -/
def isAlpha (c : Char) : Bool := ('a' ≤ c && c ≤ 'z') || ('A' ≤ c && c ≤ 'Z') || c = '_'

namespace Lexer

/-- `scanner.current - scanner.start`. -/
def length (x : Lexer) : ℕ := x.start.length - x.current.length

/-- `makeToken`. -/
def makeToken (type : TokenType) (x : Lexer) : Token := ⟨type, x.start, x.length, x.line⟩

/-- `errorToken`. -/
def errorToken (message : String) (x : Lexer) : Token :=
  ⟨.error, message.toList, message.toList.length, x.line⟩

/-- `checkKeyword`. -/
def checkKeyword (start length : ℕ) (rest : String) (type : TokenType) (x : Lexer) : TokenType :=
  if x.length = start + length && (x.start.drop start).take length = rest.toList then type
  else .identifier

/-- `identifierType`.  The branches for `f` and `t` have no `break`: without a keyword of their
own they fall through to the next case. -/
def identifierType (x : Lexer) : TokenType :=
  match x.start with
  | 'a' :: _ => x.checkKeyword 1 2 "nd" .and_
  | 'c' :: _ => x.checkKeyword 1 4 "lass" .class_
  | 'e' :: _ => x.checkKeyword 1 3 "lse" .else_
  | 'f' :: rest =>
    match decide (x.length > 1), rest with
    | true, 'a' :: _ => x.checkKeyword 2 3 "lse" .false_
    | true, 'o' :: _ => x.checkKeyword 2 1 "r" .for_
    | true, 'u' :: _ => x.checkKeyword 2 1 "n" .fun_
    | _, _ => x.checkKeyword 1 1 "f" .if_
  | 'i' :: _ => x.checkKeyword 1 1 "f" .if_
  | 'n' :: _ => x.checkKeyword 1 2 "il" .nil_
  | 'o' :: _ => x.checkKeyword 1 1 "r" .or_
  | 'p' :: _ => x.checkKeyword 1 4 "rint" .print_
  | 'r' :: _ => x.checkKeyword 1 5 "eturn" .return_
  | 's' :: _ => x.checkKeyword 1 4 "uper" .super_
  | 't' :: rest =>
    match decide (x.length > 1), rest with
    | true, 'h' :: _ => x.checkKeyword 2 2 "is" .this_
    | true, 'r' :: _ => x.checkKeyword 2 2 "ue" .true_
    | _, _ => x.checkKeyword 1 2 "ar" .var_
  | 'v' :: _ => x.checkKeyword 1 2 "ar" .var_
  | 'w' :: _ => x.checkKeyword 1 4 "hile" .while_
  | _ => .identifier

/-- The loop `while (p(peek())) advance();`. -/
def skipWhile (p : Char → Bool) (x : Lexer) : Lexer :=
  { x with current := x.current.dropWhile p }

/-- `string`, after the opening quote. -/
def string (x : Lexer) : Token × Lexer :=
  let body := x.current.takeWhile (· ≠ '"')
  let x := { x with
    current := x.current.dropWhile (· ≠ '"'), line := x.line + body.count '\n' }
  match x.current with
  | [] => (x.errorToken "Unterminated string.", x)
  | _ :: rest =>
    let x := { x with current := rest }
    (x.makeToken .string, x)

/-- `number`. -/
def number (x : Lexer) : Token × Lexer :=
  let x := x.skipWhile isDigit
  let x := match x.current with
    | '.' :: d :: rest => if isDigit d then { x with current := d :: rest }.skipWhile isDigit else x
    | _ => x
  (x.makeToken .number, x)

/-- `identifier`. -/
def identifier (x : Lexer) : Token × Lexer :=
  let x := x.skipWhile fun c => isAlpha c || isDigit c
  (x.makeToken x.identifierType, x)

/-- `match(expected)` for the second character of an operator. -/
def operator (expected : Char) (double single : TokenType) (x : Lexer) : Token × Lexer :=
  match x.current with
  | c :: rest =>
    if c = expected then
      let x := { x with current := rest }
      (x.makeToken double, x)
    else (x.makeToken single, x)
  | [] => (x.makeToken single, x)

/-- `skipWhitespace`, on the text and the line number. -/
def skipWhitespace : List Char → ℕ → List Char × ℕ
  | [], line => ([], line)
  | c :: cs, line =>
    if c = ' ' || c = '\r' || c = '\t' then skipWhitespace cs line
    else if c = '\n' then skipWhitespace cs (line + 1)
    else if c = '/' then
      match cs with
      | '/' :: rest => skipWhitespace (rest.dropWhile (· ≠ '\n')) line
      | _ => (c :: cs, line)
    else (c :: cs, line)
  termination_by cs => cs.length
  decreasing_by
    all_goals simp_wf
    have := (List.dropWhile_suffix (fun c : Char => decide (c ≠ '\n')) (l := rest)).length_le
    simp only [decide_not] at this
    omega

/-- `scanToken`. -/
def scanToken (x : Lexer) : Token × Lexer :=
  let (current, line) := skipWhitespace x.current x.line
  let x : Lexer := ⟨current, current, line⟩
  match current with
  | [] => (x.makeToken .eof, x)
  | c :: rest =>
    let x := { x with current := rest }
    if isAlpha c then x.identifier
    else if isDigit c then x.number
    else
      match c with
      | '(' => (x.makeToken .leftParen, x)
      | ')' => (x.makeToken .rightParen, x)
      | '{' => (x.makeToken .leftBrace, x)
      | '}' => (x.makeToken .rightBrace, x)
      | ';' => (x.makeToken .semicolon, x)
      | ',' => (x.makeToken .comma, x)
      | '.' => (x.makeToken .dot, x)
      | '-' => (x.makeToken .minus, x)
      | '+' => (x.makeToken .plus, x)
      | '/' => (x.makeToken .slash, x)
      | '*' => (x.makeToken .star, x)
      | '!' => x.operator '=' .bangEqual .bang
      | '=' => x.operator '=' .equalEqual .equal
      | '<' => x.operator '=' .lessEqual .less
      | '>' => x.operator '=' .greaterEqual .greater
      | '"' => x.string
      | _ => (x.errorToken "Unexpected character.", x)

/-- Call `scanToken` until it returns `TOKEN_EOF`. -/
def scanLoop : ℕ → Lexer → Scanner
  | 0, x => ⟨[], x.line⟩
  | n + 1, x =>
    let (t, x) := x.scanToken
    if t.type = .eof then ⟨[], t.line⟩
    else
      let sc := scanLoop n x
      { sc with pending := t :: sc.pending }

end Lexer

/-- The token stream of a source.  Every call of `scanToken` before the last one takes at least
one character. -/
def scanAll (source : List Char) : Scanner :=
  Lexer.scanLoop (source.length + 1) ⟨source, source, 1⟩

end Lox.Clox
