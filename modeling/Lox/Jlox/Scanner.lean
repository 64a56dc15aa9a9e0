import Lox.Clox.Chunk

/-!
# Tokens and the scanner of jlox

A source is the list of its characters; the indices `start` and `current` of `Scanner.java` are the
texts from there on.  `scanToken` adds a token, reports an error, or does nothing, and `scanLoop`
is what the loop of `scanTokens` does one after the other.
-/

namespace Lox.Jlox

open Clox (Double)

/-- `TokenType` of jlox. -/
inductive TokenType where
  | leftParen | rightParen | leftBrace | rightBrace
  | comma | dot | minus | plus | semicolon | slash | star
  | bang | bangEqual
  | equal | equalEqual
  | greater | greaterEqual
  | less | lessEqual
  | identifier | string | number
  | and_ | class_ | else_ | false_ | fun_ | for_ | if_ | nil_ | or_
  | print_ | return_ | super_ | this_ | true_ | var_ | while_
  | eof
  deriving DecidableEq, Repr

/-- The Java objects that stand for literals; `nil` is `null`. -/
inductive Literal (N : Type) where
  | nil
  | bool (b : Bool)
  | number (n : N)
  | string (s : Name)
  deriving DecidableEq, Repr

/-- `Token` of jlox. -/
structure Token (N : Type) where
  type : TokenType
  lexeme : Name
  literal : Literal N
  line : ℕ
  deriving DecidableEq, Repr

/-- The map `keywords`. -/
def keywords : List (Name × TokenType) :=
  [("and".toList, .and_), ("class".toList, .class_), ("else".toList, .else_),
   ("false".toList, .false_), ("for".toList, .for_), ("fun".toList, .fun_), ("if".toList, .if_),
   ("nil".toList, .nil_), ("or".toList, .or_), ("print".toList, .print_),
   ("return".toList, .return_), ("super".toList, .super_), ("this".toList, .this_),
   ("true".toList, .true_), ("var".toList, .var_), ("while".toList, .while_)]

/-- What `scanToken` does: nothing, `addToken`, or `Lox.error`. -/
inductive Scanned (N : Type) where
  | nothing
  | token (t : Token N)
  | error (line : ℕ) (message : String)

/-- The fields of `Scanner` that change. -/
structure Scanner where
  start : List Char
  current : List Char
  line : ℕ

/-- `isDigit`. -/
def isDigit (c : Char) : Bool := '0' ≤ c && c ≤ '9'

/-- `isAlpha`. -/
def isAlpha (c : Char) : Bool := ('a' ≤ c && c ≤ 'z') || ('A' ≤ c && c ≤ 'Z') || c = '_'

/-- `isAlphaNumeric`. -/
def isAlphaNumeric (c : Char) : Bool := isAlpha c || isDigit c

namespace Scanner

variable {N : Type}

/-- `source.substring(start, current)`. -/
def text (x : Scanner) : Name := x.start.take (x.start.length - x.current.length)

/-- `addToken`. -/
def addToken (type : TokenType) (literal : Literal N) (x : Scanner) : Scanned N × Scanner :=
  (.token ⟨type, x.text, literal, x.line⟩, x)

/-- `match`: one of two tokens. -/
def twoChars (expected : Char) (double single : TokenType) (x : Scanner) : Scanned N × Scanner :=
  match x.current with
  | c :: rest =>
    if c = expected then { x with current := rest }.addToken double .nil
    else x.addToken single .nil
  | [] => x.addToken single .nil

/-- The loop `while (p(peek())) advance();`. -/
def skipWhile (p : Char → Bool) (x : Scanner) : Scanner :=
  { x with current := x.current.dropWhile p }

/-- `identifier`. -/
def identifier (x : Scanner) : Scanned N × Scanner :=
  let x := x.skipWhile isAlphaNumeric
  x.addToken ((keywords.lookup x.text).getD .identifier) .nil

/-- `number`; `Double.parseDouble` reads the text of the token. -/
def number [Double N] (x : Scanner) : Scanned N × Scanner :=
  let x := x.skipWhile isDigit
  let x := match x.current with
    | '.' :: d :: rest => if isDigit d then { x with current := d :: rest }.skipWhile isDigit else x
    | _ => x
  x.addToken .number (.number (Double.strtod x.text))

/-- `string`, after the opening quote. -/
def string (x : Scanner) : Scanned N × Scanner :=
  let body := x.current.takeWhile (· ≠ '"')
  let x := { x with
    current := x.current.dropWhile (· ≠ '"'), line := x.line + body.count '\n' }
  match x.current with
  | [] => (.error x.line "Unterminated string.", x)
  | _ :: rest => { x with current := rest }.addToken .string (.string body)

/-- `scanToken`, on a text that has not ended. -/
def scanToken [Double N] (c : Char) (x : Scanner) : Scanned N × Scanner :=
  match c with
  | '(' => x.addToken .leftParen .nil
  | ')' => x.addToken .rightParen .nil
  | '{' => x.addToken .leftBrace .nil
  | '}' => x.addToken .rightBrace .nil
  | ',' => x.addToken .comma .nil
  | '.' => x.addToken .dot .nil
  | '-' => x.addToken .minus .nil
  | '+' => x.addToken .plus .nil
  | ';' => x.addToken .semicolon .nil
  | '*' => x.addToken .star .nil
  | '!' => x.twoChars '=' .bangEqual .bang
  | '=' => x.twoChars '=' .equalEqual .equal
  | '<' => x.twoChars '=' .lessEqual .less
  | '>' => x.twoChars '=' .greaterEqual .greater
  | '/' =>
    match x.current with
    | '/' :: rest => (.nothing, { x with current := rest.dropWhile (· ≠ '\n') })
    | _ => x.addToken .slash .nil
  | ' ' => (.nothing, x)
  | '\r' => (.nothing, x)
  | '\t' => (.nothing, x)
  | '\n' => (.nothing, { x with line := x.line + 1 })
  | '"' => x.string
  | c =>
    if isDigit c then x.number
    else if isAlpha c then x.identifier
    else (.error x.line "Unexpected character", x)

/-- The loop of `scanTokens` and the token it adds at the end, each step with the scanner after
it. -/
def scanLoop [Double N] : ℕ → Scanner → List (Scanned N × Scanner)
  | 0, _ => []
  | n + 1, x =>
    match x.current with
    | [] => [(.token ⟨.eof, [], .nil, x.line⟩, { x with start := [] })]
    | c :: rest =>
      let (scanned, x) := scanToken c { x with start := x.current, current := rest }
      (scanned, x) :: scanLoop n x

end Scanner

variable {N : Type}

/-- What happens while a source is scanned.  Every turn of the loop takes a character. -/
def scanSteps [Double N] (source : List Char) : List (Scanned N × Scanner) :=
  Scanner.scanLoop (source.length + 1) ⟨source, source, 1⟩

/-- `scanTokens`. -/
def scanTokens [Double N] (source : List Char) : List (Token N) :=
  (scanSteps source).filterMap fun step =>
    match step.1 with
    | .token t => some t
    | _ => none

end Lox.Jlox
