import Mathlib.Tactic

/-!
# Tokens of the clox front end

The token types of `scanner.h` and the token record.  A C token is a pointer into the
source together with a length; here `start` is the source text from that pointer on, so
that the lexeme is its first `length` characters and `strtod`, which is given only the
pointer, still sees what follows the token.

`Scanner` is the token stream the compiler pulls from: the tokens not yet handed out, and
the line of the end-of-file token that `scanToken` returns for ever after.
-/

namespace Lox

/-- Identifiers and string contents: sequences of C characters. -/
abbrev Name := List Char

namespace Clox

/-- `TokenType` of `scanner.h`. -/
inductive TokenType where
  | leftParen | rightParen | leftBrace | rightBrace
  | comma | dot | minus | plus
  | semicolon | slash | star
  | bang | bangEqual
  | equal | equalEqual
  | greater | greaterEqual
  | less | lessEqual
  | identifier | string | number
  | and_ | class_ | else_ | false_
  | for_ | fun_ | if_ | nil_ | or_
  | print_ | return_ | super_ | this_
  | true_ | var_ | while_
  | error | eof
  deriving DecidableEq, Repr

/-- `Token` of `scanner.h`; `start` is the text the C pointer points at. -/
structure Token where
  type : TokenType
  start : List Char
  length : ℕ
  line : ℕ
  deriving DecidableEq, Repr

/-- The characters the token covers. -/
def Token.lexeme (t : Token) : Name := t.start.take t.length

/-- `syntheticToken(text)`: a token that is not in the source. -/
def syntheticToken (text : Name) : Token := ⟨.identifier, text, text.length, 0⟩

@[simp] theorem lexeme_syntheticToken (text : Name) : (syntheticToken text).lexeme = text := by
  simp [syntheticToken, Token.lexeme]

/-- The scanner as the compiler sees it: the tokens still to come and the line of the end of
the source. -/
structure Scanner where
  pending : List Token
  eofLine : ℕ

/-- The token `scanToken` returns at the end of the source, again and again. -/
def Scanner.eofToken (sc : Scanner) : Token := ⟨.eof, [], 0, sc.eofLine⟩

/-- `scanToken`. -/
def Scanner.scanToken (sc : Scanner) : Token × Scanner :=
  match sc.pending with
  | [] => (sc.eofToken, sc)
  | t :: ts => (t, { sc with pending := ts })

end Clox

end Lox
