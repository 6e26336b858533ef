import Oberon.Symbol

/-!
# Tokens and lexemes

Places in a source are counted in code points from zero.  Offsets are places as they are kept in
machine words of 32 bits: a place that is too large for a word is cut down to one (`toWord`), so
that tokens far behind have the offsets of others before them.

A span is a half-open range of offsets.  A token is a symbol with the span it covers, and a lexeme
is a token together with its text, which is empty for the symbols that carry none.
-/

namespace Oberon

/-- How many offsets there are. -/
def wordCount : Nat := 4294967296

/-- The offset that a place is cut down to. -/
def toWord (place : Nat) : Nat := place % wordCount

theorem toWord_of_lt
    {place : Nat}
    (h : place < wordCount) :
    toWord place = place :=
  Nat.mod_eq_of_lt h

/-- A half-open range of offsets. -/
structure Span where
  start : Nat
  stop : Nat
  deriving DecidableEq, Repr, Inhabited

/-- A symbol and the characters it covers. -/
structure Token where
  symbol : Symbol
  start : Nat
  stop : Nat
  deriving DecidableEq, Repr, Inhabited

namespace Token

/-- Number of characters the token covers. -/
def width (token : Token) : Nat := token.stop - token.start

/-- True of a token that covers no character. -/
def isEmpty (token : Token) : Bool := token.start == token.stop

/-- The characters that the token covers. -/
def span (token : Token) : Span := ⟨token.start, token.stop⟩

/-- The end of the input at an offset. -/
def endAt (offset : Nat) : Token := ⟨.endOfFile, offset, offset⟩

end Token

/-- A token with its text. -/
structure Lexeme where
  token : Token
  text : String
  deriving DecidableEq, Repr, Inhabited

namespace Lexeme

/-- The class of the lexeme's token. -/
def symbol (lexeme : Lexeme) : Symbol := lexeme.token.symbol

end Lexeme

end Oberon
