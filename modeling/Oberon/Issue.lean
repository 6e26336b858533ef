import Oberon.Token

/-!
# Lexical issues

A flaw is what can be wrong with the text while it is split into tokens.  An issue is a flaw
together with the token at which it was noticed.
-/

namespace Oberon

/-- What can be wrong with a text. -/
inductive Flaw where
  | unknownCharacter
  | invalidUtf8
  | unterminatedComment
  | unterminatedString
  | malformedNumber
  deriving DecidableEq, Repr, Inhabited

/-- A flaw and the token at which it was noticed. -/
structure Issue where
  flaw : Flaw
  token : Token
  deriving DecidableEq, Repr, Inhabited

end Oberon
