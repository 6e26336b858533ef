import Oberon.TokenStream

/-!
# Grammar violations

Parsing stops at the first token that does not fit.  A violation names that token and says why it
does not fit and in which rule of the grammar.  Whatever the reason, a violation at the end of the
file is an unexpected end of the input, unless the nesting was too deep.
-/

namespace Oberon

/-- How deeply factors, statements, types and declarations may be nested in each other. -/
def maxNesting : Nat := 32

/-- Why a token does not fit: one particular symbol is required, the token starts no operand, one of
several symbols is required, or the nesting limit is reached. -/
inductive Reason where
  | missing (expected : Symbol) (rule : String)
  | noOperand (rule : String)
  | noAlternative (expected : List Symbol) (rule : String)
  | tooDeep (rule : String)
  deriving DecidableEq, Repr, Inhabited

namespace Reason

/-- The rule of the grammar that was being followed. -/
def rule : Reason → String
  | missing _ rule => rule
  | noOperand rule => rule
  | noAlternative _ rule => rule
  | tooDeep rule => rule

/-- The symbols that would have fitted, where they are few. -/
def expected : Reason → List Symbol
  | missing symbol _ => [symbol]
  | noAlternative symbols _ => symbols
  | noOperand _ => []
  | tooDeep _ => []

end Reason

/-- A token that does not fit. -/
structure Violation where
  found : Token
  reason : Reason
  deriving DecidableEq, Repr, Inhabited

namespace Violation

/-- The class of the violation. -/
def fault (violation : Violation) : Fault :=
  match violation.reason with
  | .tooDeep _ => .nestingTooDeep
  | .missing _ _ =>
    if violation.found.symbol = .endOfFile then .unexpectedEndOfInput else .missingToken
  | _ => if violation.found.symbol = .endOfFile then .unexpectedEndOfInput else .unexpectedToken

/-- What is said about the violation. -/
def message (violation : Violation) : String :=
  let found := violation.found.symbol.display
  match violation.reason with
  | .missing expected rule =>
    "Expected " ++ expected.display ++ " in " ++ rule ++ ", found " ++ found ++ "."
  | .noOperand rule => "Unexpected " ++ found ++ " in " ++ rule ++ ", expected an operand."
  | .noAlternative expected rule =>
    "Unexpected " ++ found ++ " in " ++ rule ++ ", expected one of "
      ++ ", ".intercalate (expected.map (·.display)) ++ "."
  | .tooDeep rule =>
    "Nesting deeper than " ++ toString maxNesting ++ " levels in " ++ rule
      ++ ", at " ++ found ++ "."

/-- The diagnostic for the violation, located at its token. -/
def diagnostic (violation : Violation) (stream : TokenStream) : Diagnostic :=
  stream.diagnose (.grammatical violation.fault) violation.found violation.message

end Violation

end Oberon
