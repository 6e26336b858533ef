import Oberon.LineTable
import Oberon.Scan.Scanner
import Oberon.Source
import Oberon.Text.Escape

/-!
# Token streams

The lexemes of a whole source, ending with the end of the file, and the issues noticed on the way.
The stream keeps the decoded text, so that tokens can be turned into the characters they cover and
into locations.  A location is looked up in the line table of the text; it is unknown if that fails.
-/

namespace Oberon

/-- The lexemes of a source. -/
structure TokenStream where
  name : String
  text : List Char
  lexemes : List Lexeme
  issues : List Issue
  deriving DecidableEq, Repr

namespace TokenStream

/-- Splits a text into lexemes. -/
def ofText (name : String) (text : List Char) : TokenStream :=
  let steps := (Scanner.ofText text).run
  ⟨name, text, steps.map (·.lexeme), steps.flatMap (·.issues)⟩

/-- Splits a source into lexemes. -/
def ofSource (source : Source) : TokenStream := ofText source.name source.text

/-- The token at an index. -/
def token? (stream : TokenStream) (index : Nat) : Option Token :=
  stream.lexemes[index]?.map (·.token)

/-- The text of the lexeme at an index, empty past the end. -/
def lexemeText (stream : TokenStream) (index : Nat) : String :=
  (stream.lexemes[index]?.map (·.text)).getD ""

/-- The characters that a token covers, as far as the source has them. -/
def sourceText (stream : TokenStream) (token : Token) : List Char :=
  (stream.text.take token.stop).drop token.start

/-- The place at which a token starts, looked up in the line table. -/
def locate? (stream : TokenStream) (token : Token) : Option Location := do
  let table ← LineTable.ofText? stream.text
  table.locate? stream.name token.start

/-- The place at which a token starts, or an unknown one. -/
def location (stream : TokenStream) (token : Token) : Location :=
  (stream.locate? token).getD ⟨stream.name, 0, 0, ""⟩

/-- What is said about an issue. -/
def issueText (stream : TokenStream) (issue : Issue) : String :=
  match issue.flaw with
  | .unknownCharacter =>
    let c := stream.text[issue.token.start]?.getD ' '
    "Unrecognized character '" ++ Text.escapeChar c ++ "', input truncated."
  | .invalidUtf8 => "Invalid utf-8 sequence, input truncated."
  | .unterminatedComment => "Unterminated comment."
  | .unterminatedString => "Unterminated string literal."
  | .malformedNumber =>
    "Malformed number '" ++ String.ofList (stream.sourceText issue.token) ++ "'."

/-- A diagnostic about a token, without notes. -/
def diagnose (stream : TokenStream) (problem : Problem) (token : Token) (body : String) :
    Diagnostic :=
  ⟨.error, ⟨problem, stream.location token, body⟩, []⟩

/-- The diagnostics for the issues, in order. -/
def diagnostics (stream : TokenStream) : List Diagnostic :=
  stream.issues.map fun issue =>
    stream.diagnose (.lexical issue.flaw) issue.token (stream.issueText issue)

end TokenStream

end Oberon
