import Oberon.Issue

/-!
# Diagnostics

A diagnostic is a message about a place in a file, with a level and any number of notes, each of
which is a message of its own.  Its printed form has one line per message, the notes after the
main message; errors are marked as such.

Diagnostics are values.  What a consumer keeps of them is a function of those it was given:
`Diagnostic.report` is for one that remembers levels, problems and texts, and `Diagnostic.printAll`
for one that writes them to a stream.
-/

namespace Oberon

/-- How serious a diagnostic is. -/
inductive Severity where
  | note
  | warning
  | error
  deriving DecidableEq, Repr, Inhabited

/-- How a text can break the grammar. -/
inductive Fault where
  | missingToken
  | unexpectedToken
  | unexpectedEndOfInput
  | nestingTooDeep
  deriving DecidableEq, Repr, Inhabited

/-- What a diagnostic is about. -/
inductive Problem where
  | lexical (flaw : Flaw)
  | grammatical (fault : Fault)
  deriving DecidableEq, Repr, Inhabited

/-- A place in a file: a line and a column, counted from one or zero if unknown, and the text of the
line without its line break. -/
structure Location where
  file : String
  line : Nat
  column : Nat
  text : String
  deriving DecidableEq, Repr, Inhabited

namespace Location

/-- The file name, then the line and the column as far as they are known. -/
def display (location : Location) : String :=
  location.file
    ++ (if location.line = 0 then "" else ":" ++ toString location.line)
    ++ (if location.column = 0 then "" else ":" ++ toString location.column)

end Location

/-- A statement about a place. -/
structure Message where
  problem : Problem
  location : Location
  body : String
  deriving DecidableEq, Repr, Inhabited

namespace Message

/-- The location and the body. -/
def display (message : Message) : String :=
  message.location.display ++ ": " ++ message.body

/-- The location and the body, marked as an error. -/
def displayError (message : Message) : String :=
  message.location.display ++ ": ERROR: " ++ message.body

end Message

/-- A message with its level and notes. -/
structure Diagnostic where
  level : Severity
  message : Message
  notes : List Message
  deriving DecidableEq, Repr, Inhabited

/-- What is kept of a diagnostic that has been printed. -/
structure Report where
  level : Severity
  problem : Problem
  text : String
  deriving DecidableEq, Repr, Inhabited

namespace Diagnostic

/-- The printed form: a line for the message and one for each note. -/
def display (diagnostic : Diagnostic) : String :=
  let first :=
    match diagnostic.level with
    | .error => diagnostic.message.displayError
    | _ => diagnostic.message.display
  first ++ "\n" ++ String.join (diagnostic.notes.map (·.display ++ "\n"))

/-- The level, the problem and the printed form. -/
def report (diagnostic : Diagnostic) : Report :=
  ⟨diagnostic.level, diagnostic.message.problem, diagnostic.display⟩

/-- The printed forms one after another. -/
def printAll (diagnostics : List Diagnostic) : String :=
  String.join (diagnostics.map display)

end Diagnostic

end Oberon
