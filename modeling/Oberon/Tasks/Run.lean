import Oberon.Tasks.Plan
import Oberon.Text.Escape

/-!
# Running tasks

A run is a function of the command line and of its surroundings: the programs that exist, the codes
they exit with, and the files of the project.  It stops at the first failure.
-/

namespace Oberon.Tasks

/-- What a command line is run in: the programs that there are, the text of the project root, the
build program unless it is the usual one, the codes that the programs exit with one after the other,
which are zero where none is left, and the files of the project.  The root is the working directory,
and its text has no wildcards. -/
structure Surroundings where
  programs : List String
  root : String
  cargo : Option String
  exits : List UInt8
  files : FileTree
  deriving DecidableEq, Repr

/-- Why a task fails. -/
inductive Failure where
  | files (error : FileError)
  | noProgram
  | exited (command : Command) (code : UInt8)
  deriving DecidableEq, Repr

/-- How far a task has come: the files, the exit codes that are left, the programs that have been
started, and what has been printed. -/
structure World where
  files : FileTree
  exits : List UInt8
  commands : List Command
  output : String
  deriving DecidableEq, Repr

/-- What a run comes to. -/
structure Outcome where
  code : Nat
  output : String
  errors : String
  commands : List Command
  files : FileTree
  deriving DecidableEq, Repr

/-- An error of the operating system, in the form in which it is printed. -/
def systemError (code : Nat) (kind message : String) : String :=
  "Os \x7b code: " ++ toString code ++ ", kind: " ++ kind ++ ", message: " ++ Text.quote message
    ++ " \x7d"

/-- An error with a kind and a message, in the form in which it is printed. -/
def fileError (kind message : String) : String :=
  "Error \x7b kind: " ++ kind ++ ", message: " ++ Text.quote message ++ " \x7d"

/-- An error of the operating system without a kind of its own. -/
def otherFileError (code : Nat) (kind message : String) : String :=
  fileError ("Io(" ++ systemError code kind message ++ ")")
    "Io error. Look inside err_kind for more details."

namespace FileError

/-- The error in the form in which it is printed. -/
def display (root : String) : FileError → String
  | notFound => fileError "NotFound" "No such file or directory (os error 2)"
  | alreadyExists => fileError "AlreadyExists" "File exists (os error 17)"
  | notADirectory => otherFileError 20 "NotADirectory" "Not a directory"
  | isADirectory => otherFileError 21 "IsADirectory" "Is a directory"
  | nameTooLong => otherFileError 36 "InvalidFilename" "File name too long"
  | notAFile path =>
    fileError "InvalidFile" ("Path \"" ++ textFound root path ++ "\" is not a file!")

end FileError

namespace Failure

/-- The failure in the form in which it is printed. -/
def display (root : String) : Failure → String
  | files error => error.display root
  | noProgram => systemError 2 "NotFound" "No such file or directory"
  | exited command code =>
    let words := (command.program :: command.arguments).map Text.quote
    "Custom \x7b kind: Other, error: "
      ++ Text.quote ("command [" ++ ", ".intercalate words ++ "] exited with code "
        ++ toString code.toNat)
      ++ " \x7d"

end Failure

/-- A step of a run. -/
abbrev Run (α : Type) := EStateM Failure World α

namespace Run

/-- Prints a line. -/
def say (line : String) : Run Unit :=
  modify fun world => { world with output := world.output ++ line ++ "\n" }

/-- Runs an operation on the files. -/
def onFiles {α : Type} (operation : FileOperation α) : Run α := fun world =>
  match operation world.files with
  | .ok value files => .ok value { world with files }
  | .error error files => .error (.files error) { world with files }

/-- Starts a program, which takes the next exit code. -/
def start (programs : List String) (command : Command) : Run Unit := do
  if command.program ∈ programs then
    let world ← get
    let code := world.exits.headD 0
    set { world with exits := world.exits.tail, commands := world.commands ++ [command] }
    unless code = 0 do throw (.exited command code)
  else
    throw .noProgram

/-- Copies the test modules into a corpus. -/
def seed (corpus : Corpus) : Run Unit := do
  let seeds := (← get).files.select (inDirectory ["lang", "tests", "modules"] ".Mod")
  seeds.forM fun path => onFiles (copyInto corpus.place path)
  say ("** seeded " ++ corpus.text ++ " with " ++ toString seeds.length ++ " modules.")

/-- Removes all files with an extension. -/
def removeAll (extension : String) : Run Unit := do
  let found := (← get).files.select (anywhere extension)
  found.forM fun path => onFiles (removeFile path)

end Run

namespace Action

/-- Performs an action, where only some programs exist. -/
def perform (programs : List String) : Action → Run Unit
  | say line => Run.say line
  | start command => Run.start programs command
  | remake path => Run.onFiles (remakeDirectory path)
  | makeCorpus corpus =>
    match corpus.names with
    | some names => Run.onFiles (makeDirectories names)
    | none => pure ()
  | seed corpus => Run.seed corpus
  | removeAll extension => Run.removeAll extension

/-- Performs actions in order up to the first that fails. -/
def performAll (programs : List String) : List Action → Run Unit
  | [] => pure ()
  | action :: rest => do
    action.perform programs
    performAll programs rest

end Action

namespace Surroundings

/-- The build program. -/
def buildProgram (surroundings : Surroundings) : String := surroundings.cargo.getD "cargo"

/-- What a run starts from. -/
def world (surroundings : Surroundings) : World := ⟨surroundings.files, surroundings.exits, [], ""⟩

/-- The actions of a task. -/
def actions (surroundings : Surroundings) (task : Task) : List Action :=
  task.actions surroundings.root surroundings.buildProgram

/-- The programs that a task starts if nothing fails. -/
def plan (surroundings : Surroundings) (task : Task) : List Command :=
  task.plan surroundings.root surroundings.buildProgram

end Surroundings

namespace Outcome

/-- Nothing is run. -/
def refused (files : FileTree) : Refusal → Outcome
  | .help usage => ⟨0, usage ++ "\n", "", [], files⟩
  | .mistake message =>
    ⟨1, "", message ++ "\nRun xtask --help for more information.\n", [], files⟩

/-- Runs a task. -/
def ofTask (surroundings : Surroundings) (task : Task) : Outcome :=
  let actions := surroundings.actions task
  match Action.performAll surroundings.programs actions surroundings.world with
  | .ok _ world => ⟨0, world.output, "", world.commands, world.files⟩
  | .error failure world =>
    let errors := "Error: " ++ failure.display surroundings.root ++ "\n"
    ⟨1, world.output, errors, world.commands, world.files⟩

/-- Runs a command line. -/
def ofCommandLine (surroundings : Surroundings) (arguments : List String) : Outcome :=
  match Task.ofCommandLine arguments with
  | .error refusal => refused surroundings.files refusal
  | .ok task => ofTask surroundings task

end Outcome

end Oberon.Tasks
