/-!
# The command line of the task runner

A command line names one of three tasks and its options.  Arguments are read from left to right.
Asking for help does not end the reading: an option after it is an error, and a task after it is the
one that help is given for.  After `--` every argument is positional.
-/

namespace Oberon.Tasks

/-- What the task runner can do. -/
inductive Task where
  | coverage (report : Bool)
  | checks (fix : Bool)
  | fuzz (target : String) (seconds : Nat)
  deriving DecidableEq, Repr

/-- Why no task is run. -/
inductive Refusal where
  | help (usage : String)
  | mistake (message : String)
  deriving DecidableEq, Repr

/-- The arguments that a task takes: an option without a value, one with a number, and whether there
is a positional one. -/
structure Signature where
  name : String
  usage : String
  switch : Option String
  numbered : Option String
  positional : Bool
  deriving DecidableEq, Repr

/-- The arguments that have been read. -/
structure Arguments where
  switched : Bool
  number : Option Nat
  positional : Option String
  deriving DecidableEq, Repr

/-- One more than the greatest number an option takes. -/
def numberLimit : Nat := 0x100000000

/-- Reads the digits of a number after those that make up `value`.  The first digit that is wrong or
makes the number too large decides. -/
def readDigits (value : Nat) : List Char → Except String Nat
  | [] => .ok value
  | c :: rest =>
    if c.isDigit then
      let next := value * 10 + (c.toNat - '0'.toNat)
      if next < numberLimit then readDigits next rest
      else .error "number too large to fit in target type"
    else
      .error "invalid digit found in string"

/-- Reads a number, which may start with a plus sign. -/
def readNumber : List Char → Except String Nat
  | [] => .error "cannot parse integer from empty string"
  | '+' :: c :: rest => readDigits 0 (c :: rest)
  | text => readDigits 0 text

/-- The first number of an option.  A second one is refused before it is looked at. -/
def Arguments.giveNumber (arguments : Arguments) (text : String) : Except String Arguments :=
  match arguments.number with
  | some _ => .error "duplicate values provided"
  | none => (readNumber text.toList).map fun number => { arguments with number := some number }

/-- An argument that fits nowhere. -/
def unrecognized (argument : String) : Refusal :=
  .mistake ("Unrecognized argument: " ++ argument ++ "\n")

/-- An option after a request for help. -/
def trailing : Refusal :=
  .mistake "Trailing arguments are not allowed after \x60help\x60."

/-- An option without its number. -/
def noValue (option : String) : Refusal :=
  .mistake ("No value provided for option '" ++ option ++ "'.\n")

/-- An option with a bad number. -/
def badValue (option value reason : String) : Refusal :=
  .mistake
    ("Error parsing option '" ++ option ++ "' with value '" ++ value ++ "': " ++ reason ++ "\n")

/-- True of the arguments that ask for help. -/
def asksForHelp (argument : String) : Bool := argument == "--help" || argument == "help"

/-- True of the arguments that look like options. -/
def looksLikeOption (argument : String) : Bool := argument.toList.head? == some '-'

/-- Reads the arguments of a task, where `help` tells whether help has been asked for and `ended`
whether only positional arguments can follow. -/
def Signature.read
    (signature : Signature)
    (arguments : Arguments)
    (help ended : Bool) :
    List String → Except Refusal Arguments
  | [] => if help then .error (.help signature.usage) else .ok arguments
  | argument :: rest =>
    if asksForHelp argument && !ended then
      signature.read arguments true ended rest
    else if looksLikeOption argument && !ended then
      if argument = "--" then signature.read arguments help true rest
      else if help then .error trailing
      else if signature.switch = some argument then
        signature.read { arguments with switched := true } help ended rest
      else if signature.numbered = some argument then
        match rest with
        | [] => .error (noValue argument)
        | value :: rest =>
          match arguments.giveNumber value with
          | .error reason => .error (badValue argument value reason)
          | .ok arguments => signature.read arguments help ended rest
      else .error (unrecognized argument)
    else if signature.positional && arguments.positional.isNone then
      signature.read { arguments with positional := some argument } help ended rest
    else
      .error (unrecognized argument)

/-- The arguments of the coverage task. -/
def coverageSignature : Signature where
  name := "cov"
  usage := "Usage: xtask cov [--report]

Collect test coverage data.

Options:
  --report          produce an html report instead of the default .lcov file.
  --help, help      display usage information
"
  switch := some "--report"
  numbered := none
  positional := false

/-- The arguments of the checks. -/
def checksSignature : Signature where
  name := "ci"
  usage := "Usage: xtask ci [--fix]

Run the continuous integration validation tests.

Options:
  --fix             attempt to automatically fix format and clippy errors.
  --help, help      display usage information
"
  switch := some "--fix"
  numbered := none
  positional := false

/-- The arguments of the fuzzing task. -/
def fuzzSignature : Signature where
  name := "fuzz"
  usage := "Usage: xtask fuzz [--seconds <seconds>] [--] [<target>]

Run one of the cargo-fuzz targets in the fuzz/ directory.

Positional Arguments:
  target            fuzz target to run, \x60tokenize\x60 or \x60parse\x60.

Options:
  --seconds         number of seconds to run the fuzzer for.
  --help, help      display usage information
"
  switch := none
  numbered := some "--seconds"
  positional := true

/-- The help text for the task runner as a whole. -/
def usage : String := "Usage: xtask <command> [<args>]

Top-level command.

Options:
  --help, help      display usage information

Commands:
  cov               Collect test coverage data.
  ci                Run the continuous integration validation tests.
  fuzz              Run one of the cargo-fuzz targets in the fuzz/ directory.
"

/-- What is said if no task is named. -/
def noTask : String := "One of the following subcommands must be present:
    help
    cov
    ci
    fuzz
"

/-- The tasks by name, each with what its arguments come to. -/
def tasks : List (Signature × (Arguments → Task)) :=
  [(coverageSignature, fun arguments => .coverage arguments.switched),
    (checksSignature, fun arguments => .checks arguments.switched),
    (fuzzSignature, fun arguments =>
      .fuzz (arguments.positional.getD "parse") (arguments.number.getD 60))]

/-- Reads a command line, where `help` tells whether help has been asked for and `ended` whether
options can follow no more. -/
def readCommandLine (help ended : Bool) : List String → Except Refusal Task
  | [] => .error (if help then .help usage else .mistake noTask)
  | argument :: rest =>
    if asksForHelp argument && !ended then
      readCommandLine true ended rest
    else if looksLikeOption argument && !ended then
      if argument = "--" then readCommandLine help true rest
      else if help then .error trailing
      else .error (unrecognized argument)
    else
      match tasks.find? (·.1.name == argument) with
      | none => .error (unrecognized argument)
      | some (signature, task) => (signature.read ⟨false, none, none⟩ help false rest).map task

/-- The task that a command line asks for. -/
def Task.ofCommandLine (arguments : List String) : Except Refusal Task :=
  readCommandLine false false arguments

end Oberon.Tasks
