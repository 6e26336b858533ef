import Oberon.Tasks.CommandLine
import Oberon.Tasks.FileTree

/-!
# What the tasks do

A task is a list of actions: lines to print, programs to start and operations on files.  The plan of
a task is the list of the programs among them.
-/

namespace Oberon.Tasks

/-- A program to start. -/
structure Command where
  program : String
  arguments : List String
  environment : List (String × String)
  deriving DecidableEq, Repr

/-- The directory that holds the inputs of a fuzz target: its text, and the names that lead to it
from the root unless it is absolute. -/
structure Corpus where
  text : String
  names : Option (List String)
  deriving DecidableEq, Repr

namespace Corpus

/-- The corpus of a target.  The target is a path of its own, which starts in the directory of all
corpora unless it is absolute. -/
def ofTarget (root target : String) : Corpus :=
  let names := (target.toList.splitOn '/').map String.ofList
  { text := textBelow root ["fuzz", "corpus", target]
    names :=
      if target.toList.head? = some '/' then none
      else some (["fuzz", "corpus"] ++ names.filter (· ≠ "")) }

/-- Where the corpus is, if it is below the root. -/
def place (corpus : Corpus) : Option Path :=
  corpus.names.bind fun names => names.foldl follow (some [])

end Corpus

/-- A step of a task.  To remake a directory is to make it empty, and to seed a corpus is to copy
the test modules into it that it lacks. -/
inductive Action where
  | say (line : String)
  | start (command : Command)
  | remake (path : Path)
  | makeCorpus (corpus : Corpus)
  | seed (corpus : Corpus)
  | removeAll (extension : String)
  deriving DecidableEq, Repr

namespace Action

/-- The program that an action starts. -/
def command? : Action → Option Command
  | start command => some command
  | _ => none

end Action

/-- Collects coverage data. -/
def coverageActions (root cargo : String) (report : Bool) : List Action :=
  let format := if report then "html" else "lcov"
  let output :=
    textBelow root ["target", "coverage", if report then "html" else "tests.lcov"]
  [.remake ["target", "coverage"],
    .say "** collecting coverage information.",
    .start ⟨cargo, ["test", "--tests"],
      [("CARGO_INCREMENTAL", "0"), ("RUSTFLAGS", "-C instrument-coverage"),
        ("LLVM_PROFILE_FILE", "cargo-test-%p-%m.profraw")]⟩,
    .say "** coallating coverage data.",
    .start ⟨"grcov",
      [".", "--binary-path", textBelow root ["target", "debug", "deps"], "-s", ".", "-t", format,
        "--branch", "--ignore-not-existing", "--ignore", "../*", "--ignore", "/*",
        "--ignore", "xtask/*", "--ignore", "lang/tests/*", "--ignore", "fuzz/*",
        "--ignore", "*_unittests.rs", "-o", output], []⟩,
    .say "** cleaning up *.profraw files.",
    .removeAll ".profraw",
    .say (if report then
      "** done. Generated coverage report in target/coverage/html/index.html."
    else
      "** done. Machine-readable coverage report in target/coverage/tests.lcov")]

/-- Checks or mends the project, and tests it. -/
def checksActions (cargo : String) (fix : Bool) : List Action :=
  (if fix then
    [.say "** automatically fixing code formatting with \x60cargo fmt --all\x60",
      .start ⟨cargo, ["fmt", "--all"], []⟩,
      .say "** automatically fixing clippy issues with \x60cargo clippy -- --fix\x60",
      .start ⟨cargo, ["clippy", "--fix"], []⟩]
  else
    [.say "** checking code formatting with \x60cargo fmt --all -- --check\x60",
      .start ⟨cargo, ["fmt", "--all", "--", "--check"], []⟩,
      .say "** linting code with \x60cargo clippy -- --deny all\x60",
      .start ⟨cargo, ["clippy", "--", "--deny", "clippy::all"], []⟩])
  ++ [.say "** building and testing code with \x60RUSTFLAGS=\"-D warnings\" cargo test\x60",
    .start ⟨cargo, ["test"], [("RUSTFLAGS", "-D warnings")]⟩,
    .say "** all checks passed!"]

/-- Seeds the corpus of a target and fuzzes it. -/
def fuzzActions (root target : String) (seconds : Nat) : List Action :=
  let corpus := Corpus.ofTarget root target
  let time := toString seconds
  [.makeCorpus corpus,
    .seed corpus,
    .say ("** fuzzing \x60" ++ target ++ "\x60 for " ++ time
      ++ " seconds with \x60cargo +nightly fuzz run\x60"),
    .start ⟨"cargo",
      ["+nightly", "fuzz", "run", target, corpus.text, "--", "-max_total_time=" ++ time], []⟩,
    .say "** no crashes found."]

namespace Task

/-- The actions of a task in a project, where `cargo` is the build program. -/
def actions (root cargo : String) : Task → List Action
  | coverage report => coverageActions root cargo report
  | checks fix => checksActions cargo fix
  | fuzz target seconds => fuzzActions root target seconds

/-- The programs that a task starts if nothing fails. -/
def plan (root cargo : String) (task : Task) : List Command :=
  (task.actions root cargo).filterMap Action.command?

end Task

end Oberon.Tasks
