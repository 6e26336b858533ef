import Oberon.Tasks.Run

/-!
# The command line of the developer tool

Rehearses a command line: every program of the task counts as installed and as successful, nothing
is started, and the project counts as empty.  What the run would print goes to the standard output
and the standard error, and its exit code is returned.
-/

namespace Oberon.Tasks

/-- Surroundings in which every program of a command line exists and succeeds. -/
def Surroundings.rehearsal (cargo : Option String) (arguments : List String) : Surroundings :=
  let bare : Surroundings := ⟨[], ".", cargo, [], ⟨[]⟩⟩
  match Task.ofCommandLine arguments with
  | .ok task => { bare with programs := (bare.plan task).map (·.program) }
  | .error _ => bare

end Oberon.Tasks

/-- Rehearses the command line. -/
def main (arguments : List String) : IO UInt32 := do
  let cargo ← IO.getEnv "CARGO"
  let surroundings := Oberon.Tasks.Surroundings.rehearsal cargo arguments
  let outcome := Oberon.Tasks.Outcome.ofCommandLine surroundings arguments
  (← IO.getStdout).putStr outcome.output
  (← IO.getStderr).putStr outcome.errors
  return outcome.code.toUInt32
