import Mathlib.Data.List.Infix
import Oberon.Proofs.TaskRuns

/-!
# Tasks that fail

A task goes on until something fails and stops there: a program is started exactly if everything
before it has succeeded, and the exit code is zero exactly if nothing fails.  What fails is told by
the programs that there are, by their exit codes and by the files (`Outcome.StopsAtFailure`).

The coverage task makes its directory empty first, and it removes the files with the raw data last.
Between the two it starts its programs and leaves the files alone (`lastWorld_coverage_cases`), so
that no raw data is lost unless both programs succeed.
-/

namespace Oberon.Tasks

open Oberon.Tasks.Action

/-- Where the coverage task puts its results. -/
def coveragePath : Path := ["target", "coverage"]

theorem ordinary_coveragePath : ∀ step ∈ coveragePath, Ordinary step := by
  simp only [coveragePath, List.forall_mem_cons]
  exact ⟨⟨by decide, by decide, by decide⟩, ⟨by decide, by decide, by decide⟩,
    List.forall_mem_nil _⟩

/-- True of the files with raw data. -/
def isRawData : Path → Bool := anywhere ".profraw"

/-- The directory of the results and those above it are no raw data. -/
theorem not_prefix_of_isRawData
    {path : Path}
    (raw : isRawData path = true) :
    ¬ path <+: coveragePath := by
  have above : ∀ front ∈ coveragePath.inits, ¬ isRawData front = true := by decide
  exact fun before => above path ((List.mem_inits _ _).mpr before) raw

section Coverage

variable
  {actions : List Action}

/-- The coverage task works on the files before and after it starts its programs, and not between.
-/
theorem exists_coverageActions_eq (root cargo : String) (report : Bool) :
    ∃ quiet line, coverageActions root cargo report =
        .remake coveragePath :: (quiet ++ [.removeAll ".profraw", .say line]) ∧
      quiet.filterMap Action.command? = (Task.coverage report).plan root cargo ∧
        ∀ action ∈ quiet, action.operation = pure () := by
  refine ⟨[_, _, _, _, _], _, rfl, rfl, ?_⟩
  simp only [List.forall_mem_cons]
  exact ⟨rfl, rfl, rfl, rfl, rfl, List.forall_mem_nil _⟩

/-- Actions that do nothing to the files leave them as they are. -/
theorem files_forM_of_quiet
    (quiet : ∀ action ∈ actions, action.operation = pure ())
    (programs : List String)
    (world : World) :
    (stateAfter (actions.forM (perform programs)) world).files = world.files := by
  refine files_forM_perform (motive := (· = world.files)) rfl ?_
  rintro action member tree rfl
  rw [quiet action member]
  rfl

/-- At the end of the coverage task the raw data is removed. -/
theorem files_cleanUp
    (programs : List String)
    (line : String)
    (world : World) :
    (stateAfter ([.removeAll ".profraw", .say line].forM (perform programs)) world).files =
      stateAfter ((world.files.select isRawData).forM removeFile) world.files := by
  refine stateAfter_bind_of (motive := fun after : World => after.files =
    stateAfter ((world.files.select isRawData).forM removeFile) world.files) ?_ ?_
  · exact files_perform programs (.removeAll ".profraw") world
  · intro _ middle same
    rw [← same]
    refine files_forM_of_quiet ?_ programs middle
    simp [operation]

/-- The directory of the coverage task can be made empty, and all programs of the task succeed. -/
def Surroundings.Covers (surroundings : Surroundings) (report : Bool) : Prop :=
  FilesWork surroundings.files [.remake coveragePath] ∧
    AllSucceed surroundings.programs surroundings.exits (surroundings.plan (.coverage report))

/-- The coverage task changes the files as making its directory empty does.  If that succeeds and
all programs do, the raw data is removed. -/
theorem lastWorld_coverage_cases (surroundings : Surroundings) (report : Bool) :
    let last := surroundings.lastWorld (.coverage report)
    (¬ surroundings.Covers report ∧
        last.files = stateAfter (remakeDirectory coveragePath) surroundings.files) ∨
      ∃ files, remakeDirectory coveragePath surroundings.files = .ok () files ∧
        surroundings.Covers report ∧
          last.files = stateAfter ((files.select isRawData).forM removeFile) files := by
  obtain ⟨quiet, line, split, plan, still⟩ :=
    exists_coverageActions_eq surroundings.root surroundings.buildProgram report
  have making : (Action.remake coveragePath).command? = none := rfl
  obtain ⟨makes, fails⟩ := perform_of_idle making surroundings.programs surroundings.world
  simp only [Surroundings.lastWorld, Surroundings.run, Surroundings.actions, Task.actions, split,
    Surroundings.Covers, Surroundings.plan, ← plan]
  cases made : remakeDirectory coveragePath surroundings.files with
  | error error files =>
    have failed : (Action.remake coveragePath).operation surroundings.files = .error error files :=
      made
    have stopped := forM_cons_of_error (fails error files made)
      (quiet ++ [.removeAll ".profraw", .say line])
    rw [stateAfter, stopped, stateAfter, made]
    exact .inl ⟨fun covers => not_filesWork_cons failed covers.1, rfl⟩
  | ok value files =>
    have done : (Action.remake coveragePath).operation surroundings.files = .ok () files := made
    have begun := forM_cons_of_ok (makes files made)
      (quiet ++ [.removeAll ".profraw", .say line])
    have worked : FilesWork surroundings.files [.remake coveragePath] :=
      (filesWork_cons_of_ok done).mpr (filesWork_nil files)
    rw [stateAfter, begun, and_iff_right worked]
    -- the programs are started in a world that differs from the first one in its files and output
    generalize output : surroundings.world.output ++ _ = printed
    have succeeds := forM_perform_iff surroundings.programs quiet
      { surroundings.world with files, output := printed }
    have untouched := files_forM_of_quiet still surroundings.programs
      { surroundings.world with files, output := printed }
    rw [and_iff_left (filesWork_of_quiet still _)] at succeeds
    rw [stateAfter] at untouched
    cases ran : quiet.forM (perform surroundings.programs)
        { surroundings.world with files, output := printed } with
    | error failure after =>
      rw [ran] at succeeds untouched
      rw [forM_append_of_error ran, stateAfter, made]
      exact .inl ⟨fun all => not_exists_ok (succeeds.mpr all), untouched⟩
    | ok value after =>
      rw [ran] at succeeds untouched
      rw [forM_append_of_ok ran]
      have removed := files_cleanUp surroundings.programs line after
      rw [stateAfter, untouched] at removed
      exact .inr ⟨files, rfl, succeeds.mp ⟨after, rfl⟩, removed⟩

/-- What the coverage task does to the files outside of its directory. -/
structure Outcome.Spares (surroundings : Surroundings) (report : Bool) (outcome : Outcome) :
    Prop where
  spared : ∀ path content, ¬ coveragePath <+: path → isRawData path = false →
    (outcome.files.get? path = some (.file content) ↔
      surroundings.files.get? path = some (.file content))
  kept : ¬ surroundings.Covers report → ∀ path content, ¬ coveragePath <+: path →
    (outcome.files.get? path = some (.file content) ↔
      surroundings.files.get? path = some (.file content))
  cleaned : surroundings.Covers report →
    (∀ path, ¬ coveragePath <+: path → isRawData path = true →
      surroundings.files.get? path ≠ some .directory) →
        ∀ path, isRawData path = true → outcome.files.get? path = none

/-- The raw data outside of the directory of the results is all that there is once that is empty. -/
theorem get?_of_isRawData
    {tree after : FileTree}
    {path : Path}
    (made : remakeDirectory coveragePath tree = .ok () after)
    (raw : isRawData path = true) :
    after.get? path = if coveragePath <+: path then none else tree.get? path :=
  get?_of_remakeDirectory ordinary_coveragePath (not_prefix_of_isRawData raw) made

/-- Whatever becomes of the coverage task, this is what it does to the files. -/
theorem Outcome.spares_ofTask (surroundings : Surroundings) (report : Bool) :
    Spares surroundings report (ofTask surroundings (.coverage report)) := by
  obtain ⟨files, -⟩ := ofTask_eq surroundings (.coverage report)
  have outside := fun {path : Path} (outside : ¬ coveragePath <+: path) (content : String) =>
    remakeDirectory_file_iff ordinary_coveragePath outside surroundings.files content
  rcases lastWorld_coverage_cases surroundings report with
    ⟨failed, last⟩ | ⟨emptied, made, succeeded, last⟩
  · rw [← files] at last
    refine ⟨?_, ?_, fun succeeded => absurd succeeded failed⟩
    · intro path content apart _
      rw [last, outside apart]
    · intro _ path content apart
      rw [last, outside apart]
  · rw [← files] at last
    have same : stateAfter (remakeDirectory coveragePath) surroundings.files = emptied := by
      rw [stateAfter, made]
    rw [same] at outside
    refine ⟨?_, fun failed => absurd succeeded failed, ?_⟩
    · intro path content apart other
      have kept : path ∉ emptied.select isRawData := by
        rw [FileTree.mem_select_iff, other]
        exact fun chosen => Bool.false_ne_true chosen.2
      rw [last, get?_removeFiles kept, outside apart]
    · intro _ regular path raw
      have removable : ∀ other ∈ emptied.select isRawData,
          emptied.get? other ≠ some .directory := by
        intro other member
        obtain ⟨-, chosen⟩ := FileTree.mem_select_iff.mp member
        rw [get?_of_isRawData made chosen]
        split
        · simp
        · exact regular other ‹_› chosen
      obtain ⟨after, done, removed⟩ := exists_removeFiles removable
      by_cases member : path ∈ emptied.select isRawData
      · rw [last, stateAfter, done]
        exact removed path member
      · rw [last, get?_removeFiles member]
        by_contra there
        exact member (FileTree.mem_select_iff.mpr ⟨there, raw⟩)

end Coverage

namespace Task

/-- The programs of a task, each with the first of its arguments. -/
def outline (cargo : String) : Task → List (List String)
  | coverage _ => [[cargo, "test"], ["grcov"]]
  | checks _ => [[cargo, "fmt"], [cargo, "clippy"], [cargo, "test"]]
  | fuzz _ _ => [["cargo", "+nightly", "fuzz", "run"]]

/-- The plan of a task fills in its outline. -/
theorem forall₂_outline (root cargo : String) (task : Task) :
    List.Forall₂ (fun words command => words <+: command.program :: command.arguments)
      (task.outline cargo) (task.plan root cargo) := by
  cases task with
  | coverage report => exact .cons ⟨_, rfl⟩ (.cons ⟨_, rfl⟩ .nil)
  | checks fix =>
    cases fix with
    | false => exact .cons ⟨_, rfl⟩ (.cons ⟨_, rfl⟩ (.cons ⟨_, rfl⟩ .nil))
    | true => exact .cons ⟨_, rfl⟩ (.cons ⟨_, rfl⟩ (.cons ⟨_, rfl⟩ .nil))
  | fuzz target seconds => exact .cons ⟨_, rfl⟩ .nil

end Task

/-- A task goes on until something fails, and stops there.  A program is started after those before
it, and only if all of them and the work on the files up to there succeed and the program exists. -/
structure Outcome.StopsAtFailure
    (surroundings : Surroundings)
    (task : Task)
    (outcome : Outcome) :
    Prop where
  outlined : List.Forall₂ (fun words command => words <+: command.program :: command.arguments)
    (task.outline surroundings.buildProgram) (surroundings.plan task)
  started : outcome.commands <+: surroundings.plan task
  started_iff : ∀ before command rest,
    surroundings.actions task = before ++ .start command :: rest →
      (before.filterMap Action.command? ++ [command] <+: outcome.commands ↔
        AllSucceed surroundings.programs surroundings.exits (before.filterMap Action.command?) ∧
          FilesWork surroundings.files before ∧ command.program ∈ surroundings.programs)
  code_eq_zero_iff : outcome.code = 0 ↔
    AllSucceed surroundings.programs surroundings.exits (surroundings.plan task) ∧
      FilesWork surroundings.files (surroundings.actions task)

/-- Every task that a command line asks for goes on until its first failure and stops there, and the
coverage task removes raw data only after it has succeeded. -/
theorem Outcome.stops_at_failure
    {surroundings : Surroundings}
    {arguments : List String}
    {task : Task}
    (asked : Task.ofCommandLine arguments = .ok task) :
    StopsAtFailure surroundings task (ofCommandLine surroundings arguments) ∧
      ∀ report, task = .coverage report →
        Spares surroundings report (ofCommandLine surroundings arguments) := by
  obtain ⟨-, -, commands, code⟩ := ofTask_eq surroundings task
  have fresh : surroundings.world.commands = [] := rfl
  simp only [ofCommandLine, asked]
  refine ⟨⟨task.forall₂_outline _ _, ?_, ?_, ?_⟩, ?_⟩
  · obtain ⟨started, same, front, -⟩ := commands_forM_perform surroundings.programs
      (surroundings.actions task) surroundings.world
    rw [commands, Surroundings.lastWorld, Surroundings.run, same, fresh, List.nil_append]
    exact front
  · intro before command rest split
    rw [commands, Surroundings.lastWorld, Surroundings.run, split]
    exact started_forM_perform_iff fresh before command rest
  · rw [code]
    exact forM_perform_iff _ _ _
  · rintro report rfl
    exact spares_ofTask surroundings report

/-- The theorem says what the coverage task does where its second program fails, where it has no
first one, and where nothing fails. -/
theorem Outcome.stops_at_failure_of_coverage :
    let files := FileTree.ofFiles [
      (["lang", "a.profraw"], "raw"),
      (["target", "coverage", "tests.lcov"], "old")]
    let failing := ofCommandLine ⟨["cargo", "grcov"], ".", none, [0, 3], files⟩ ["cov"]
    let lacking := ofCommandLine ⟨["grcov"], ".", none, [], files⟩ ["cov"]
    let passing := ofCommandLine ⟨["cargo", "grcov"], ".", none, [], files⟩ ["cov"]
    failing.commands.length = 2 ∧ failing.code ≠ 0 ∧
      failing.files.get? ["lang", "a.profraw"] = some (.file "raw") ∧
        lacking.commands = [] ∧ passing.code = 0 ∧
          passing.files.get? ["lang", "a.profraw"] = none := by
  intro files failing lacking passing
  have asked : Task.ofCommandLine ["cov"] = .ok (.coverage false) := by decide +kernel
  obtain ⟨fails, spares⟩ :=
    @stops_at_failure ⟨["cargo", "grcov"], ".", none, [0, 3], files⟩ _ _ asked
  obtain ⟨lacks, -⟩ := @stops_at_failure ⟨["grcov"], ".", none, [], files⟩ _ _ asked
  obtain ⟨passes, cleans⟩ :=
    @stops_at_failure ⟨["cargo", "grcov"], ".", none, [], files⟩ _ _ asked
  have regular : ∀ path, ¬ coveragePath <+: path → isRawData path = true →
      files.get? path ≠ some .directory := by
    intro path _ raw found
    have plain : ∀ entry ∈ files.entries, isRawData entry.1 = true → entry.2 ≠ .directory := by
      decide +kernel
    exact plain _ (FileTree.mem_of_get? found) raw rfl
  refine ⟨?_, ?_, ?_, ?_, ?_, ?_⟩
  · have second := (fails.started_iff [_, _, _, _] _ _ rfl).mpr (by decide +kernel)
    exact Nat.le_antisymm fails.started.length_le second.length_le
  · intro succeeded
    exact absurd (fails.code_eq_zero_iff.mp succeeded).1 (by decide +kernel)
  · exact ((spares false rfl).kept (fun covers => absurd covers.2 (by decide +kernel))
      _ _ (by decide)).mpr (by decide +kernel)
  · have first := (lacks.started_iff [_, _] _ _ rfl).not.mpr (by decide +kernel)
    cases started : lacking.commands with
    | nil => rfl
    | cons command rest =>
      obtain ⟨rfl, -⟩ := List.cons_prefix_cons.mp (started ▸ lacks.started)
      refine absurd ?_ first
      exact ⟨rest, started.symm⟩
  · exact passes.code_eq_zero_iff.mpr (by decide +kernel)
  · exact (cleans false rfl).cleaned ⟨by decide +kernel, by decide +kernel⟩ regular _
      (by decide)

end Oberon.Tasks
