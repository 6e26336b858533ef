import Oberon.Proofs.FileTrees
import Oberon.Tasks.Run

/-!
# Runs of tasks

An action either starts a program or works on the files, `Action.operation`, and then prints
`Action.text`.  There are five ways in which it can end (`Action.Ends`).

A run performs actions one after the other up to the first that fails.  It succeeds exactly if all
programs do (`AllSucceed`) and the work on the files does not fail (`FilesWork`), which both are
told by what the run starts from (`forM_perform_iff`).  Whatever becomes of it, the programs that it
starts are the first ones of its actions (`commands_forM_perform`).
-/

namespace Oberon.Tasks

section Lists

variable
  {ε σ α : Type}
  {operation : α → EStateM ε σ PUnit}

/-- Once some operations have succeeded, the others go on from where they have led to. -/
theorem forM_append_of_ok
    {front : List α}
    {state middle : σ}
    (done : front.forM operation state = .ok () middle)
    (back : List α) :
    (front ++ back).forM operation state = back.forM operation middle := by
  induction front generalizing state with
  | nil =>
    cases done
    rfl
  | cons item rest ih =>
    cases first : operation item state with
    | error error after => cases (forM_cons_of_error first rest).symm.trans done
    | ok value reached =>
      refine (forM_cons_of_ok first _).trans (ih ?_)
      exact (forM_cons_of_ok first rest).symm.trans done

/-- Once one operation has failed, the others are not performed. -/
theorem forM_append_of_error
    {front : List α}
    {state after : σ}
    {error : ε}
    (failed : front.forM operation state = .error error after)
    (back : List α) :
    (front ++ back).forM operation state = .error error after := by
  induction front generalizing state with
  | nil => cases failed
  | cons item rest ih =>
    cases first : operation item state with
    | error other reached =>
      rw [forM_cons_of_error first] at failed
      exact (forM_cons_of_error first _).trans failed
    | ok value reached =>
      rw [forM_cons_of_ok first] at failed
      exact (forM_cons_of_ok first _).trans (ih failed)

/-- Where an operation has failed, it has not succeeded. -/
theorem not_exists_ok
    {error : ε}
    {state : σ} :
    ¬ ∃ after, EStateM.Result.error error state = .ok () after := by
  rintro ⟨after, ⟨⟩⟩

end Lists

namespace Run

variable
  {α : Type}
  {operation : FileOperation α}
  {world : World}
  {files : FileTree}

theorem onFiles_of_ok
    {value : α}
    (done : operation world.files = .ok value files) :
    onFiles operation world = .ok value { world with files } := by
  rw [onFiles, done]

theorem onFiles_of_error
    {error : FileError}
    (failed : operation world.files = .error error files) :
    onFiles operation world = .error (.files error) { world with files } := by
  rw [onFiles, failed]

/-- Working on the files item by item is working on the files. -/
theorem onFiles_forM
    (operation : α → FileOperation PUnit)
    (items : List α)
    (world : World) :
    items.forM (fun item => onFiles (operation item)) world =
      onFiles (items.forM operation) world := by
  induction items generalizing world with
  | nil => rfl
  | cons item rest ih =>
    cases first : operation item world.files with
    | error error files =>
      rw [onFiles_of_error (forM_cons_of_error first rest)]
      refine forM_cons_of_error ?_ rest
      exact onFiles_of_error first
    | ok value files =>
      have others := ih { world with files }
      rw [onFiles] at others ⊢
      rw [forM_cons_of_ok first]
      refine Eq.trans (forM_cons_of_ok ?_ rest) others
      exact onFiles_of_ok first

end Run

/-- Where the test modules are. -/
def modulesPath : Path := ["lang", "tests", "modules"]

/-- True of the test modules. -/
def isModule : Path → Bool := inDirectory modulesPath ".Mod"

namespace Action

/-- What an action does to the files. -/
def operation : Action → FileOperation Unit
  | say _ => pure ()
  | start _ => pure ()
  | remake path => remakeDirectory path
  | makeCorpus corpus =>
    match corpus.names with
    | some names => makeDirectories names
    | none => pure ()
  | seed corpus => fun tree => (tree.select isModule).forM (copyInto corpus.place) tree
  | removeAll extension => fun tree => (tree.select (anywhere extension)).forM removeFile tree

/-- What an action prints that has found some files and has succeeded. -/
def text (files : FileTree) : Action → String
  | say line => line ++ "\n"
  | seed corpus =>
    "** seeded " ++ corpus.text ++ " with " ++ toString (files.select isModule).length ++
      " modules." ++ "\n"
  | _ => ""

variable
  {programs : List String}
  {world after : World}

theorem text_say
    (files : FileTree)
    (line : String) :
    text files (say line) = line ++ "\n" :=
  rfl

theorem text_seed
    (files : FileTree)
    (corpus : Corpus) :
    text files (seed corpus) =
      "** seeded " ++ corpus.text ++ " with " ++ toString (files.select isModule).length ++
        " modules." ++ "\n" :=
  rfl

/-- An action that starts no program works on the files, and prints if it succeeds. -/
theorem perform_of_idle
    {action : Action}
    (idle : action.command? = none)
    (programs : List String)
    (world : World) :
    (∀ files, action.operation world.files = .ok () files →
      action.perform programs world =
        .ok () { world with files, output := world.output ++ action.text world.files }) ∧
    ∀ error files, action.operation world.files = .error error files →
      action.perform programs world = .error (.files error) { world with files } := by
  cases action with
  | say line =>
    refine ⟨?_, fun error files failed => ?_⟩
    · rintro files ⟨⟩
      rw [text_say, ← String.append_assoc]
      rfl
    · cases failed
  | start command => cases idle
  | remake path =>
    have silent : world.output ++ text world.files (remake path) = world.output :=
      String.append_empty
    rw [silent]
    exact ⟨fun _ done => Run.onFiles_of_ok done, fun _ _ failed => Run.onFiles_of_error failed⟩
  | makeCorpus corpus =>
    have silent : world.output ++ text world.files (makeCorpus corpus) = world.output :=
      String.append_empty
    rw [silent]
    simp only [perform, operation]
    cases corpus.names with
    | none =>
      refine ⟨?_, fun error files failed => ?_⟩
      · rintro files ⟨⟩
        rfl
      · cases failed
    | some names =>
      exact ⟨fun _ done => Run.onFiles_of_ok done, fun _ _ failed => Run.onFiles_of_error failed⟩
  | seed corpus =>
    have copied := Run.onFiles_forM (copyInto corpus.place) (world.files.select isModule) world
    refine ⟨fun files done => ?_, fun error files failed => ?_⟩
    · refine (bind_of_ok (copied.trans (Run.onFiles_of_ok done)) _).trans ?_
      rw [text_seed, ← String.append_assoc]
      rfl
    · exact bind_of_error (copied.trans (Run.onFiles_of_error failed)) _
  | removeAll extension =>
    have silent : world.output ++ text world.files (removeAll extension) = world.output :=
      String.append_empty
    rw [silent]
    have removed := Run.onFiles_forM removeFile (world.files.select (anywhere extension)) world
    exact ⟨fun _ done => removed.trans (Run.onFiles_of_ok done),
      fun _ _ failed => removed.trans (Run.onFiles_of_error failed)⟩

/-- The ways in which an action can end. -/
inductive Ends (programs : List String) (world : World) :
    Action → EStateM.Result Failure World Unit → Prop
  | worked
      {action : Action}
      {files : FileTree}
      (idle : action.command? = none)
      (done : action.operation world.files = .ok () files) :
      Ends programs world action
        (.ok () { world with files, output := world.output ++ action.text world.files })
  | stuck
      {action : Action}
      {error : FileError}
      {files : FileTree}
      (idle : action.command? = none)
      (failed : action.operation world.files = .error error files) :
      Ends programs world action (.error (.files error) { world with files })
  | ran
      {command : Command}
      (found : command.program ∈ programs)
      (clean : world.exits.headD 0 = 0) :
      Ends programs world (start command)
        (.ok () { world with exits := world.exits.tail, commands := world.commands ++ [command] })
  | exited
      {command : Command}
      (found : command.program ∈ programs)
      (code : world.exits.headD 0 ≠ 0) :
      Ends programs world (start command)
        (.error (.exited command (world.exits.headD 0))
          { world with exits := world.exits.tail, commands := world.commands ++ [command] })
  | missing
      {command : Command}
      (absent : command.program ∉ programs) :
      Ends programs world (start command) (.error .noProgram world)

theorem ends_start
    (programs : List String)
    (command : Command)
    (world : World) :
    Ends programs world (start command) ((start command).perform programs world) := by
  by_cases found : command.program ∈ programs
  · rw [perform, Run.start, if_pos found]
    change Ends programs world (start command) ((unless world.exits.headD 0 = 0 do
      throw (.exited command (world.exits.headD 0)) : Run Unit) _)
    by_cases clean : world.exits.headD 0 = 0
    · rw [if_pos clean]
      exact .ran found clean
    · rw [if_neg clean]
      exact .exited found clean
  · rw [perform, Run.start, if_neg found]
    exact .missing found

/-- Every action ends in one of these ways. -/
theorem ends_perform
    (programs : List String)
    (action : Action)
    (world : World) :
    Ends programs world action (action.perform programs world) := by
  cases starts : action.command? with
  | none =>
    obtain ⟨success, failure⟩ := perform_of_idle starts programs world
    cases worked : action.operation world.files with
    | ok _ files =>
      rw [success files worked]
      exact .worked starts worked
    | error error files =>
      rw [failure error files worked]
      exact .stuck starts worked
  | some command =>
    obtain rfl : action = start command := by
      cases action <;> cases starts
      rfl
    exact ends_start programs command world

/-- An action changes the files as its operation does, whether it succeeds or not. -/
theorem files_perform
    (programs : List String)
    (action : Action)
    (world : World) :
    (stateAfter (action.perform programs) world).files =
      stateAfter action.operation world.files := by
  have ends := ends_perform programs action world
  rw [stateAfter, stateAfter]
  generalize action.perform programs world = result at ends ⊢
  cases ends with
  | worked _ done => rw [done]
  | stuck _ failed => rw [failed]
  | ran | exited | missing => rfl

/-- What has been printed stays printed. -/
theorem output_perform
    (programs : List String)
    (action : Action)
    (world : World) :
    ∃ more, (stateAfter (action.perform programs) world).output = world.output ++ more := by
  have ends := ends_perform programs action world
  rw [stateAfter]
  generalize action.perform programs world = result at ends ⊢
  cases ends with
  | worked => exact ⟨_, rfl⟩
  | stuck | ran | exited | missing => exact ⟨"", String.append_empty.symm⟩

/-- What no operation of some actions destroys is there after a run of them. -/
theorem files_forM_perform
    {motive : FileTree → Prop}
    {actions : List Action}
    (start : motive world.files)
    (each : ∀ action ∈ actions, ∀ tree, motive tree → motive (stateAfter action.operation tree)) :
    motive (stateAfter (actions.forM (perform programs)) world).files := by
  refine stateAfter_forM (motive := fun world : World => motive world.files) start ?_
  intro action member world reached
  rw [files_perform]
  exact each action member world.files reached

theorem performAll_eq_forM
    (programs : List String)
    (actions : List Action)
    (world : World) :
    performAll programs actions world = actions.forM (perform programs) world := by
  have same : performAll programs actions = actions.forM (perform programs) := by
    induction actions with
    | nil => rfl
    | cons action rest ih =>
      rw [performAll, ih]
      rfl
  rw [same]

end Action

open Oberon.Tasks.Action

/-- Programs exist and exit with zero, if they are started one after the other. -/
def AllSucceed (programs : List String) (exits : List UInt8) (commands : List Command) : Prop :=
  ∀ index command, commands[index]? = some command →
    command.program ∈ programs ∧ exits.getD index 0 = 0

/-- The work of some actions on the files does not fail. -/
def FilesWork (files : FileTree) (actions : List Action) : Prop :=
  ∃ after, actions.forM operation files = .ok () after

theorem allSucceed_nil (programs : List String) (exits : List UInt8) :
    AllSucceed programs exits [] :=
  nofun

theorem allSucceed_cons
    {programs : List String}
    {exits : List UInt8}
    {command : Command}
    {rest : List Command} :
    AllSucceed programs exits (command :: rest) ↔
      (command.program ∈ programs ∧ exits.headD 0 = 0) ∧ AllSucceed programs exits.tail rest := by
  constructor
  · intro all
    refine ⟨?_, fun index other there => ?_⟩
    · rw [List.headD_eq_head?_getD, List.head?_eq_getElem?, ← List.getD_eq_getElem?_getD]
      exact all 0 command rfl
    · rw [List.getD_eq_getElem?_getD, List.getElem?_tail, ← List.getD_eq_getElem?_getD]
      exact all (index + 1) other there
  · rintro ⟨first, others⟩ index other there
    cases index with
    | zero =>
      cases there
      rwa [List.headD_eq_head?_getD, List.head?_eq_getElem?, ← List.getD_eq_getElem?_getD] at first
    | succ index =>
      have later := others index other there
      rwa [List.getD_eq_getElem?_getD, List.getElem?_tail, ← List.getD_eq_getElem?_getD] at later

instance decidableAllSucceed (programs : List String) :
    (exits : List UInt8) → (commands : List Command) →
      Decidable (AllSucceed programs exits commands)
  | exits, [] => isTrue (allSucceed_nil programs exits)
  | exits, _ :: rest =>
    have := decidableAllSucceed programs exits.tail rest
    decidable_of_iff' _ allSucceed_cons

instance (files : FileTree) (actions : List Action) : Decidable (FilesWork files actions) :=
  match worked : actions.forM operation files with
  | .ok _ after => isTrue ⟨after, worked⟩
  | .error _ _ => isFalse (by rw [FilesWork, worked]; exact not_exists_ok)

section FilesWork

variable
  {action : Action}
  {rest : List Action}
  {files : FileTree}

theorem filesWork_nil (files : FileTree) : FilesWork files [] := ⟨files, rfl⟩

theorem filesWork_cons_of_ok
    {after : FileTree}
    (done : action.operation files = .ok () after) :
    FilesWork files (action :: rest) ↔ FilesWork after rest := by
  rw [FilesWork, FilesWork, forM_cons_of_ok done]

theorem not_filesWork_cons
    {error : FileError}
    {after : FileTree}
    (failed : action.operation files = .error error after) :
    ¬ FilesWork files (action :: rest) := by
  rintro ⟨last, done⟩
  cases (forM_cons_of_error failed rest).symm.trans done

/-- Actions that do nothing to the files do not fail at it. -/
theorem filesWork_of_quiet
    {actions : List Action}
    (quiet : ∀ action ∈ actions, action.operation = pure ())
    (files : FileTree) :
    FilesWork files actions := by
  induction actions with
  | nil => exact filesWork_nil files
  | cons action rest ih =>
    rw [List.forall_mem_cons] at quiet
    exact (filesWork_cons_of_ok (congrFun quiet.1 files)).mpr (ih quiet.2)

end FilesWork

section Runs

variable
  {programs : List String}
  {world : World}

/-- A run succeeds exactly if all of its programs do and its work on the files does not fail. -/
theorem forM_perform_iff
    (programs : List String)
    (actions : List Action)
    (world : World) :
    (∃ after, actions.forM (perform programs) world = .ok () after) ↔
      AllSucceed programs world.exits (actions.filterMap command?) ∧
        FilesWork world.files actions := by
  induction actions generalizing world with
  | nil => exact iff_of_true ⟨world, rfl⟩ ⟨allSucceed_nil _ _, filesWork_nil _⟩
  | cons action rest ih =>
    have ends := ends_perform programs action world
    cases first : action.perform programs world with
    | ok value middle =>
      rw [first] at ends
      rw [forM_cons_of_ok first, ih middle]
      cases ends with
      | worked idle done => rw [filesWork_cons_of_ok done, List.filterMap_cons_none idle]
      | @ran command found clean =>
        have quiet : (start command).operation world.files = .ok () world.files := rfl
        have starts : (start command).command? = some command := rfl
        have runs : command.program ∈ programs ∧ world.exits.headD 0 = 0 := ⟨found, clean⟩
        rw [filesWork_cons_of_ok quiet, List.filterMap_cons_some starts, allSucceed_cons,
          and_iff_right runs]
    | error failure middle =>
      rw [first] at ends
      rw [forM_cons_of_error first]
      refine iff_of_false not_exists_ok ?_
      rintro ⟨all, works⟩
      cases ends with
      | stuck _ failed => exact not_filesWork_cons failed works
      | exited _ code => exact code (allSucceed_cons.mp all).1.2
      | missing absent => exact absent (allSucceed_cons.mp all).1.1

/-- The programs that a run starts are the first ones of its actions, and all of them if it
succeeds. -/
theorem commands_forM_perform
    (programs : List String)
    (actions : List Action)
    (world : World) :
    ∃ started, (stateAfter (actions.forM (perform programs)) world).commands =
        world.commands ++ started ∧ started <+: actions.filterMap command? ∧
      ((∃ after, actions.forM (perform programs) world = .ok () after) →
        started = actions.filterMap command?) := by
  induction actions generalizing world with
  | nil => exact ⟨[], (List.append_nil _).symm, List.nil_prefix, fun _ => rfl⟩
  | cons action rest ih =>
    have ends := ends_perform programs action world
    cases first : action.perform programs world with
    | ok value middle =>
      obtain ⟨started, commands, front, all⟩ := ih middle
      rw [first] at ends
      rw [stateAfter] at commands
      rw [stateAfter, forM_cons_of_ok first, commands]
      cases ends with
      | worked idle =>
        rw [List.filterMap_cons_none idle]
        exact ⟨started, rfl, front, all⟩
      | @ran command =>
        have starts : (start command).command? = some command := rfl
        rw [List.filterMap_cons_some starts]
        refine ⟨command :: started, List.append_assoc _ _ _, ?_, fun done => ?_⟩
        · exact List.cons_prefix_cons.mpr ⟨rfl, front⟩
        · rw [all done]
    | error failure middle =>
      rw [first] at ends
      rw [stateAfter, forM_cons_of_error first]
      cases ends with
      | stuck | missing =>
        exact ⟨[], (List.append_nil _).symm, List.nil_prefix, fun done => absurd done not_exists_ok⟩
      | @exited command =>
        have starts : (start command).command? = some command := rfl
        rw [List.filterMap_cons_some starts]
        refine ⟨[command], rfl, ?_, fun done => absurd done not_exists_ok⟩
        exact List.cons_prefix_cons.mpr ⟨rfl, List.nil_prefix⟩

/-- A run that begins with a program starts it exactly if it exists. -/
theorem started_forM_perform_cons_iff
    (command : Command)
    (rest : List Action)
    (world : World) :
    world.commands ++ [command] <+:
        (stateAfter ((start command :: rest).forM (perform programs)) world).commands ↔
      command.program ∈ programs := by
  have ends := ends_start programs command world
  cases first : (start command).perform programs world with
  | ok value after =>
    obtain ⟨more, others, -⟩ := commands_forM_perform programs rest after
    rw [first] at ends
    rw [stateAfter] at others
    rw [stateAfter, forM_cons_of_ok first, others]
    cases ends with
    | worked idle => cases idle
    | ran found => exact iff_of_true (List.prefix_append _ _) found
  | error failure after =>
    rw [first] at ends
    rw [stateAfter, forM_cons_of_error first]
    cases ends with
    | stuck idle => cases idle
    | exited found => exact iff_of_true List.prefix_rfl found
    | missing absent =>
      refine iff_of_false (fun longer => ?_) absent
      have bound := longer.length_le
      rw [List.length_append, List.length_singleton] at bound
      exact Nat.not_succ_le_self _ bound

/-- A run has started a program and those before it exactly if everything before it succeeds and it
exists. -/
theorem started_forM_perform_iff
    (fresh : world.commands = [])
    (before : List Action)
    (command : Command)
    (rest : List Action) :
    before.filterMap command? ++ [command] <+:
        (stateAfter ((before ++ start command :: rest).forM (perform programs)) world).commands ↔
      AllSucceed programs world.exits (before.filterMap command?) ∧
        FilesWork world.files before ∧ command.program ∈ programs := by
  obtain ⟨started, commands, front, all⟩ := commands_forM_perform programs before world
  rw [← and_assoc, ← forM_perform_iff programs before world]
  rw [fresh, List.nil_append, stateAfter] at commands
  cases ran : before.forM (perform programs) world with
  | error failure middle =>
    rw [ran] at commands
    rw [stateAfter, forM_append_of_error ran, commands]
    refine iff_of_false (fun longer => ?_) fun succeeded => not_exists_ok succeeded.1
    -- not even all the programs before it have been started
    have bound := Nat.le_trans longer.length_le front.length_le
    rw [List.length_append, List.length_singleton] at bound
    exact Nat.not_succ_le_self _ bound
  | ok value middle =>
    rw [ran] at commands
    obtain rfl := all ⟨middle, ran⟩
    rw [and_iff_right ⟨middle, rfl⟩, stateAfter, forM_append_of_ok ran, ← commands]
    exact started_forM_perform_cons_iff command rest middle

end Runs

namespace Surroundings

/-- The run of a task. -/
def run (surroundings : Surroundings) (task : Task) : Run Unit :=
  (surroundings.actions task).forM (Action.perform surroundings.programs)

/-- The world that the run of a task leaves. -/
def lastWorld (surroundings : Surroundings) (task : Task) : World :=
  stateAfter (surroundings.run task) surroundings.world

end Surroundings

/-- The outcome of a task is what its run leaves, with zero as the exit code if it has succeeded. -/
theorem Outcome.ofTask_eq
    (surroundings : Surroundings)
    (task : Task) :
    (ofTask surroundings task).files = (surroundings.lastWorld task).files ∧
      (ofTask surroundings task).output = (surroundings.lastWorld task).output ∧
      (ofTask surroundings task).commands = (surroundings.lastWorld task).commands ∧
      ((ofTask surroundings task).code = 0 ↔
        ∃ after, surroundings.run task surroundings.world = .ok () after) := by
  have same := performAll_eq_forM surroundings.programs (surroundings.actions task)
    surroundings.world
  simp only [ofTask, same, Surroundings.lastWorld, Surroundings.run, stateAfter]
  cases (surroundings.actions task).forM (perform surroundings.programs) surroundings.world with
  | ok value after => simp
  | error failure after => simp

end Oberon.Tasks
