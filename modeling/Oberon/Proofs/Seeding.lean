import Mathlib.Data.List.Infix
import Oberon.Proofs.TaskRuns

/-!
# Seeding a corpus

The fuzzing task makes the directory of a corpus and copies the test modules into it that it lacks.
A copy is made only where nothing is, so that every file stays as it was, and nothing but the copies
is added (`FileTree.Copied`).  Where all copies are there, nothing is done
(`copyFiles_of_filled`), so that a second run changes nothing (`Outcome.seeding_keeps_files`).
-/

namespace Oberon.Tasks

namespace FileTree

variable
  {tree middle after : FileTree}
  {directory : Path}

/-- A tree has the entries of another one, and besides them copies of some of its entries in a
directory, where there was no entry of their name. -/
structure Copied (tree : FileTree) (directory : Path) (paths : List Path) (after : FileTree) :
    Prop where
  kept : ∀ other entry, tree.get? other = some entry → after.get? other = some entry
  added : ∀ other entry, after.get? other = some entry →
    tree.get? other = some entry ∨ tree.get? other = none ∧
      ∃ path ∈ paths, other = directory ++ path.getLast?.toList ∧ tree.get? path = some entry
  filled : ∀ path ∈ paths, after.get? (directory ++ path.getLast?.toList) ≠ none

namespace Copied

theorem nil (tree : FileTree) (directory : Path) : Copied tree directory [] tree :=
  ⟨fun _ _ there => there, fun _ _ there => .inl there, List.forall_mem_nil _⟩

/-- What was nowhere is a copy or is still nowhere. -/
theorem get?_eq_none
    {paths : List Path}
    {other : Path}
    (h : Copied tree directory paths after)
    (free : after.get? other = none) :
    tree.get? other = none := by
  cases there : tree.get? other with
  | none => rfl
  | some entry => cases free.symm.trans (h.kept other entry there)

theorem append
    {first second : List Path}
    (front : Copied tree directory first middle)
    (back : Copied middle directory second after)
    (there : ∀ path ∈ second, tree.get? path ≠ none) :
    Copied tree directory (first ++ second) after := by
  refine ⟨?_, ?_, ?_⟩
  · intro other entry found
    exact back.kept other entry (front.kept other entry found)
  · intro other entry found
    rcases back.added other entry found with before | ⟨free, path, member, same, source⟩
    · rcases front.added other entry before with earlier | ⟨free, path, member, copied⟩
      · exact .inl earlier
      · exact .inr ⟨free, path, List.mem_append_left _ member, copied⟩
    · refine .inr ⟨front.get?_eq_none free, path, List.mem_append_right _ member, same, ?_⟩
      obtain ⟨original, found⟩ := Option.ne_none_iff_exists'.mp (there path member)
      rwa [← source, front.kept path original found]
  · intro path member
    rcases List.mem_append.mp member with earlier | later
    · obtain ⟨entry, found⟩ := Option.ne_none_iff_exists'.mp (front.filled path earlier)
      rw [back.kept _ entry found]
      exact nofun
    · exact back.filled path later

end Copied

end FileTree

section Copying

variable
  {tree : FileTree}
  {directory path : Path}
  {content : String}

/-- A file is copied unless there is an entry of its name. -/
theorem copyInto_eq
    (there : tree.get? path = some (.file content))
    (directory : Path) :
    copyInto (some directory) path tree =
      .ok () (if tree.get? (directory ++ path.getLast?.toList) = none then
        tree.put (directory ++ path.getLast?.toList) (.file content) else tree) := by
  rw [copyInto, get_bind]
  simp only [there]
  cases tree.get? (directory ++ path.getLast?.toList) <;> rfl

theorem exists_copyInto
    (there : tree.get? path = some (.file content))
    (directory : Path) :
    ∃ after, copyInto (some directory) path tree = .ok () after ∧
      tree.Copied directory [path] after := by
  refine ⟨_, copyInto_eq there directory, ?_⟩
  split
  · rename_i free
    refine ⟨?_, ?_, ?_⟩
    · intro other entry found
      simp [found]
    · intro other entry found
      rw [FileTree.get?_put] at found
      cases before : tree.get? other with
      | some old => exact .inl (by simpa [before] using found)
      | none =>
        rw [before, Option.none_or] at found
        split at found
        · rename_i same
          exact .inr ⟨rfl, path, List.mem_singleton_self _, same, by rw [there, ← found]⟩
        · cases found
    · intro other member
      rw [List.mem_singleton.mp member]
      simp [free]
  · rename_i taken
    refine ⟨fun _ _ found => found, fun _ _ found => .inl found, ?_⟩
    intro other member
    rwa [List.mem_singleton.mp member]

/-- Files can be copied. -/
theorem exists_copyFiles
    {paths : List Path}
    (files : ∀ path ∈ paths, ∃ content, tree.get? path = some (.file content))
    (directory : Path) :
    ∃ after, paths.forM (copyInto (some directory)) tree = .ok () after ∧
      tree.Copied directory paths after := by
  induction paths generalizing tree with
  | nil => exact ⟨tree, rfl, .nil tree directory⟩
  | cons path rest ih =>
    obtain ⟨content, there⟩ := files path List.mem_cons_self
    obtain ⟨middle, first, front⟩ := exists_copyInto there directory
    have others : ∀ other ∈ rest, ∃ content, tree.get? other = some (.file content) :=
      fun other member => files other (List.mem_cons_of_mem _ member)
    have still : ∀ other ∈ rest, ∃ content, middle.get? other = some (.file content) := by
      intro other member
      obtain ⟨content, found⟩ := others other member
      exact ⟨content, front.kept other _ found⟩
    obtain ⟨after, done, back⟩ := ih still
    refine ⟨after, (forM_cons_of_ok first rest).trans done, front.append back ?_⟩
    intro other member
    obtain ⟨content, found⟩ := others other member
    rw [found]
    exact nofun

/-- Files that have copies are not copied again. -/
theorem copyFiles_of_filled
    {paths : List Path}
    (files : ∀ path ∈ paths, ∃ content, tree.get? path = some (.file content))
    (filled : ∀ path ∈ paths, tree.get? (directory ++ path.getLast?.toList) ≠ none) :
    paths.forM (copyInto (some directory)) tree = .ok () tree := by
  induction paths with
  | nil => rfl
  | cons path rest ih =>
    rw [List.forall_mem_cons] at files filled
    obtain ⟨⟨content, there⟩, others⟩ := files
    have first := copyInto_eq there directory
    rw [if_neg filled.1] at first
    exact (forM_cons_of_ok first rest).trans (ih others filled.2)

end Copying

/-- A name that is nothing else. -/
structure FileName (name : String) : Prop where
  filled : name ≠ ""
  single : '/' ∉ name.toList
  notHere : name ≠ "."
  notAbove : name ≠ ".."

/-- Where the corpus of a target is. -/
def corpusPath (target : String) : Path := ["fuzz", "corpus", target]

/-- A test module is a file with the right extension in the right directory. -/
theorem isModule_iff
    {path : Path} :
    isModule path = true ↔
      ∃ name, path = modulesPath ++ [name] ∧ hasExtension ".Mod" name = true := by
  rw [isModule, inDirectory, Bool.and_eq_true, beq_iff_eq]
  cases path using List.reverseRecOn with
  | nil => simp [modulesPath]
  | append_singleton front name =>
    rw [List.dropLast_concat, List.getLast?_concat]
    constructor
    · rintro ⟨rfl, extended⟩
      exact ⟨name, rfl, extended⟩
    · rintro ⟨other, same, extended⟩
      obtain ⟨rfl, ⟨⟩⟩ := List.append_inj' same rfl
      exact ⟨rfl, extended⟩

section Corpora

variable
  {target : String}
  {path : Path}

/-- The test modules are not on the way to a corpus. -/
theorem not_prefix_of_isModule
    (module : isModule path = true) :
    ¬ path <+: corpusPath target := by
  obtain ⟨name, rfl, -⟩ := isModule_iff.mp module
  simp [modulesPath, corpusPath, List.cons_prefix_cons]

/-- The test modules are in no corpus. -/
theorem not_corpus_of_isModule
    (module : isModule path = true)
    (names : List String) :
    path ≠ corpusPath target ++ names := by
  obtain ⟨name, rfl, -⟩ := isModule_iff.mp module
  simp [modulesPath, corpusPath]

theorem FileName.ordinary
    (named : FileName target)
    (short : target.utf8ByteSize ≤ maxNameSize) :
    ∀ step ∈ corpusPath target, Ordinary step := by
  simp only [corpusPath, List.forall_mem_cons]
  exact ⟨⟨by decide, by decide, by decide⟩, ⟨by decide, by decide, by decide⟩,
    ⟨named.notHere, named.notAbove, short⟩, List.forall_mem_nil _⟩

/-- A target with a plain name has its corpus in the directory of that name. -/
theorem FileName.corpus
    (named : FileName target)
    (root : String) :
    Corpus.ofTarget root target =
      ⟨textBelow root (corpusPath target), some (corpusPath target)⟩ := by
  have relative : target.toList.head? ≠ some '/' := fun first =>
    named.single (List.mem_of_mem_head? first)
  rw [Corpus.ofTarget, if_neg relative, List.splitOn_eq_singleton named.single]
  simp [named.filled, corpusPath]

theorem FileName.place
    (named : FileName target)
    (root : String) :
    (Corpus.ofTarget root target).place = some (corpusPath target) := by
  rw [named.corpus, Corpus.place]
  simp [corpusPath, follow, named.notHere, named.notAbove]

/-- Making the directory of a corpus adds no test module. -/
theorem countP_makeReversed
    (ordinary : ∀ step ∈ corpusPath target, Ordinary step)
    (tree : FileTree) :
    (stateAfter (makeReversed (corpusPath target).reverse) tree).entries.countP
        (fun entry => isModule entry.1) =
      tree.entries.countP fun entry => isModule entry.1 := by
  refine makeReversed_induction ordinary (motive := fun after : FileTree =>
    after.entries.countP (fun entry => isModule entry.1) =
      tree.entries.countP fun entry => isModule entry.1) rfl ?_
  intro front before middle free reached
  have other : ¬ isModule front = true := fun module => not_prefix_of_isModule module before
  rw [FileTree.put, List.countP_append, reached, List.countP_singleton, if_neg other, Nat.add_zero]

end Corpora

/-- What the fuzzing task does to the files before it starts the fuzzer: the directory of the corpus
is made, and then it is filled. -/
def Seeded (tree : FileTree) (target : String) (after : FileTree) : Prop :=
  ∃ made : FileTree, tree.Furnished (corpusPath target) made ∧
    made.Stands (corpusPath target) ∧
      made.Copied (corpusPath target) (made.select isModule) after

namespace Seeded

variable
  {tree after : FileTree}
  {target : String}

/-- The files are those that there were, and the copies of the modules that the corpus lacked. -/
theorem file_iff
    (h : Seeded tree target after)
    (path : Path)
    (content : String) :
    after.get? path = some (.file content) ↔
      tree.get? path = some (.file content) ∨
        tree.get? path = none ∧ ∃ name, path = corpusPath target ++ [name] ∧
          hasExtension ".Mod" name = true ∧
            tree.get? (modulesPath ++ [name]) = some (.file content) := by
  obtain ⟨made, furnished, -, copied⟩ := h
  constructor
  · intro found
    rcases copied.added path _ found with before | ⟨free, source, member, same, original⟩
    · exact .inl ((furnished.file_iff _ _).mp before)
    · obtain ⟨-, module⟩ := FileTree.mem_select_iff.mp member
      obtain ⟨name, rfl, extended⟩ := isModule_iff.mp module
      rw [List.getLast?_concat, Option.toList_some] at same
      refine .inr ⟨?_, name, same, extended, (furnished.file_iff _ _).mp original⟩
      rcases furnished path with unchanged | ⟨-, before, -⟩
      · rw [← unchanged, free]
      · exact before
  · rintro (before | ⟨free, name, rfl, extended, original⟩)
    · exact copied.kept _ _ ((furnished.file_iff _ _).mpr before)
    · have module := isModule_iff.mpr ⟨name, rfl, extended⟩
      have source := (furnished.file_iff _ _).mpr original
      have member : modulesPath ++ [name] ∈ made.select isModule :=
        FileTree.mem_select_iff.mpr ⟨by rw [source]; exact nofun, module⟩
      have lacking : made.get? (corpusPath target ++ [name]) = none := by
        rw [furnished.get?_eq ?_, free]
        intro longer
        have bound := longer.length_le
        rw [List.length_append, List.length_singleton] at bound
        omega
      have filled := copied.filled _ member
      rw [List.getLast?_concat, Option.toList_some] at filled
      obtain ⟨entry, found⟩ := Option.ne_none_iff_exists'.mp filled
      rcases copied.added _ _ found with before | ⟨-, other, chosen, same, taken⟩
      · cases lacking.symm.trans before
      · obtain ⟨-, module⟩ := FileTree.mem_select_iff.mp chosen
        obtain ⟨last, rfl, -⟩ := isModule_iff.mp module
        rw [List.getLast?_concat, Option.toList_some] at same
        cases List.append_cancel_left same
        rw [found, ← taken, source]

/-- The corpus is a directory. -/
theorem get?_corpus
    (h : Seeded tree target after) :
    after.get? (corpusPath target) = some .directory := by
  obtain ⟨made, -, stands, copied⟩ := h
  exact copied.kept _ _ (FileTree.get?_eq_of_isDirectory (stands _ List.prefix_rfl) nofun)

/-- The corpus has an entry for every test module. -/
theorem get?_corpus_ne_none
    {name : String}
    (h : Seeded tree target after)
    (extended : hasExtension ".Mod" name = true)
    (there : tree.get? (modulesPath ++ [name]) ≠ none) :
    after.get? (corpusPath target ++ [name]) ≠ none := by
  obtain ⟨made, furnished, -, copied⟩ := h
  have module := isModule_iff.mpr ⟨name, rfl, extended⟩
  have member : modulesPath ++ [name] ∈ made.select isModule := by
    refine FileTree.mem_select_iff.mpr ⟨?_, module⟩
    rwa [furnished.get?_eq (not_prefix_of_isModule module)]
  have filled := copied.filled _ member
  rwa [List.getLast?_concat, Option.toList_some] at filled

end Seeded

section Tasks

variable
  {surroundings : Surroundings}
  {target : String}

/-- The fuzzer is started after the corpus has been seeded, with nothing left to do for the files.
-/
theorem operation_of_mem_fuzzActions
    {root : String}
    {seconds : Nat}
    {action : Action}
    (member : action ∈ (fuzzActions root target seconds).drop 2) :
    action.operation = pure () := by
  simp only [fuzzActions, List.drop_succ_cons, List.drop_zero, List.mem_cons, List.not_mem_nil,
    or_false] at member
  rcases member with rfl | rfl | rfl <;> rfl

/-- Once the corpus is seeded, no file is changed, and what is printed comes after the number of
test modules. -/
theorem lastWorld_fuzz
    {made after : FileTree}
    (first : (Action.makeCorpus (.ofTarget surroundings.root target)).operation surroundings.files =
      .ok () made)
    (second : (Action.seed (.ofTarget surroundings.root target)).operation made = .ok () after)
    (seconds : Nat) :
    (surroundings.lastWorld (.fuzz target seconds)).files = after ∧
      ∃ more, (surroundings.lastWorld (.fuzz target seconds)).output =
        (Action.seed (.ofTarget surroundings.root target)).text made ++ more := by
  have making : (Action.makeCorpus (.ofTarget surroundings.root target)).command? = none := rfl
  have makes :=
    (Action.perform_of_idle making surroundings.programs surroundings.world).1 made first
  have filling : (Action.seed (.ofTarget surroundings.root target)).command? = none := rfl
  have seeds := (Action.perform_of_idle filling surroundings.programs
    { surroundings.world with files := made, output := "" }).1 after second
  have run : surroundings.run (.fuzz target seconds) surroundings.world =
      ((fuzzActions surroundings.root target seconds).drop 2).forM
        (Action.perform surroundings.programs) _ :=
    (forM_cons_of_ok makes _).trans (forM_cons_of_ok seeds _)
  rw [Surroundings.lastWorld, stateAfter, run]
  refine stateAfter_forM (motive := fun world : World => world.files = after ∧
    ∃ more, world.output =
      (Action.seed (.ofTarget surroundings.root target)).text made ++ more) ?_ ?_
  · refine ⟨rfl, "", ?_⟩
    rw [String.append_empty]
    exact String.empty_append
  · rintro action member world ⟨files, more, output⟩
    refine ⟨?_, ?_⟩
    · rw [Action.files_perform, operation_of_mem_fuzzActions member, files]
      rfl
    · obtain ⟨further, printed⟩ := Action.output_perform surroundings.programs action world
      exact ⟨more ++ further, by rw [printed, output, String.append_assoc]⟩

/-- A corpus is made and seeded if no file is in the way of its directory and all test modules are
files. -/
theorem exists_seeded
    (named : FileName target)
    (short : target.utf8ByteSize ≤ maxNameSize)
    (clear : surroundings.files.Clear (corpusPath target))
    (regular : ∀ path, isModule path = true → surroundings.files.get? path ≠ some .directory)
    (seconds : Nat) :
    Seeded surroundings.files target (surroundings.lastWorld (.fuzz target seconds)).files ∧
      ∃ more, (surroundings.lastWorld (.fuzz target seconds)).output =
        "** seeded " ++ textBelow surroundings.root (corpusPath target) ++ " with " ++
          toString (surroundings.files.entries.countP fun entry => isModule entry.1) ++
            " modules." ++ "\n" ++ more := by
  have ordinary := named.ordinary short
  obtain ⟨made, makes, stands⟩ := exists_makeReversed ordinary clear
  have furnished := furnished_makeReversed ordinary surroundings.files
  have counted := countP_makeReversed ordinary surroundings.files
  rw [stateAfter, makes] at furnished counted
  have files : ∀ path ∈ made.select isModule, ∃ content, made.get? path = some (.file content) := by
    intro path member
    obtain ⟨there, module⟩ := FileTree.mem_select_iff.mp member
    rw [furnished.get?_eq (not_prefix_of_isModule module)] at there ⊢
    cases found : surroundings.files.get? path with
    | none => exact absurd found there
    | some entry =>
      cases entry with
      | file content => exact ⟨content, rfl⟩
      | directory => exact absurd found (regular path module)
  obtain ⟨after, copies, copied⟩ := exists_copyFiles files (corpusPath target)
  have first : (Action.makeCorpus (.ofTarget surroundings.root target)).operation
      surroundings.files =
      .ok () made := by
    rw [Action.operation, named.corpus]
    exact (congrFun (makeDirectories_of_ordinary ordinary) _).trans makes
  have second : (Action.seed (.ofTarget surroundings.root target)).operation made =
      .ok () after := by
    rw [Action.operation, named.place]
    exact copies
  obtain ⟨last, more, printed⟩ := lastWorld_fuzz first second seconds
  refine ⟨⟨made, furnished, stands, last ▸ copied⟩, more, ?_⟩
  rw [printed, Action.text_seed, named.corpus, FileTree.length_select, counted]

/-- Where a corpus has been seeded, seeding it again changes nothing. -/
theorem Seeded.lastWorld_files_eq
    {tree : FileTree}
    (h : Seeded tree target surroundings.files)
    (named : FileName target)
    (short : target.utf8ByteSize ≤ maxNameSize)
    (regular : ∀ path, isModule path = true → tree.get? path ≠ some .directory)
    (seconds : Nat) :
    (surroundings.lastWorld (.fuzz target seconds)).files = surroundings.files := by
  obtain ⟨made, furnished, stands, copied⟩ := h
  have ordinary := named.ordinary short
  have still : surroundings.files.Stands (corpusPath target) := by
    intro front before
    by_cases root : front = []
    · rw [root]
      rfl
    · refine FileTree.isDirectory_of_get? (copied.kept front .directory ?_)
      exact FileTree.get?_eq_of_isDirectory (stands front before) root
  -- the test modules are those that there were, and all of them have copies
  have same : ∀ path entry, isModule path = true → surroundings.files.get? path = some entry →
      made.get? path = some entry ∧ tree.get? path = some entry := by
    intro path entry module found
    rcases copied.added path entry found with before | ⟨-, source, -, copy, -⟩
    · exact ⟨before, by rwa [furnished.get?_eq (not_prefix_of_isModule module)] at before⟩
    · exact absurd copy (not_corpus_of_isModule module _)
  have files : ∀ path ∈ surroundings.files.select isModule,
      ∃ content, surroundings.files.get? path = some (.file content) := by
    intro path member
    obtain ⟨there, module⟩ := FileTree.mem_select_iff.mp member
    obtain ⟨entry, found⟩ := Option.ne_none_iff_exists'.mp there
    cases entry with
    | file content => exact ⟨content, found⟩
    | directory => exact absurd (same path _ module found).2 (regular path module)
  have filled : ∀ path ∈ surroundings.files.select isModule,
      surroundings.files.get? (corpusPath target ++ path.getLast?.toList) ≠ none := by
    intro path member
    obtain ⟨there, module⟩ := FileTree.mem_select_iff.mp member
    obtain ⟨entry, found⟩ := Option.ne_none_iff_exists'.mp there
    refine copied.filled path (FileTree.mem_select_iff.mpr ⟨?_, module⟩)
    rw [(same path entry module found).1]
    exact nofun
  have first : (Action.makeCorpus (.ofTarget surroundings.root target)).operation
      surroundings.files =
      .ok () surroundings.files := by
    rw [Action.operation, named.corpus]
    exact (congrFun (makeDirectories_of_ordinary ordinary) _).trans
      (makeReversed_of_stands ordinary still)
  have second : (Action.seed (.ofTarget surroundings.root target)).operation surroundings.files =
      .ok () surroundings.files := by
    rw [Action.operation, named.place]
    exact copyFiles_of_filled files filled
  exact (lastWorld_fuzz first second seconds).1

end Tasks

/-- What the fuzzing task has done to the files of a project when it ends. -/
structure Outcome.Seeds (surroundings : Surroundings) (target : String) (outcome : Outcome) :
    Prop where
  files : ∀ path content, outcome.files.get? path = some (.file content) ↔
    surroundings.files.get? path = some (.file content) ∨
      surroundings.files.get? path = none ∧ ∃ name, path = corpusPath target ++ [name] ∧
        hasExtension ".Mod" name = true ∧
          surroundings.files.get? (modulesPath ++ [name]) = some (.file content)
  corpus : outcome.files.get? (corpusPath target) = some .directory
  modules : ∀ name, hasExtension ".Mod" name = true →
    surroundings.files.get? (modulesPath ++ [name]) ≠ none →
      outcome.files.get? (corpusPath target ++ [name]) ≠ none
  counted : ∃ more, outcome.output =
    "** seeded " ++ textBelow surroundings.root (corpusPath target) ++ " with " ++
      toString (surroundings.files.entries.countP fun entry => isModule entry.1) ++ " modules." ++
        "\n" ++ more

/-- The fuzzing task seeds the corpus of its target and leaves all other files alone, and when it is
run again it changes nothing at all.  Neither depends on what becomes of the fuzzer. -/
theorem Outcome.seeding_keeps_files
    {surroundings : Surroundings}
    {arguments : List String}
    {target : String}
    {seconds : Nat}
    (asked : Task.ofCommandLine arguments = .ok (.fuzz target seconds))
    (named : FileName target)
    (short : target.utf8ByteSize ≤ maxNameSize)
    (clear : surroundings.files.Clear (corpusPath target))
    (regular : ∀ path, isModule path = true → surroundings.files.get? path ≠ some .directory) :
    Seeds surroundings target (ofCommandLine surroundings arguments) ∧
      ∀ (again : Surroundings) (arguments' : List String) (seconds' : Nat),
        again.files = (ofCommandLine surroundings arguments).files →
        Task.ofCommandLine arguments' = .ok (.fuzz target seconds') →
          (ofCommandLine again arguments').files = again.files := by
  obtain ⟨files, output, -, -⟩ := ofTask_eq surroundings (.fuzz target seconds)
  obtain ⟨seeded, more, printed⟩ := exists_seeded named short clear regular seconds
  rw [← files] at seeded
  simp only [ofCommandLine, asked]
  refine ⟨⟨seeded.file_iff, seeded.get?_corpus, fun _ => seeded.get?_corpus_ne_none, more, ?_⟩, ?_⟩
  · rw [output, printed]
  · intro again arguments' seconds' same asked'
    obtain ⟨files', -, -, -⟩ := ofTask_eq again (.fuzz target seconds')
    rw [← same] at seeded
    simp only [asked', files']
    exact seeded.lastWorld_files_eq named short regular seconds'

/-- The theorem says what becomes of a corpus that has one of two test modules, where the fuzzer
fails. -/
theorem Outcome.seeding_keeps_files_failing :
    let files := FileTree.ofFiles [
      (["lang", "tests", "modules", "A.Mod"], "MODULE A; END A."),
      (["lang", "tests", "modules", "B.Mod"], "MODULE B; END B."),
      (["fuzz", "corpus", "parse", "A.Mod"], "MODULE")]
    let outcome := ofCommandLine ⟨["cargo"], ".", none, [1], files⟩ ["fuzz", "--seconds", "5"]
    outcome.files.get? ["fuzz", "corpus", "parse", "A.Mod"] = some (.file "MODULE") ∧
      outcome.files.get? ["fuzz", "corpus", "parse", "B.Mod"] = some (.file "MODULE B; END B.") ∧
        (ofCommandLine ⟨[], ".", none, [], outcome.files⟩ ["fuzz"]).files = outcome.files := by
  intro files outcome
  have asked : Task.ofCommandLine ["fuzz", "--seconds", "5"] = .ok (.fuzz "parse" 5) := by
    decide +kernel
  have named : FileName "parse" := ⟨by decide, by decide, by decide, by decide⟩
  have clear : files.Clear (corpusPath "parse") := by
    intro front before
    rw [← List.mem_inits] at before
    revert front
    decide +kernel
  have regular : ∀ path, isModule path = true → files.get? path ≠ some .directory := by
    intro path module found
    have plain : ∀ entry ∈ files.entries, isModule entry.1 = true → entry.2 ≠ .directory := by
      decide +kernel
    exact plain _ (FileTree.mem_of_get? found) module rfl
  have short : "parse".utf8ByteSize ≤ maxNameSize := by decide
  obtain ⟨seeds, again⟩ := @seeding_keeps_files ⟨["cargo"], ".", none, [1], files⟩ _ _ _
    asked named short clear regular
  refine ⟨?_, ?_, ?_⟩
  · exact (seeds.files _ _).mpr (.inl (by decide +kernel))
  · exact (seeds.files _ _).mpr
      (.inr ⟨by decide +kernel, "B.Mod", rfl, by decide +kernel, by decide +kernel⟩)
  · exact again ⟨[], ".", none, [], outcome.files⟩ ["fuzz"] 60 rfl (by decide +kernel)

end Oberon.Tasks
