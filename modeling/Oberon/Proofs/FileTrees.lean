import Mathlib.Data.List.Induction
import Oberon.Tasks.FileTree

/-!
# What operations do to file trees

A tree is seen through the entry at each path, `FileTree.get?`, and the basic changes of a tree are
told by what they do to that view.

Making a directory changes no entry, whether it succeeds or not: it only puts directories on the way
where nothing was (`FileTree.Furnished`).  If no file is in the way it succeeds, and then all of
them are there (`exists_makeReversed`); if they all were, nothing happens
(`makeReversed_of_stands`).

An operation may fail halfway.  What holds of the state that it leaves then, `stateAfter`, is proved
by carrying a property through its steps (`stateAfter_forM`).
-/

namespace Oberon.Tasks

section State

variable
  {ε σ α β : Type}

/-- The state that an operation leaves, whether it succeeds or not. -/
def stateAfter (operation : EStateM ε σ α) (state : σ) : σ :=
  match operation state with
  | .ok _ after => after
  | .error _ after => after

theorem get_bind
    (next : σ → EStateM ε σ β)
    (state : σ) :
    (get >>= next) state = next state state :=
  rfl

theorem bind_of_ok
    {first : EStateM ε σ α}
    {value : α}
    {state middle : σ}
    (done : first state = .ok value middle)
    (next : α → EStateM ε σ β) :
    (first >>= next) state = next value middle := by
  simp only [bind, EStateM.bind, done]

theorem bind_of_error
    {first : EStateM ε σ α}
    {error : ε}
    {state after : σ}
    (failed : first state = .error error after)
    (next : α → EStateM ε σ β) :
    (first >>= next) state = .error error after := by
  simp only [bind, EStateM.bind, failed]

variable
  {motive : σ → Prop}

/-- What neither of two operations destroys is there after both. -/
theorem stateAfter_bind_of
    {first : EStateM ε σ α}
    {next : α → EStateM ε σ β}
    {state : σ}
    (before : motive (stateAfter first state))
    (during : ∀ value middle, motive middle → motive (stateAfter (next value) middle)) :
    motive (stateAfter (first >>= next) state) := by
  rw [stateAfter] at before ⊢
  cases done : first state with
  | ok value middle =>
    rw [done] at before
    rw [bind_of_ok done]
    exact during value middle before
  | error error after =>
    rw [done] at before
    rwa [bind_of_error done]

theorem forM_cons_of_ok
    {operation : α → EStateM ε σ PUnit}
    {item : α}
    {state middle : σ}
    (first : operation item state = .ok () middle)
    (rest : List α) :
    (item :: rest).forM operation state = rest.forM operation middle :=
  bind_of_ok first _

theorem forM_cons_of_error
    {operation : α → EStateM ε σ PUnit}
    {item : α}
    {state after : σ}
    {error : ε}
    (first : operation item state = .error error after)
    (rest : List α) :
    (item :: rest).forM operation state = .error error after :=
  bind_of_error first _

/-- What no operation of a list destroys is there after all of them. -/
theorem stateAfter_forM
    {operation : α → EStateM ε σ PUnit}
    {items : List α}
    {state : σ}
    (start : motive state)
    (each : ∀ item ∈ items, ∀ state, motive state →
      motive (stateAfter (operation item) state)) :
    motive (stateAfter (items.forM operation) state) := by
  induction items generalizing state with
  | nil => exact start
  | cons item rest ih =>
    have first := each item List.mem_cons_self state start
    refine stateAfter_bind_of first fun _ middle reached => ih reached ?_
    exact fun item member => each item (List.mem_cons_of_mem _ member)

end State

namespace FileTree

variable
  {tree middle after : FileTree}
  {path other : Path}

/-- Looking up a key among the entries whose keys satisfy a test. -/
theorem lookup_filter
    (test : Path → Bool)
    (key : Path)
    (entries : List (Path × Entry)) :
    (entries.filter fun entry => test entry.1).lookup key =
      if test key then entries.lookup key else none := by
  induction entries with
  | nil => simp
  | cons entry rest ih =>
    rcases entry with ⟨name, value⟩
    by_cases same : key = name
    · subst same
      by_cases kept : test key = true <;> simp [kept, ih]
    · by_cases kept : test name = true <;> simp [kept, ih, List.lookup_cons, beq_false_of_ne same]

@[simp] theorem get?_put
    (tree : FileTree)
    (path other : Path)
    (entry : Entry) :
    (tree.put path entry).get? other =
      (tree.get? other).or (if other = path then some entry else none) := by
  rw [get?, put, List.lookup_append, List.lookup_cons, List.lookup_nil]
  by_cases same : other = path
  · simp [same, get?]
  · simp [same, beq_false_of_ne same, get?]

@[simp] theorem get?_erase
    (tree : FileTree)
    (path other : Path) :
    (tree.erase path).get? other = if other = path then none else tree.get? other := by
  rw [get?, erase, lookup_filter (· != path)]
  by_cases same : other = path <;> simp [same, get?]

@[simp] theorem get?_eraseAll
    (tree : FileTree)
    (path other : Path) :
    (tree.eraseAll path).get? other = if path <+: other then none else tree.get? other := by
  rw [get?, eraseAll, lookup_filter fun other => !path.isPrefixOf other]
  by_cases below : path <+: other
  · simp [below, List.isPrefixOf_iff_prefix.mpr below]
  · have apart : path.isPrefixOf other = false := by
      rwa [← Bool.not_eq_true, List.isPrefixOf_iff_prefix]
    simp [below, apart, get?]

/-- An entry has a path exactly if there is one at it. -/
theorem mem_paths_iff :
    path ∈ tree.entries.map (·.1) ↔ tree.get? path ≠ none := by
  rw [get?, Ne, List.lookup_eq_none_iff]
  simp only [bne_iff_ne, ne_eq, not_forall, not_not, List.mem_map]
  exact ⟨fun ⟨entry, member, same⟩ => ⟨entry, member, same.symm⟩,
    fun ⟨entry, member, same⟩ => ⟨entry, member, same.symm⟩⟩

theorem mem_of_get?
    {entry : Entry}
    (found : tree.get? path = some entry) :
    (path, entry) ∈ tree.entries := by
  obtain ⟨front, back, split, -⟩ := List.lookup_eq_some_iff.mp found
  rw [split]
  exact List.mem_append_right _ List.mem_cons_self

theorem mem_select_iff
    {test : Path → Bool} :
    path ∈ tree.select test ↔ tree.get? path ≠ none ∧ test path = true := by
  rw [select, List.mem_mergeSort, List.mem_filter, mem_paths_iff]

theorem length_select
    (tree : FileTree)
    (test : Path → Bool) :
    (tree.select test).length = tree.entries.countP fun entry => test entry.1 := by
  rw [select, List.length_mergeSort, ← List.countP_eq_length_filter, List.countP_map]
  rfl

/-- Where there is a directory there is no file, except that the root is no entry. -/
theorem get?_eq_of_isDirectory
    (there : tree.isDirectory path = true)
    (inner : path ≠ []) :
    tree.get? path = some .directory := by
  simpa [isDirectory, inner] using there

theorem isDirectory_of_get?
    (there : tree.get? path = some .directory) :
    tree.isDirectory path = true := by
  simp [isDirectory, there]

/-- A tree has the entries of another one, and besides them some of the directories up to a
path. -/
def Furnished (tree : FileTree) (path : Path) (after : FileTree) : Prop :=
  ∀ other, after.get? other = tree.get? other ∨
    other <+: path ∧ tree.get? other = none ∧ after.get? other = some .directory

namespace Furnished

theorem refl (tree : FileTree) (path : Path) : Furnished tree path tree := fun _ => .inl rfl

theorem trans
    (first : Furnished tree path middle)
    (second : Furnished middle path after) :
    Furnished tree path after := by
  intro other
  rcases second other with same | ⟨before, free, made⟩
  · rw [same]
    exact first other
  · rcases first other with same | ⟨-, -, taken⟩
    · exact .inr ⟨before, same ▸ free, made⟩
    · cases free.symm.trans taken

theorem mono
    (h : Furnished tree path after)
    (longer : path <+: other) :
    Furnished tree other after := by
  intro third
  exact (h third).imp_right fun ⟨before, made⟩ => ⟨before.trans longer, made⟩

theorem put
    (free : tree.get? path = none) :
    Furnished tree path (tree.put path .directory) := by
  intro other
  by_cases same : other = path
  · exact .inr ⟨same ▸ List.prefix_rfl, same ▸ free, by simp [same, free]⟩
  · exact .inl (by simp [same])

/-- Nothing has changed off the way. -/
theorem get?_eq
    (h : Furnished tree path after)
    (apart : ¬ other <+: path) :
    after.get? other = tree.get? other :=
  (h other).resolve_right fun changed => apart changed.1

/-- The files of both trees are the same. -/
theorem file_iff
    (h : Furnished tree path after)
    (other : Path)
    (content : String) :
    after.get? other = some (.file content) ↔ tree.get? other = some (.file content) := by
  rcases h other with same | ⟨-, free, made⟩
  · rw [same]
  · simp [free, made]

end Furnished

/-- All directories up to a path are there. -/
def Stands (tree : FileTree) (path : Path) : Prop :=
  ∀ front, front <+: path → tree.isDirectory front = true

/-- No file is in the way of the directories up to a path. -/
def Clear (tree : FileTree) (path : Path) : Prop :=
  ∀ front, front <+: path → tree.isDirectory front = true ∨ tree.get? front = none

theorem stands_nil (tree : FileTree) : tree.Stands [] := by
  intro front before
  rw [List.prefix_nil.mp before]
  rfl

variable
  {name : String}

/-- The directories up to a name are those above it and that of the name. -/
theorem Stands.snoc
    (above : tree.Stands path)
    (there : tree.isDirectory (path ++ [name]) = true) :
    tree.Stands (path ++ [name]) := by
  intro front before
  rcases List.prefix_concat_iff.mp before with rfl | earlier
  · exact there
  · exact above front earlier

theorem Stands.above
    (h : tree.Stands (path ++ [name])) :
    tree.Stands path :=
  fun front before => h front (before.trans (List.prefix_append _ _))

theorem Clear.above
    (h : tree.Clear (path ++ [name])) :
    tree.Clear path :=
  fun front before => h front (before.trans (List.prefix_append _ _))

/-- A directory that is put below others leaves them where they are. -/
theorem Stands.put
    (above : tree.Stands path)
    (free : tree.get? (path ++ [name]) = none) :
    (tree.put (path ++ [name]) .directory).Stands (path ++ [name]) := by
  refine Stands.snoc ?_ (isDirectory_of_get? (by simp [free]))
  intro front before
  by_cases root : front = []
  · rw [root]
    rfl
  · refine isDirectory_of_get? ?_
    simp [get?_eq_of_isDirectory (above front before) root]

end FileTree

/-- A name that leads to an entry of its own. -/
structure Ordinary (name : String) : Prop where
  notHere : name ≠ "."
  notAbove : name ≠ ".."
  short : name.utf8ByteSize ≤ maxNameSize

theorem Ordinary.follow
    {name : String}
    (h : Ordinary name)
    (path : Path) :
    follow (some path) name = some (path ++ [name]) := by
  simp [Tasks.follow, h.notHere, h.notAbove]

section Making

variable
  {tree : FileTree}
  {path : Path}
  {name : String}

theorem forall_ordinary_append
    (ordinary : ∀ step ∈ path ++ [name], Ordinary step) :
    (∀ step ∈ path, Ordinary step) ∧ Ordinary name :=
  ⟨fun step member => ordinary step (List.mem_append_left _ member), ordinary name (by simp)⟩

/-- One name further. -/
theorem resolve_snoc
    (ordinary : Ordinary name)
    (above : tree.resolve path = .ok (some path)) :
    tree.resolve (path ++ [name]) =
      if tree.isDirectory (path ++ [name]) then .ok (some (path ++ [name]))
      else .error (if (tree.get? (path ++ [name])).isSome then .notADirectory else .notFound) := by
  have short : ¬ name.utf8ByteSize > maxNameSize := Nat.not_lt.mpr ordinary.short
  rw [FileTree.resolve] at above ⊢
  rw [List.foldlM_append, above]
  simp only [bind, Except.bind, List.foldlM_cons, List.foldlM_nil, ordinary.follow, if_neg short]
  split <;> exact (‹_ = _›).symm

/-- An error on the way stays one. -/
theorem resolve_snoc_of_error
    {error : FileError}
    (above : tree.resolve path = .error error) :
    tree.resolve (path ++ [name]) = .error error := by
  rw [FileTree.resolve] at above ⊢
  rw [List.foldlM_append, above]
  rfl

/-- Names lead to their own path or nowhere. -/
theorem resolve_cases
    (ordinary : ∀ step ∈ path, Ordinary step)
    (tree : FileTree) :
    tree.resolve path = .ok (some path) ∨ ∃ error, tree.resolve path = .error error := by
  induction path using List.reverseRecOn with
  | nil => exact .inl rfl
  | append_singleton path name ih =>
    obtain ⟨others, last⟩ := forall_ordinary_append ordinary
    rcases ih others with above | ⟨error, failed⟩
    · rw [resolve_snoc last above]
      split
      · exact .inl rfl
      · exact .inr ⟨_, rfl⟩
    · exact .inr ⟨error, resolve_snoc_of_error failed⟩

/-- Directories that are there are found. -/
theorem resolve_of_stands
    (ordinary : ∀ step ∈ path, Ordinary step)
    (stands : tree.Stands path) :
    tree.resolve path = .ok (some path) := by
  induction path using List.reverseRecOn with
  | nil => rfl
  | append_singleton path name ih =>
    obtain ⟨others, last⟩ := forall_ordinary_append ordinary
    rw [resolve_snoc last (ih others stands.above), if_pos (stands _ List.prefix_rfl)]

/-- If no file is in the way, the directories are there or one of them is missing. -/
theorem stands_or_resolve_eq
    (ordinary : ∀ step ∈ path, Ordinary step)
    (clear : tree.Clear path) :
    tree.Stands path ∨ tree.resolve path = .error .notFound := by
  induction path using List.reverseRecOn with
  | nil => exact .inl tree.stands_nil
  | append_singleton path name ih =>
    obtain ⟨others, last⟩ := forall_ordinary_append ordinary
    rcases ih others clear.above with stands | missing
    · by_cases there : tree.isDirectory (path ++ [name]) = true
      · exact .inl (stands.snoc there)
      · have free := (clear _ List.prefix_rfl).resolve_left there
        refine .inr ?_
        rw [resolve_snoc last (resolve_of_stands others stands), if_neg there, free]
        rfl
    · exact .inr (resolve_snoc_of_error missing)

/-- Making a directory changes nothing, or it puts the directory where nothing was. -/
theorem makeDirectory_cases
    (ordinary : ∀ step ∈ path ++ [name], Ordinary step)
    (tree : FileTree) :
    makeDirectory path name tree = .ok () tree ∨
      (∃ error, makeDirectory path name tree = .error error tree) ∨
      tree.get? (path ++ [name]) = none ∧
        makeDirectory path name tree = .ok () (tree.put (path ++ [name]) .directory) := by
  obtain ⟨others, last⟩ := forall_ordinary_append ordinary
  rcases resolve_cases others tree with above | ⟨error, failed⟩
  · simp only [makeDirectory, above, last.follow]
    split
    · exact .inr (.inl ⟨_, rfl⟩)
    split
    · exact .inl rfl
    split
    · exact .inr (.inl ⟨_, rfl⟩)
    · rename_i free
      exact .inr (.inr ⟨Option.not_isSome_iff_eq_none.mp free, rfl⟩)
  · exact .inr (.inl ⟨error, by simp only [makeDirectory, failed]⟩)

/-- In a directory that is there, a directory can be made unless a file is in the way. -/
theorem exists_makeDirectory
    (ordinary : ∀ step ∈ path ++ [name], Ordinary step)
    (stands : tree.Stands path)
    (clear : tree.Clear (path ++ [name])) :
    ∃ after, makeDirectory path name tree = .ok () after ∧ after.Stands (path ++ [name]) := by
  obtain ⟨others, last⟩ := forall_ordinary_append ordinary
  have short : ¬ name.utf8ByteSize > maxNameSize := Nat.not_lt.mpr last.short
  simp only [makeDirectory, resolve_of_stands others stands, last.follow, if_neg short]
  by_cases there : tree.isDirectory (path ++ [name]) = true
  · exact ⟨tree, by rw [if_pos there], stands.snoc there⟩
  · have free := (clear _ List.prefix_rfl).resolve_left there
    exact ⟨_, by rw [if_neg there, free]; rfl, stands.put free⟩

theorem makeReversed_snoc
    (path : Path)
    (name : String) :
    makeReversed (path ++ [name]).reverse =
      preparedBy (makeReversed path.reverse) (makeDirectory path name) := by
  rw [List.reverse_append, List.reverse_singleton, List.singleton_append, makeReversed,
    List.reverse_reverse]

/-- An attempt is made once, or again after a preparation. -/
theorem preparedBy_cases
    (preparation attempt : FileOperation Unit)
    (tree : FileTree) :
    preparedBy preparation attempt tree = attempt tree ∨
      ∃ middle, attempt tree = .error .notFound middle ∧
        preparedBy preparation attempt tree = (preparation >>= fun _ => attempt) middle := by
  rw [preparedBy]
  split
  · rename_i middle failed
    exact .inr ⟨middle, failed, rfl⟩
  · exact .inl rfl

/-- What no new directory on the way destroys is there after directories have been made, even if
that has failed. -/
theorem makeReversed_induction
    {motive : FileTree → Prop}
    (ordinary : ∀ step ∈ path, Ordinary step)
    (start : motive tree)
    (each : ∀ front, front <+: path → ∀ tree : FileTree, tree.get? front = none → motive tree →
      motive (tree.put front .directory)) :
    motive (stateAfter (makeReversed path.reverse) tree) := by
  induction path using List.reverseRecOn generalizing tree with
  | nil => exact start
  | append_singleton path name ih =>
    have attempt : ∀ tree : FileTree, motive tree →
        motive (stateAfter (makeDirectory path name) tree) := by
      intro tree reached
      rw [stateAfter]
      rcases makeDirectory_cases ordinary tree with same | ⟨error, same⟩ | ⟨free, same⟩
      · rwa [same]
      · rwa [same]
      · rw [same]
        exact each _ List.prefix_rfl tree free reached
    rw [makeReversed_snoc, stateAfter]
    rcases preparedBy_cases (makeReversed path.reverse) (makeDirectory path name) tree with
      same | ⟨middle, failed, same⟩
    · rw [same]
      exact attempt tree start
    · have first := attempt tree start
      rw [stateAfter, failed] at first
      rw [same]
      refine stateAfter_bind_of ?_ fun _ last reached => attempt last reached
      exact ih (forall_ordinary_append ordinary).1 first fun front before =>
        each front (before.trans (List.prefix_append _ _))

/-- Making directories changes no entry, even if it fails. -/
theorem furnished_makeReversed
    (ordinary : ∀ step ∈ path, Ordinary step)
    (tree : FileTree) :
    tree.Furnished path (stateAfter (makeReversed path.reverse) tree) := by
  refine makeReversed_induction (motive := tree.Furnished path) ordinary (.refl tree path) ?_
  intro front before middle free reached
  exact reached.trans ((FileTree.Furnished.put free).mono before)

/-- A directory can be made if no file is in the way. -/
theorem exists_makeReversed
    (ordinary : ∀ step ∈ path, Ordinary step)
    (clear : tree.Clear path) :
    ∃ after, makeReversed path.reverse tree = .ok () after ∧ after.Stands path := by
  induction path using List.reverseRecOn generalizing tree with
  | nil => exact ⟨tree, rfl, tree.stands_nil⟩
  | append_singleton path name ih =>
    obtain ⟨others, -⟩ := forall_ordinary_append ordinary
    rw [makeReversed_snoc, preparedBy]
    rcases stands_or_resolve_eq others clear.above with stands | missing
    · obtain ⟨after, done, arrived⟩ := exists_makeDirectory ordinary stands clear
      exact ⟨after, by rw [done], arrived⟩
    · -- the directory above is made first, and then the attempt is repeated
      have failed : makeDirectory path name tree = .error .notFound tree := by
        simp only [makeDirectory, missing]
      obtain ⟨middle, prepared, stands⟩ := ih others clear.above
      have furnished := furnished_makeReversed others tree
      rw [stateAfter, prepared] at furnished
      have still : middle.Clear (path ++ [name]) := by
        intro front before
        rcases List.prefix_concat_iff.mp before with rfl | earlier
        · have apart : ¬ path ++ [name] <+: path := by
            intro longer
            have bound := longer.length_le
            rw [List.length_append, List.length_singleton] at bound
            omega
          simp only [FileTree.isDirectory, furnished.get?_eq apart]
          exact clear _ List.prefix_rfl
        · exact .inl (stands front earlier)
      obtain ⟨after, done, arrived⟩ := exists_makeDirectory ordinary stands still
      refine ⟨after, ?_, arrived⟩
      rw [failed]
      exact (bind_of_ok prepared _).trans done

/-- Directories that are there are not made again. -/
theorem makeReversed_of_stands
    (ordinary : ∀ step ∈ path, Ordinary step)
    (stands : tree.Stands path) :
    makeReversed path.reverse tree = .ok () tree := by
  cases path using List.reverseRecOn with
  | nil => rfl
  | append_singleton path name =>
    obtain ⟨others, last⟩ := forall_ordinary_append ordinary
    have short : ¬ name.utf8ByteSize > maxNameSize := Nat.not_lt.mpr last.short
    rw [makeReversed_snoc, preparedBy]
    simp only [makeDirectory, resolve_of_stands others stands.above, last.follow, if_neg short,
      if_pos (stands _ List.prefix_rfl)]

/-- Names that lead somewhere are made one below the other. -/
theorem makeDirectories_of_ordinary
    (ordinary : ∀ step ∈ path, Ordinary step) :
    makeDirectories path = makeReversed path.reverse := by
  have steps : path.filter (· ≠ ".") = path :=
    List.filter_eq_self.mpr fun name member => by simpa using (ordinary name member).notHere
  have last : path.getLast? ≠ some "." := by
    intro same
    exact (ordinary "." (List.mem_of_getLast? same)).notHere rfl
  rw [makeDirectories, steps, if_neg last]

end Making

section Changing

variable
  {tree : FileTree}
  {path other : Path}

/-- A directory is not made again in the place of a file. -/
theorem remakeDirectory_cases
    (path : Path)
    (tree : FileTree) :
    remakeDirectory path tree = .error .notADirectory tree ∨
      remakeDirectory path tree = makeDirectories path (tree.eraseAll path) := by
  rw [remakeDirectory, get_bind]
  cases tree.get? path with
  | none => exact .inr rfl
  | some entry =>
    cases entry with
    | file content => exact .inl rfl
    | directory => exact .inr rfl

/-- An empty directory that has been made has nothing in it, and off the way to it nothing else has
changed. -/
theorem get?_of_remakeDirectory
    {after : FileTree}
    (ordinary : ∀ step ∈ path, Ordinary step)
    (off : ¬ other <+: path)
    (done : remakeDirectory path tree = .ok () after) :
    after.get? other = if path <+: other then none else tree.get? other := by
  rcases remakeDirectory_cases path tree with failed | made
  · cases failed.symm.trans done
  · rw [made, makeDirectories_of_ordinary ordinary] at done
    have same := (furnished_makeReversed ordinary (tree.eraseAll path)).get?_eq off
    rwa [stateAfter, done, FileTree.get?_eraseAll] at same

/-- Making an empty directory changes no file outside of it, even if it fails. -/
theorem remakeDirectory_file_iff
    (ordinary : ∀ step ∈ path, Ordinary step)
    (outside : ¬ path <+: other)
    (tree : FileTree)
    (content : String) :
    (stateAfter (remakeDirectory path) tree).get? other = some (.file content) ↔
      tree.get? other = some (.file content) := by
  rw [stateAfter]
  rcases remakeDirectory_cases path tree with failed | made
  · rw [failed]
  · rw [made, makeDirectories_of_ordinary ordinary]
    have same := (furnished_makeReversed ordinary (tree.eraseAll path)).file_iff other content
    rwa [FileTree.get?_eraseAll, if_neg outside] at same

/-- A file is removed unless it is a directory. -/
theorem removeFile_cases
    (path : Path)
    (tree : FileTree) :
    (tree.get? path = some .directory ∧ removeFile path tree = .error .isADirectory tree) ∨
      ∃ after, removeFile path tree = .ok () after ∧
        ∀ other, after.get? other = if other = path then none else tree.get? other := by
  rw [removeFile, get_bind]
  cases there : tree.get? path with
  | none =>
    refine .inr ⟨tree, rfl, fun other => ?_⟩
    split
    · rename_i same
      rw [same, there]
    · rfl
  | some entry =>
    cases entry with
    | file content => exact .inr ⟨tree.erase path, rfl, tree.get?_erase path⟩
    | directory => exact .inl ⟨rfl, rfl⟩

/-- Removing files only changes these. -/
theorem get?_removeFiles
    {paths : List Path}
    (kept : other ∉ paths)
    (tree : FileTree) :
    (stateAfter (paths.forM removeFile) tree).get? other = tree.get? other := by
  refine stateAfter_forM (motive := fun after : FileTree => after.get? other = tree.get? other) rfl ?_
  intro path member middle same
  rw [stateAfter]
  rcases removeFile_cases path middle with ⟨-, failed⟩ | ⟨after, done, erased⟩
  · rw [failed, same]
  · have apart : other ≠ path := fun here => kept (here ▸ member)
    rw [done, erased, if_neg apart, same]

/-- Files can be removed if there is no directory among them. -/
theorem exists_removeFiles
    {paths : List Path}
    (files : ∀ path ∈ paths, tree.get? path ≠ some .directory) :
    ∃ after, paths.forM removeFile tree = .ok () after ∧
      ∀ path ∈ paths, after.get? path = none := by
  induction paths generalizing tree with
  | nil => exact ⟨tree, rfl, List.forall_mem_nil _⟩
  | cons path rest ih =>
    rcases removeFile_cases path tree with ⟨there, -⟩ | ⟨middle, first, erased⟩
    · exact absurd there (files path List.mem_cons_self)
    · have others : ∀ other ∈ rest, middle.get? other ≠ some .directory := by
        intro other member
        rw [erased]
        split
        · exact nofun
        · exact files other (List.mem_cons_of_mem _ member)
      obtain ⟨after, done, removed⟩ := ih others
      refine ⟨after, (forM_cons_of_ok first rest).trans done, ?_⟩
      rw [List.forall_mem_cons]
      refine ⟨?_, removed⟩
      by_cases again : path ∈ rest
      · exact removed path again
      · have same := get?_removeFiles again middle
        rw [stateAfter, done] at same
        rw [same, erased, if_pos rfl]

end Changing

end Oberon.Tasks
