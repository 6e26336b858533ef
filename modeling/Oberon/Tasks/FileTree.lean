/-!
# File trees

The files and directories below a project root.  A path is the list of names that lead to an entry;
the root itself has the empty path and is always a directory.  Where a path is printed or handed to
a program, it is a text that begins with that of the root (`textBelow`).

Operations either change the tree or fail; what they did before they failed stays done.
-/

namespace Oberon.Tasks

/-- The names that lead from the root to an entry. -/
abbrev Path := List String

/-- The text of a directory with a name after it.  A name that starts at the root of the file system
stands for itself. -/
def joinName (directory name : String) : String :=
  if name.toList.head? = some '/' then name
  else if directory.toList.getLast?.any (· ≠ '/') then directory ++ "/" ++ name
  else directory ++ name

/-- The text of what some names lead to, from a directory with the text `root`. -/
def textBelow (root : String) (names : List String) : String := names.foldl joinName root

/-- The text in which a search finds what some names lead to.  It leaves out the directory that it
is made in. -/
def textFound (root : String) (names : List String) : String :=
  textBelow (if root = "." then "" else root) names

/-- A file or a directory. -/
inductive Entry where
  | file (content : String)
  | directory
  deriving DecidableEq, Repr, Inhabited

/-- Everything below a root, in the order of creation. -/
structure FileTree where
  entries : List (Path × Entry)
  deriving DecidableEq, Repr

/-- Why an operation on files fails.  A name on the way can be missing or too long, a file can stand
where a directory is needed or is to be made, and a directory where a file is to be removed or
copied. -/
inductive FileError where
  | notFound
  | notADirectory
  | alreadyExists
  | isADirectory
  | nameTooLong
  | notAFile (path : Path)
  deriving DecidableEq, Repr, Inhabited

/-- An operation on a file tree. -/
abbrev FileOperation (α : Type) := EStateM FileError FileTree α

namespace FileTree

/-- The entry at a path. -/
def get? (tree : FileTree) (path : Path) : Option Entry := tree.entries.lookup path

/-- True if there is a directory at a path. -/
def isDirectory (tree : FileTree) (path : Path) : Bool :=
  path.isEmpty || tree.get? path == some .directory

/-- Adds an entry at a path that has none. -/
def put (tree : FileTree) (path : Path) (entry : Entry) : FileTree :=
  ⟨tree.entries ++ [(path, entry)]⟩

/-- Removes the entry at a path. -/
def erase (tree : FileTree) (path : Path) : FileTree :=
  ⟨tree.entries.filter (·.1 != path)⟩

/-- Removes the entry at a path and everything below it. -/
def eraseAll (tree : FileTree) (path : Path) : FileTree :=
  ⟨tree.entries.filter fun entry => !path.isPrefixOf entry.1⟩

/-- The paths of the entries that satisfy a test, in the order of their names. -/
def select (tree : FileTree) (test : Path → Bool) : List Path :=
  ((tree.entries.map (·.1)).filter test).mergeSort (fun first second => ¬ second < first)

end FileTree

/-- True if a name ends with an extension. -/
def hasExtension (extension name : String) : Bool :=
  extension.toList.isSuffixOf name.toList

/-- The entries directly in a directory whose names end with an extension. -/
def inDirectory (directory : Path) (extension : String) (path : Path) : Bool :=
  path.dropLast == directory && path.getLast?.any (hasExtension extension)

/-- The entries at any depth whose names end with an extension. -/
def anywhere (extension : String) (path : Path) : Bool :=
  path.getLast?.any (hasExtension extension)

/-- The directory that a name leads to from another one; none if that is not below the root. -/
def follow (place : Option Path) (name : String) : Option Path :=
  match place with
  | none => none
  | some path =>
    if name = "." then some path
    else if name = ".." then (if path = [] then none else some path.dropLast)
    else some (path ++ [name])

/-- The greatest number of bytes of a name. -/
def maxNameSize : Nat := 255

/-- The directory that some names lead to, where every name on the way has to be that of a
directory.  What lies outside the root counts as there. -/
def FileTree.resolve (tree : FileTree) (names : List String) : Except FileError (Option Path) :=
  names.foldlM (fun place name =>
    match follow place name with
    | none => .ok none
    | some path =>
      if name.utf8ByteSize > maxNameSize then .error .nameTooLong
      else if tree.isDirectory path then .ok (some path)
      else .error (if (tree.get? path).isSome then .notADirectory else .notFound)) (some [])

/-- Makes a directory of a name in the directory that other names lead to, unless there is one
already. -/
def makeDirectory (names : List String) (name : String) : FileOperation Unit := fun tree =>
  match tree.resolve names with
  | .error error => .error error tree
  | .ok place =>
    match follow place name with
    | none => .ok () tree
    | some path =>
      if name.utf8ByteSize > maxNameSize then .error .nameTooLong tree
      else if tree.isDirectory path then .ok () tree
      else if (tree.get? path).isSome then .error .alreadyExists tree
      else .ok () (tree.put path .directory)

/-- Attempts an operation, and if something was missing, once more after a preparation. -/
def preparedBy (preparation attempt : FileOperation Unit) : FileOperation Unit := fun tree =>
  match attempt tree with
  | .error .notFound tree => (do preparation; attempt) tree
  | result => result

/-- Makes a directory and those on the way to it that are missing.  The names come last first. -/
def makeReversed : List String → FileOperation Unit
  | [] => pure ()
  | name :: before => preparedBy (makeReversed before) (makeDirectory before.reverse name)

/-- Makes a directory and those on the way to it that are missing.  A last `.` stands for the
directory before it, which then is not among those that are made. -/
def makeDirectories (names : List String) : FileOperation Unit :=
  let steps := names.filter (· ≠ ".")
  if names.getLast? = some "." then
    preparedBy (makeReversed steps.reverse.tail) (makeDirectory steps ".")
  else
    makeReversed steps.reverse

/-- Makes a directory that is empty, by removing what was there. -/
def remakeDirectory (path : Path) : FileOperation Unit := do
  match (← get).get? path with
  | some (.file _) => throw .notADirectory
  | _ =>
    modify (·.eraseAll path)
    makeDirectories path

/-- Copies a file into a directory, unless there is an entry of its name. -/
def copyInto (directory : Option Path) (path : Path) : FileOperation Unit := do
  let tree ← get
  match tree.get? path with
  | some (.file content) =>
    match directory with
    | none => pure ()
    | some directory =>
      let target := directory ++ path.getLast?.toList
      if (tree.get? target).isNone then set (tree.put target (.file content))
  | _ => throw (.notAFile path)

/-- Removes a file, if it is still there. -/
def removeFile (path : Path) : FileOperation Unit := do
  let tree ← get
  match tree.get? path with
  | some (.file _) => set (tree.erase path)
  | some .directory => throw .isADirectory
  | none => pure ()

/-- The tree that holds some files and the directories they need. -/
def FileTree.ofFiles (files : List (Path × String)) : FileTree :=
  files.foldl (fun tree (path, content) =>
    let parents := (List.range path.length).map path.take
    let missing := parents.filter fun parent => !tree.isDirectory parent
    ⟨tree.entries ++ missing.map (·, .directory) ++ [(path, .file content)]⟩) ⟨[]⟩

end Oberon.Tasks
