import Hadouken.Library.Members

/-!
# File systems

A file system lists its paths with what stands there. A path is a text; the
entries of a directory are the paths one separator below it. The content of a
file that is not empty is of any type. Reading, writing and deleting follow the
native file module of the scripts, where reading an empty file yields nothing.
-/

namespace Hadouken.Files

/-- A path, by its characters. -/
abbrev Path := List Char

/-- What stands at a path: a file, which may be empty, or a directory. -/
inductive Node (γ : Type) where
  | file (content : Option γ)
  | directory
deriving DecidableEq

/-- The nodes under their paths. -/
abbrev FileSystem (γ : Type) := List (Path × Node γ)

variable {γ : Type}

/-- There is a node at the path. -/
def fileExists (files : FileSystem γ) (path : Path) : Bool :=
  match files.lookup path with
  | some (.file _) => true
  | _ => false

/-- The content of a file that is not empty, for `readText` and `readBuffer`. -/
def readFile (files : FileSystem γ) (path : Path) : Option γ :=
  match files.lookup path with
  | some (.file content) => content
  | _ => none

/-- The file is replaced, or made. -/
def writeFile (files : FileSystem γ) (path : Path) (content : γ) : FileSystem γ :=
  assign path (.file (some content)) files

/-- Delete a regular file; nothing else is deleted. -/
def deleteFile (files : FileSystem γ) (path : Path) : FileSystem γ :=
  if fileExists files path then files.filter fun entry => entry.1 ≠ path else files

/-- Move what stands at a path over whatever stands at another. -/
def renameFile (files : FileSystem γ) (prev next : Path) : FileSystem γ :=
  match files.lookup prev with
  | none => files
  | some node =>
      if prev = next then files
      else assign next node (files.filter fun entry => entry.1 ≠ prev)

/-- `path / name`. -/
def combine (path name : Path) : Path := path ++ '/' :: name

/-- The path is one separator below the directory. -/
def isEntryOf (directory path : Path) : Bool :=
  (directory ++ ['/']).isPrefixOf path && !(path.drop (directory.length + 1)).contains '/'

/-- The paths of a directory's entries. -/
def getFiles (files : FileSystem γ) (directory : Path) : List Path :=
  (files.map Prod.fst).filter (isEntryOf directory)

/-- A file just written exists, and every other path is as it was. -/
theorem fileExists_writeFile (files : FileSystem γ) (path other : Path) (content : γ) :
    fileExists (writeFile files path content) other =
      (decide (other = path) || fileExists files other) := by
  unfold fileExists writeFile
  rw [lookup_assign]
  by_cases same : other = path <;> simp [same]

/-- Dropping the entries of one path leaves the lookups of every other. -/
theorem lookup_filter_ne (files : FileSystem γ) (path other : Path) :
    (files.filter fun entry => entry.1 ≠ path).lookup other =
      if other = path then none else files.lookup other := by
  induction files with
  | nil => simp
  | cons entry rest ih =>
    by_cases same : entry.1 = path
    · rw [List.filter_cons_of_neg (by simp [same]), ih, lookup_cons_ite]
      by_cases here : other = path
      · simp [here]
      · simp [here, same]
    · rw [List.filter_cons_of_pos (by simp [same]), lookup_cons_ite, ih, lookup_cons_ite]
      by_cases here : other = entry.1
      · simp [here, same]
      · simp [here]

/-- Deleting leaves what stands at every other path. -/
theorem lookup_deleteFile_of_ne (files : FileSystem γ) (path other : Path)
    (distinct : other ≠ path) : (deleteFile files path).lookup other = files.lookup other := by
  unfold deleteFile
  split
  · rw [lookup_filter_ne, if_neg distinct]
  · rfl

/-- Nothing is read at the path of a deleted file. -/
theorem readFile_deleteFile (files : FileSystem γ) (path : Path) :
    readFile (deleteFile files path) path = none := by
  unfold deleteFile
  by_cases present : fileExists files path = true
  · rw [if_pos present, readFile, lookup_filter_ne, if_pos rfl]
  · rw [if_neg present]
    unfold fileExists at present
    unfold readFile
    split at present
    · exact absurd rfl present
    · rfl

/-- A deleted file is gone, and every other path is as it was. -/
theorem fileExists_deleteFile (files : FileSystem γ) (path other : Path) :
    fileExists (deleteFile files path) other =
      (!decide (other = path) && fileExists files other) := by
  unfold deleteFile
  by_cases present : fileExists files path = true
  · rw [if_pos present]
    unfold fileExists
    rw [lookup_filter_ne]
    by_cases same : other = path <;> simp [same]
  · rw [if_neg present]
    by_cases same : other = path
    · subst same
      simpa using present
    · simp [same]

/-- A moved file stands at its new path alone. -/
theorem lookup_renameFile (files : FileSystem γ) (prev next : Path) (node : Node γ)
    (distinct : prev ≠ next) (held : files.lookup prev = some node) (path : Path) :
    (renameFile files prev next).lookup path =
      if path = next then some node else if path = prev then none else files.lookup path := by
  rw [renameFile, held]
  simp only [if_neg distinct]
  rw [lookup_assign, lookup_filter_ne]

/-- Moving a file over itself changes nothing. -/
theorem renameFile_self (files : FileSystem γ) (path : Path) :
    renameFile files path path = files := by
  rw [renameFile]
  cases files.lookup path with
  | none => rfl
  | some node => exact if_pos rfl

/-- The entries of a directory are the existing paths one separator below it. -/
theorem mem_getFiles_iff (files : FileSystem γ) (directory path : Path) :
    path ∈ getFiles files directory ↔
      (files.lookup path).isSome = true ∧ isEntryOf directory path = true := by
  rw [getFiles, List.mem_filter, lookup_isSome_iff]

/-- A name without a separator makes an entry. -/
theorem isEntryOf_combine (directory name : Path) (plain : '/' ∉ name) :
    isEntryOf directory (combine directory name) = true := by
  have below : (directory ++ ['/']).isPrefixOf (combine directory name) = true := by
    rw [List.isPrefixOf_iff_prefix]
    exact ⟨name, by simp [combine]⟩
  have rest : (combine directory name).drop (directory.length + 1) = name := by
    simp [combine, List.drop_append]
  simp [isEntryOf, below, rest, plain]

end Hadouken.Files
