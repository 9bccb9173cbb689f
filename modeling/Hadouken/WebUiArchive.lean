import Hadouken.Routing

/-!
# The web interface's archive

The handler of the web interface keeps a zip archive in memory: under the name
its reader reports for each entry, what the reader extracts by that name. The
reader reports at most 259 bytes of a name, and looks for a name without regard
to the case of ASCII letters.

A character stands for a byte. What the reader finds is left open where several
entries would do, and so is what the disk has outside of the files of the web
interface, directories among it.
-/

namespace Hadouken.WebUiArchive

open LexicalPaths WebUi

/-- A file of the web interface, with its path below the top. -/
abbrev File := List Char × List Char

/-- The files of a web interface. Their paths have segments that name something. -/
structure FileTree where
  files : List File
  distinct : (files.map Prod.fst).Nodup
  plain : ∀ file ∈ files, ∀ segment ∈ file.1.splitOn '/',
    segment ≠ [] ∧ segment ≠ here ∧ segment ≠ parent

/-- A name without its letter case. -/
def lower (name : List Char) : List Char := name.map Char.toLower

/-- A zip archive with one entry per file, as `mz_zip_reader` opens it. -/
structure Archive (tree : FileTree) where
  path : List Char
  isZip : extension path = ".zip".toList
  entries : List File
  complete : entries.Perm tree.files
  /-- `mz_zip_reader_locate_file`, a binary search. -/
  locate : List Char → Option File
  located : ∀ name entry, locate name = some entry → entry ∈ entries ∧ lower entry.1 = lower name
  found : ∀ entry ∈ entries, ∀ name, lower entry.1 = lower name → (locate name).isSome = true

/-- A directory with the files. -/
structure Directory (tree : FileTree) where
  path : List Char
  disk : List Char → Option (List Char)
  stored : ∀ file ∈ tree.files, disk (append path file.1) = some file.2

section Handlers

variable {tree : FileTree}

/-- `mz_zip_reader_extract_file_to_heap`. A null pointer of size 0 makes an
empty text. -/
def Archive.extract (archive : Archive tree) (name : List Char) : List Char :=
  ((archive.locate name).map Prod.snd).getD []

/-- What `mz_zip_reader_file_stat` has room for. -/
def reported (name : List Char) : List Char := name.take 259

/-- `gui_request_handler::load_cache`. The first of several equal names is kept. -/
def Archive.loadCache (archive : Archive tree) : List File :=
  archive.entries.map fun entry => (reported entry.1, archive.extract (reported entry.1))

/-- The handler in front of the archive. -/
def Archive.handler (archive : Archive tree) : GuiRequestHandler (List Char) :=
  .new archive.path fun _ => some archive.loadCache

/-- The handler in front of the directory, which is not opened as an archive. -/
def Directory.handler (directory : Directory tree) : GuiRequestHandler (List Char) :=
  .new directory.path fun _ => none

/-- The status of a response. -/
inductive Status where
  | ok
  | notFound
deriving DecidableEq

/-- The status and the body of an answer. -/
def sent : Reply (List Char) → Option (Status × List Char)
  | .served _ _ content => some (.ok, content)
  | .notFound message => some (.notFound, message)
  | _ => none

/-- What a virtual path gets from the archive. -/
def Archive.sends (archive : Archive tree) (directory : Directory tree)
    (virtualPath : List Char) : Option (Status × List Char) :=
  sent (archive.handler.execute directory.disk virtualPath)

/-- What a virtual path gets from the directory. -/
def Directory.sends (directory : Directory tree) (virtualPath : List Char) :
    Option (Status × List Char) :=
  sent (directory.handler.execute directory.disk virtualPath)

/-- The archive and the directory are answered from alike, and the top of the web
interface is its index. -/
def ServedAlike (archive : Archive tree) (directory : Directory tree)
    (virtualPath : List Char) : Prop :=
  archive.sends directory virtualPath = directory.sends virtualPath ∧
    (virtualPath = "/gui".toList ∨ virtualPath = "/gui/".toList →
      ∃ index, ("index.html".toList, index) ∈ tree.files ∧
        archive.sends directory virtualPath = some (.ok, index) ∧
        directory.sends virtualPath = some (.ok, index))

/-- The path names a file whose name is reported whole and extracted as its own.
Short of that, it is a reported part of a name, where the disk happens to have
what is extracted by that part. -/
def Unambiguous (archive : Archive tree) (directory : Directory tree)
    (virtualPath : List Char) : Prop :=
  (∃ content, (fileOf virtualPath, content) ∈ tree.files ∧
    (fileOf virtualPath).length ≤ 259 ∧ archive.extract (fileOf virtualPath) = content) ∨
  ((∀ file ∈ tree.files, file.1 ≠ fileOf virtualPath) ∧
    (∃ file ∈ tree.files, reported file.1 = fileOf virtualPath) ∧
    directory.disk (append directory.path (fileOf virtualPath)) =
      some (archive.extract (fileOf virtualPath)))

/-- A name is in the cache exactly when it is reported for a file. -/
theorem lookup_loadCache (archive : Archive tree) (name : List Char) :
    ((∃ file ∈ tree.files, reported file.1 = name) ∧
      archive.loadCache.lookup name = some (archive.extract name)) ∨
    ((¬ ∃ file ∈ tree.files, reported file.1 = name) ∧ archive.loadCache.lookup name = none) := by
  have entered : (∃ file ∈ tree.files, reported file.1 = name) ↔
      ∃ entry ∈ archive.entries, reported entry.1 = name := by
    simp only [archive.complete.mem_iff]
  rw [entered, Archive.loadCache]
  induction archive.entries with
  | nil => simp
  | cons entry rest ih =>
    rw [List.map_cons, lookup_cons_ite]
    by_cases same : name = reported entry.1
    · exact .inl ⟨⟨entry, List.mem_cons_self, same.symm⟩, by simp [same]⟩
    · have later : (∃ own ∈ entry :: rest, reported own.1 = name) ↔
          ∃ own ∈ rest, reported own.1 = name := by
        simp [Ne.symm same]
      rw [if_neg same, later]
      exact ih

/-- The cache is filled when the handler is made. -/
theorem Archive.cache_handler (archive : Archive tree) :
    archive.handler.cache = some archive.loadCache := by
  simp [handler, GuiRequestHandler.new, archive.isZip]

/-- A directory has no cache. -/
theorem Directory.cache_handler (directory : Directory tree) : directory.handler.cache = none := by
  simp [handler, GuiRequestHandler.new]

/-- The archive is answered from where a name is reported, with what is extracted
by the name. -/
theorem Archive.sends_eq (archive : Archive tree) (directory : Directory tree)
    (virtualPath : List Char) :
    ((∃ file ∈ tree.files, reported file.1 = fileOf virtualPath) ∧
      archive.sends directory virtualPath = some (.ok, archive.extract (fileOf virtualPath))) ∨
    ((¬ ∃ file ∈ tree.files, reported file.1 = fileOf virtualPath) ∧
      archive.sends directory virtualPath =
        some (.notFound, "404 - Not found: '".toList ++ fileOf virtualPath ++ "'.".toList)) := by
  simp only [sends, GuiRequestHandler.execute, archive.cache_handler]
  rcases lookup_loadCache archive (fileOf virtualPath) with ⟨inside, cached⟩ | ⟨outside, cached⟩
  · exact .inl ⟨inside, by rw [cached]; rfl⟩
  · exact .inr ⟨outside, by rw [cached]; rfl⟩

/-- What is sent from a directory is what it has, or a text that there is nothing. -/
theorem Directory.sends_eq (directory : Directory tree) (virtualPath : List Char) :
    directory.sends virtualPath =
      match directory.disk (append directory.path (fileOf virtualPath)) with
      | some content => some (.ok, content)
      | none => some (.notFound, "404 - Not found.".toList) := by
  simp only [sends, GuiRequestHandler.execute, directory.cache_handler]
  have path : directory.handler.guiPath = directory.path := rfl
  rw [path]
  cases directory.disk (append directory.path (fileOf virtualPath)) <;> rfl

/-- What is missing is reported in two different ways, so that both answers are
the same only where both are found. -/
theorem sends_eq_iff (archive : Archive tree) (directory : Directory tree)
    (virtualPath : List Char) :
    archive.sends directory virtualPath = directory.sends virtualPath ↔
      (∃ file ∈ tree.files, reported file.1 = fileOf virtualPath) ∧
        directory.disk (append directory.path (fileOf virtualPath)) =
          some (archive.extract (fileOf virtualPath)) := by
  rw [directory.sends_eq]
  rcases archive.sends_eq directory virtualPath with ⟨inside, answer⟩ | ⟨outside, answer⟩
  · rw [answer, and_iff_right inside]
    cases directory.disk (append directory.path (fileOf virtualPath)) with
    | none => simp
    | some content => simp [eq_comm]
  · rw [answer]
    cases directory.disk (append directory.path (fileOf virtualPath)) with
    | none => simp [outside]
    | some content => simp [outside]

/-- A short name is reported whole. -/
theorem reported_of_length_le {name : List Char} (short : name.length ≤ 259) :
    reported name = name :=
  List.take_of_length_le short

/-- Where both have a file, it is found by its name; the disk has it. -/
theorem unambiguous_iff (archive : Archive tree) (directory : Directory tree)
    (virtualPath : List Char) :
    Unambiguous archive directory virtualPath ↔
      (∃ file ∈ tree.files, reported file.1 = fileOf virtualPath) ∧
        directory.disk (append directory.path (fileOf virtualPath)) =
          some (archive.extract (fileOf virtualPath)) := by
  constructor
  · rintro (⟨content, member, short, extracted⟩ | ⟨_, inside, same⟩)
    · refine ⟨⟨_, member, reported_of_length_le short⟩, ?_⟩
      rw [extracted]
      exact directory.stored _ member
    · exact ⟨inside, same⟩
  · rintro ⟨⟨file, member, name⟩, same⟩
    by_cases own : ∃ file ∈ tree.files, file.1 = fileOf virtualPath
    · obtain ⟨⟨path, content⟩, inside, rfl⟩ := own
      refine .inl ⟨content, inside, ?_, ?_⟩
      · rw [← name]
        simp [reported]
      · have stored := directory.stored _ inside
        exact Option.some.inj (same.symm.trans stored)
    · exact .inr ⟨fun file inside equal => own ⟨file, inside, equal⟩, ⟨file, member, name⟩, same⟩

/-- Every reported name has a letter. -/
theorem reported_ne_nil {file : File} (member : file ∈ tree.files) : reported file.1 ≠ [] := by
  intro empty
  have none : file.1 = [] := by
    rcases List.take_eq_nil_iff.mp empty with zero | none
    · omega
    · exact none
  have plain := tree.plain file member
  rw [none] at plain
  exact (plain [] (by simp)).1 rfl

/-- The archive and the directory are answered from alike exactly where the path
is unambiguous. The top of the web interface never is, as no file has the empty
name it is taken for. -/
theorem servedAlike_iff_unambiguous (archive : Archive tree) (directory : Directory tree)
    (virtualPath : List Char) :
    ServedAlike archive directory virtualPath ↔ Unambiguous archive directory virtualPath := by
  rw [ServedAlike, sends_eq_iff, unambiguous_iff]
  refine and_iff_left_of_imp ?_
  rintro ⟨⟨file, member, name⟩, _⟩ (rfl | rfl)
  · exact absurd name (reported_ne_nil member)
  · exact absurd name (reported_ne_nil member)

/-- In a tree of short names that differ in more than letter case, each file is
extracted as its own. -/
theorem Archive.extract_of_mem (archive : Archive tree)
    (caseless : ∀ first ∈ tree.files, ∀ second ∈ tree.files,
      lower first.1 = lower second.1 → first.1 = second.1)
    {file : File} (member : file ∈ tree.files) : archive.extract file.1 = file.2 := by
  have listed := archive.complete.mem_iff.mpr member
  obtain ⟨entry, found⟩ := Option.isSome_iff_exists.mp (archive.found file listed file.1 rfl)
  obtain ⟨inside, name⟩ := archive.located file.1 entry found
  have entered := archive.complete.mem_iff.mp inside
  have same : entry = file := by
    refine List.inj_on_of_nodup_map tree.distinct entered member ?_
    exact caseless entry entered file member name
  rw [extract, found, same]
  rfl

/-- There, the two are answered from alike for the files, and for no other path:
not for one that the disk resolves to a file, and not for one that is missing. -/
theorem sends_eq_iff_mem (archive : Archive tree) (directory : Directory tree)
    (short : ∀ file ∈ tree.files, file.1.length ≤ 259)
    (caseless : ∀ first ∈ tree.files, ∀ second ∈ tree.files,
      lower first.1 = lower second.1 → first.1 = second.1) (virtualPath : List Char) :
    archive.sends directory virtualPath = directory.sends virtualPath ↔
      ∃ file ∈ tree.files, file.1 = fileOf virtualPath := by
  rw [sends_eq_iff]
  constructor
  · rintro ⟨⟨file, member, name⟩, _⟩
    exact ⟨file, member, by rw [← name, reported_of_length_le (short file member)]⟩
  · rintro ⟨file, member, name⟩
    refine ⟨⟨file, member, by rw [reported_of_length_le (short file member), name]⟩, ?_⟩
    rw [← name, archive.extract_of_mem caseless member]
    exact directory.stored file member

end Handlers

/-- An archive whose entries are in the order of the files and are searched in
that order. -/
def Archive.ofTree (tree : FileTree) (path : List Char) (isZip : extension path = ".zip".toList) :
    Archive tree where
  path := path
  isZip := isZip
  entries := tree.files
  complete := .refl tree.files
  locate name := tree.files.find? fun entry => lower entry.1 = lower name
  located name entry found :=
    ⟨List.mem_of_find?_eq_some found, by simpa using List.find?_some found⟩
  found entry member name same := List.find?_isSome.mpr ⟨entry, member, by simpa using same⟩

/-- A web interface of one page. -/
def onePage : FileTree where
  files := [("index.html".toList, "<html>".toList)]
  distinct := by decide
  plain := by decide

/-- It is in a directory, which the disk has as well. -/
def onePageDirectory : Directory onePage where
  path := "/opt/webui".toList
  disk path :=
    if path = "/opt/webui/index.html".toList then some "<html>".toList
    else if path = "/opt/webui".toList then some []
    else none
  stored := by decide

/-- The top of the web interface is looked for under an empty name: the archive
has no such entry, and the directory is itself that file. -/
theorem top_not_servedAlike :
    Routing.findRequestHandler "/gui".toList = some .gui ∧
    ¬ ServedAlike (.ofTree onePage "/opt/webui.zip".toList (by decide)) onePageDirectory
      "/gui".toList := by
  refine ⟨by decide, ?_⟩
  rintro ⟨same, _⟩
  have missing : (Archive.ofTree onePage "/opt/webui.zip".toList (by decide)).sends
      onePageDirectory "/gui".toList = some (.notFound, "404 - Not found: ''.".toList) := by
    decide
  have empty : onePageDirectory.sends "/gui".toList = some (.ok, []) := by
    decide
  rw [missing, empty] at same
  exact absurd same (by decide)

end Hadouken.WebUiArchive
