import Hadouken.AutoAdd

/-!
# What one scan of AutoAdd adds

A scan goes through the watched folders, and through the files of each. It
returns at the first folder that does not exist; an exception at a file leaves
both loops. A folder that is listed without a path has no files to add.
-/

namespace Hadouken.AutoAdd

open Script ValueStack AbortingLoop LoadTorrents

variable {γ : Type}

/-- A watched folder and what is found in it. -/
abbrev Found (γ : Type) := Value × Option (List (FoundFile γ))

/-- What is found in each folder, from a position of the list on. -/
def finds (contents : Contents γ) : Nat → List Value → List (Found γ)
  | _, [] => []
  | i, folder :: rest => (folder, contents i) :: finds contents (i + 1) rest

/-- The files of a folder that exists. -/
def existing (found : Found γ) : List (FoundFile γ) :=
  match found.1.member "path", found.2 with
  | some (.string _), some files => files
  | _, _ => []

/-- The torrent an add is about. -/
def added : Call γ → Option TorrentInfo
  | .addTorrent params => params.torrent
  | .deleteFile _ => none

/-- The body of the loop over the folders. -/
def visit (plugin : Plugin γ) (found : Found γ) : Iteration (Call γ) :=
  match found.1.member "path", found.2 with
  | some (.string _), some files =>
      let own := checkFiles plugin found.1 files
      ⟨own.calls, own.returned⟩
  | _, _ => ⟨[], false⟩

section Wanted

variable (plugin : Plugin γ)

/-- The torrent in a file, if the folder's pattern accepts its name, it can be
read and it is a valid torrent. -/
def wantedOf (folder : Value) (file : FoundFile γ) : Option TorrentInfo := do
  let pattern ← plugin.regExp ((setting folder "pattern").orElse defaultPattern)
  if pattern file.path then
    match file.reading with
    | .content buffer => plugin.torrentInfo buffer
    | _ => none
  else none

/-- The torrents to be added from a folder. -/
def wantedIn (found : Found γ) : List TorrentInfo :=
  (existing found).filterMap (wantedOf plugin found.1)

/-- The torrents to be added from all folders, in their order. -/
def wanted (contents : Contents γ) (folders : List Value) : List TorrentInfo :=
  ((finds contents 0 folders).map (wantedIn plugin)).flatten

/-- One scan asks for each of them. -/
def Complete (contents : Contents γ) (folders : List Value) : Prop :=
  (checkFolders plugin contents 0 folders).calls.filterMap added = wanted plugin contents folders

/-- A file that matches can be opened, and is a torrent unless there is nothing in
it. -/
def Valid (folder : Value) (file : FoundFile γ) : Prop :=
  ∀ pattern, plugin.regExp ((setting folder "pattern").orElse defaultPattern) = some pattern →
    pattern file.path = true → Genuine plugin file.reading

/-- The folder exists, and its files can be scanned. -/
def Passable (found : Found γ) : Prop :=
  (∃ path, found.1.member "path" = some (.string path)) ∧
    ∃ files, found.2 = some files ∧ FilesSafe plugin found.1 files

/-- In front of each file to be added, every folder can be passed and every file
of its own folder is valid; the folder's save path is accepted. -/
def Unobstructed (contents : Contents γ) (folders : List Value) : Prop :=
  ∀ earlier found later, finds contents 0 folders = earlier ++ found :: later →
    ∀ before file after, existing found = before ++ file :: after →
      (wantedOf plugin found.1 file).isSome = true →
        (∀ other ∈ earlier, Passable plugin other) ∧
          (∀ other ∈ before, Valid plugin found.1 other) ∧ SavePathAccepted found.1

/-- The scan is the loop over what is found. -/
theorem calls_checkFolders (contents : Contents γ) (folders : List Value) (first : Nat) :
    (checkFolders plugin contents first folders).calls =
      (effects (visit plugin) (finds contents first folders)).flatten := by
  induction folders generalizing first with
  | nil => rfl
  | cons folder rest ih =>
    rw [checkFolders, finds, effects, List.flatten_cons]
    have none : ((finds contents (first + 1) rest).map fun _ => ([] : List (Call γ))).flatten =
        [] := by simp
    by_cases named : ∃ path, folder.member "path" = some (.string path)
    · obtain ⟨path, own⟩ := named
      cases here : contents first with
      | none => simp [visit, own]
      | some files =>
        cases returned : (checkFiles plugin folder files).returned <;>
          simp [visit, own, returned, ih]
    · have unnamed : visit plugin (folder, contents first) = ⟨[], false⟩ := by
        rw [visit]
        split
        · rename_i path files own _
          exact absurd ⟨path, own⟩ named
        · rfl
      rw [unnamed]
      split
      · rename_i path own
        exact absurd ⟨path, own⟩ named
      · simp

/-- A scan goes on behind a folder that is passable. -/
theorem visit_goesOn_iff (found : Found γ) :
    (visit plugin found).goesOn = true ↔ Passable plugin found := by
  unfold visit Passable
  split
  · rename_i path files own here
    rw [checkFiles_returned_iff]
    exact ⟨fun safe => ⟨⟨path, own⟩, files, here, safe⟩, fun ⟨_, own, same, safe⟩ =>
      Option.some.inj (here.symm.trans same) ▸ safe⟩
  · rename_i missing
    refine iff_of_false (by simp) ?_
    rintro ⟨⟨path, own⟩, files, here, _⟩
    exact missing path files own here

/-- What is called for a folder is called for its files. -/
theorem effects_visit (found : Found γ) :
    (visit plugin found).effects = (checkFiles plugin found.1 (existing found)).calls := by
  unfold visit existing
  split <;> rfl

end Wanted

section Files

variable (plugin : Plugin γ) (folder : Value) (pattern : String → Bool)
  (compiled : plugin.regExp ((setting folder "pattern").orElse defaultPattern) = some pattern)

include compiled

/-- A file is added when it is wanted and the folder's save path is accepted. -/
theorem added_checkFile (file : FoundFile γ) :
    ((checkFile plugin folder pattern file).view added).effects.Sublist
        (wantedOf plugin folder file).toList ∧
      ((wantedOf plugin folder file).isSome = true →
        (((checkFile plugin folder pattern file).view added).effects =
            (wantedOf plugin folder file).toList ↔ SavePathAccepted folder)) := by
  by_cases matched : pattern file.path = true
  · cases read : file.reading with
    | throws => simp [checkFile, wantedOf, Iteration.view, compiled, matched, read]
    | nothing => simp [checkFile, wantedOf, Iteration.view, compiled, matched, read]
    | content buffer =>
      have built := readParams_isSome_iff plugin folder buffer
      cases parsed : plugin.torrentInfo buffer with
      | none =>
        have refused : readParams plugin folder buffer = none := by simp [readParams, parsed]
        simp [checkFile, wantedOf, Iteration.view, compiled, matched, read, parsed, refused]
      | some torrent =>
        rw [parsed, Option.isSome_some, and_iff_right rfl] at built
        cases params : readParams plugin folder buffer with
        | none =>
          rw [params] at built
          simp [checkFile, wantedOf, Iteration.view, compiled, matched, read, parsed, params,
            ← built]
        | some given =>
          have own : given.torrent = some torrent := by
            simp only [readParams, parsed, Option.bind_eq_bind, Option.bind_some,
              Option.bind_eq_some_iff, Option.pure_def, Option.some.injEq] at params
            obtain ⟨path, _, rfl⟩ := params
            rfl
          rw [params] at built
          have calls : ((checkFile plugin folder pattern file).view added).effects = [torrent] := by
            cases kept : (setting folder "keep").truthy <;>
              simp [checkFile, Iteration.view, matched, read, params, kept, added, own]
          rw [calls]
          simp [wantedOf, compiled, matched, read, parsed, ← built]
  · simp [checkFile, wantedOf, Iteration.view, compiled, matched]

/-- Where the save path is accepted, the loop goes on past what is valid. -/
theorem goesOn_iff_valid (accepted : SavePathAccepted folder) (file : FoundFile γ) :
    (checkFile plugin folder pattern file).goesOn = true ↔ Valid plugin folder file := by
  rw [checkFile_goesOn_iff]
  simp only [Valid, compiled, Option.some.injEq, forall_eq']
  refine forall_congr' fun _ => ?_
  exact and_iff_left fun _ _ => accepted

end Files

section Scans

variable (plugin : Plugin γ)

/-- A folder's files are all added exactly when in front of each that is wanted
all are valid, and the save path is accepted. -/
theorem added_checkFiles (folder : Value) (files : List (FoundFile γ)) :
    ((checkFiles plugin folder files).calls.filterMap added).Sublist
        (files.filterMap (wantedOf plugin folder)) ∧
      ((checkFiles plugin folder files).calls.filterMap added =
          files.filterMap (wantedOf plugin folder) ↔
        ∀ before file after, files = before ++ file :: after →
          (wantedOf plugin folder file).isSome = true →
            (∀ other ∈ before, Valid plugin folder other) ∧ SavePathAccepted folder) := by
  cases files with
  | nil => simp [checkFiles]
  | cons first rest =>
    cases compiled : plugin.regExp ((setting folder "pattern").orElse defaultPattern) with
    | none =>
      have nothing : wantedOf plugin folder = fun _ => none := by
        funext file
        simp [wantedOf, compiled]
      simp [checkFiles, compiled, nothing]
    | some pattern =>
      have own := added_checkFile plugin folder pattern compiled
      have split : (first :: rest).filterMap (wantedOf plugin folder) =
          ((first :: rest).map fun file => (wantedOf plugin folder file).toList).flatten := by
        rw [List.filterMap_eq_flatMap_toList, List.flatMap_def]
      simp only [checkFiles, compiled]
      rw [filterMap_flatten_effects, split]
      have few : ∀ file ∈ first :: rest,
          ((checkFile plugin folder pattern file).view added).effects.Sublist
            (wantedOf plugin folder file).toList := fun file _ => (own file).1
      refine ⟨flatten_effects_sublist _ _ _ few, ?_⟩
      rw [flatten_effects_eq_iff _ _ _ few]
      refine forall_congr' fun before => forall_congr' fun file => forall_congr' fun after =>
        forall_congr' fun _ => ?_
      have present : (wantedOf plugin folder file).toList ≠ [] ↔
          (wantedOf plugin folder file).isSome = true := by
        cases wantedOf plugin folder file <;> simp
      rw [present]
      refine forall_congr' fun wanted => ?_
      rw [(own file).2 wanted]
      refine and_congr_left fun accepted => ?_
      exact forall_congr' fun other => forall_congr' fun _ =>
        goesOn_iff_valid plugin folder pattern compiled accepted other

end Scans

/-- A plugin for which every file is a torrent. -/
def accepting : Plugin Unit :=
  { watching with
    torrentInfo := fun _ => some ⟨.ones, "name"⟩
    folders := [.object [("path", .string "gone")], .object [("path", .string "watch")]] }

end Hadouken.AutoAdd
