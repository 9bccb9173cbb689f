import Hadouken.AutoAdd
import Hadouken.SavedTorrents

/-!
# Torrent files picked up by AutoAdd

AutoAdd asks for a torrent to be added and deletes its file at once. The session
adds later, or fails to; the copy in the torrents directory is written when the
alert about the addition is handled, after that. Both directories are in one
file system. A stop of the process is the end of a run, so that it falls between
any two steps.

The calls of one iteration of the scan are steps of their own, between which the
session goes on but no handler runs. The scan may come to any file of a watched
folder at any time. A file that was picked up counts until its torrent is
removed.
-/

namespace Hadouken.AutoAddFiles

open Files TorrentFiles Script LoadTorrents AbortingLoop Runs AutoAdd

variable {γ : Type} [DecidableEq γ]

/-- A file that was picked up, its content, and the torrent it is of. -/
structure Pick (γ : Type) where
  path : Path
  content : γ
  infoHash : InfoHash

/-- The session, its alerts and the file system; the calls the scan has still to
make; the adds that wait to be performed; and the files picked up. -/
structure State (γ : Type) where
  saving : SavedTorrents.State γ
  calls : List (AutoAdd.Call γ)
  waiting : List InfoHash
  picked : List (Pick γ)

/-- A file arrives, the plugin scans, or the session goes on. -/
inductive Event (γ : Type) where
  | arrive (path : Path) (content : γ)
  | check (position : Nat) (path : Path)
  | call
  | perform (succeeds : Bool)
  | session (event : SavedTorrents.Event γ)

/-- The hash an add is about: AutoAdd always gives a torrent. -/
def hashOf (params : AddTorrentParams γ) : Option InfoHash :=
  params.torrent.map TorrentInfo.infoHash

/-- What the plugin reads of a file that can be opened. -/
def readBuffer (files : FileSystem γ) (path : Path) : Reading γ :=
  match readFile files path with
  | some content => .content content
  | none => .nothing

/-- The iteration of the scan for one file of a folder, if it is there. Where a
file cannot be opened the scan has no calls, as in front of it. -/
def checkEntry (plugin : Plugin γ) (files : FileSystem γ) (folder : Value) (path : Path) :
    Option (Iteration (AutoAdd.Call γ)) :=
  match folder.member "path", plugin.regExp ((setting folder "pattern").orElse defaultPattern) with
  | some (.string directory), some pattern =>
      if path ∈ getFiles files directory.toList then
        some (checkFile plugin folder pattern ⟨.ofList path, readBuffer files path⟩)
      else none
  | _, _ => none

/-- What the calls of an iteration pick up. -/
def picksOf (files : FileSystem γ) (path : Path) : List (AutoAdd.Call γ) → List (Pick γ)
  | .addTorrent params :: _ =>
      match hashOf params, readFile files path with
      | some infoHash, some content => [⟨path, content, infoHash⟩]
      | _, _ => []
  | _ => []

/-- The session performs an add: a torrent that is there is not added again. -/
def performAdd (content : InfoHash → γ) (torrentsPath : Path) (saving : SavedTorrents.State γ)
    (infoHash : InfoHash) : SavedTorrents.State γ :=
  (SavedTorrents.step content torrentsPath saving (.add infoHash true)).getD saving

/-- The files still counted after a step of the session. -/
def countedAfter (picked : List (Pick γ)) : SavedTorrents.Event γ → List (Pick γ)
  | .remove infoHash => picked.filter fun pick => pick.infoHash ≠ infoHash
  | _ => picked

/-- No handler runs while a scan has calls to make. -/
def mayRun (calls : List (AutoAdd.Call γ)) : SavedTorrents.Event γ → Bool
  | .handle _ => calls.isEmpty
  | _ => true

/-- An event. A scan can stop between any two calls. -/
def step (plugin : Plugin γ) (content : InfoHash → γ) (torrentsPath : Path) (state : State γ) :
    Event γ → Option (State γ)
  | .arrive path content =>
      if state.saving.files.lookup path = none then
        some { state with
          saving := { state.saving with files := writeFile state.saving.files path content } }
      else none
  | .check position path =>
      if state.calls.isEmpty then do
        let folder ← plugin.folders[position]?
        let checked ← checkEntry plugin state.saving.files folder path
        return {
          state with
          calls := checked.effects
          picked := picksOf state.saving.files path checked.effects ++ state.picked }
      else none
  | .call =>
      match state.calls with
      | [] => none
      | .addTorrent params :: rest =>
          some { state with
            calls := rest
            waiting := state.waiting ++ (hashOf params).toList }
      | .deleteFile path :: rest =>
          some { state with
            saving := { state.saving with files := deleteFile state.saving.files path.toList }
            calls := rest }
  | .perform succeeds =>
      match state.waiting with
      | [] => none
      | infoHash :: rest =>
          some { state with
            saving :=
              if succeeds then performAdd content torrentsPath state.saving infoHash
              else state.saving
            waiting := rest }
  | .session event =>
      if mayRun state.calls event then
        (SavedTorrents.step content torrentsPath state.saving event).map fun saving =>
          { state with saving := saving, picked := countedAfter state.picked event }
      else none

/-- The file is where it was picked up, or its torrent is saved. -/
def Pick.Safe (torrentsPath : Path) (files : FileSystem γ) (pick : Pick γ) : Prop :=
  readFile files pick.path = some pick.content ∨
    SavedTorrents.saved torrentsPath files pick.infoHash = true

/-- No file that was picked up is lost. -/
def NoneLost (torrentsPath : Path) (state : State γ) : Prop :=
  ∀ pick ∈ state.picked, pick.Safe torrentsPath state.saving.files

/-- A copy stands that no alert in the queue will take away. -/
def Lasting (torrentsPath : Path) (saving : SavedTorrents.State γ) (infoHash : InfoHash) : Prop :=
  SavedTorrents.saved torrentsPath saving.files infoHash = true ∧
    .torrentRemoved infoHash ∉ saving.queued

/-- The scan leaves the torrents directory alone, and a file is deleted only when
its torrent was saved for good before. -/
def Careful (torrentsPath : Path) (state : State γ) : Event γ → Prop
  | .check _ path => isEntryOf torrentsPath path = false
  | .call =>
      match state.calls with
      | .deleteFile path :: _ =>
          ∀ pick ∈ state.picked, pick.path = path.toList →
            Lasting torrentsPath state.saving pick.infoHash
      | _ => True
  | _ => True

section Handlers

variable (content : InfoHash → γ) (torrentsPath : Path)

omit [DecidableEq γ] in
/-- Other files are as they were. -/
theorem lookup_deleteIfExists_of_ne (files : FileSystem γ) (path other : Path)
    (distinct : other ≠ path) :
    (SavedTorrents.deleteIfExists path files).lookup other = files.lookup other := by
  unfold SavedTorrents.deleteIfExists
  split
  · exact lookup_deleteFile_of_ne files path other distinct
  · rfl

omit [DecidableEq γ] in
/-- A path outside the torrents directory is the path of no saved file. -/
theorem ne_savedFile (path : Path) (outside : isEntryOf torrentsPath path = false)
    (suffix : List Char) (plain : '/' ∉ suffix) (infoHash : InfoHash) :
    path ≠ savedFile suffix torrentsPath infoHash := by
  rintro rfl
  rw [isEntryOf_savedFile suffix torrentsPath infoHash plain] at outside
  cases outside

/-- The handlers leave what is outside the torrents directory. -/
theorem lookup_handle (session : SavedTorrents.Session) (reads : SavedTorrents.HandleReads γ)
    (alert : SavedTorrents.Alert) (files next : FileSystem γ)
    (handled : SavedTorrents.handle content torrentsPath session reads alert files = some next)
    (path : Path) (outside : isEntryOf torrentsPath path = false) :
    next.lookup path = files.lookup path := by
  have saves : (SavedTorrents.saveIfValid torrentsPath reads files).lookup path =
      files.lookup path := by
    unfold SavedTorrents.saveIfValid SavedTorrents.saveTorrent
    split
    · rfl
    · dsimp only
      split
      · rfl
      · split
        · rfl
        · rw [writeFile, lookup_assign]
          exact if_neg (ne_savedFile torrentsPath path outside torrentSuffix (by decide) _)
  cases alert with
  | torrentAdded infoHash number =>
    simp only [SavedTorrents.handle, Option.ite_none_right_eq_some, Option.some.injEq] at handled
    rw [← handled.2, saves]
  | metadataReceived infoHash number =>
    simp only [SavedTorrents.handle, Option.ite_none_right_eq_some, Option.some.injEq] at handled
    rw [← handled.2, saves]
  | torrentRemoved infoHash =>
    obtain rfl : SavedTorrents.removeSaved torrentsPath infoHash files = next :=
      Option.some.inj handled
    have elsewhere := ne_savedFile torrentsPath path outside
    have metadata : path ≠ metadataFile torrentsPath infoHash :=
      elsewhere metadataSuffix (by decide) infoHash
    have resume : path ≠ resumeFile torrentsPath infoHash :=
      elsewhere resumeSuffix (by decide) infoHash
    have torrent : path ≠ torrentFile torrentsPath infoHash :=
      elsewhere torrentSuffix (by decide) infoHash
    rw [SavedTorrents.removeSaved, lookup_deleteIfExists_of_ne _ _ _ metadata,
      lookup_deleteIfExists_of_ne _ _ _ resume, lookup_deleteIfExists_of_ne _ _ _ torrent]

/-- Only the alert about its removal takes away the copy of a torrent. -/
theorem saved_handle (session : SavedTorrents.Session) (reads : SavedTorrents.HandleReads γ)
    (alert : SavedTorrents.Alert) (files next : FileSystem γ)
    (handled : SavedTorrents.handle content torrentsPath session reads alert files = some next)
    (infoHash : InfoHash) (other : alert ≠ .torrentRemoved infoHash)
    (saved : SavedTorrents.saved torrentsPath files infoHash = true) :
    SavedTorrents.saved torrentsPath next infoHash = true := by
  obtain ⟨written, _, same⟩ := SavedTorrents.handle_outcome content torrentsPath session reads
    alert files next handled
  rw [same]
  by_cases about : infoHash = alert.infoHash
  · subst about
    cases alert with
    | torrentRemoved removed => exact absurd rfl other
    | torrentAdded added number =>
      have held : SavedTorrents.saved torrentsPath files added = true := saved
      simp [SavedTorrents.effect, SavedTorrents.Alert.infoHash, held]
    | metadataReceived received number =>
      have held : SavedTorrents.saved torrentsPath files received = true := saved
      simp [SavedTorrents.effect, SavedTorrents.Alert.infoHash, held]
  · rw [SavedTorrents.effect_of_ne _ _ _ _ about]
    exact saved

/-- A file outside the torrents directory or a lasting copy stays so in every step
of the session but the removal of its torrent. -/
theorem kept_by_session (saving next : SavedTorrents.State γ) (event : SavedTorrents.Event γ)
    (stepped : SavedTorrents.step content torrentsPath saving event = some next) (pick : Pick γ)
    (outside : isEntryOf torrentsPath pick.path = false) (stays : event ≠ .remove pick.infoHash)
    (kept : readFile saving.files pick.path = some pick.content ∨
      Lasting torrentsPath saving pick.infoHash) :
    readFile next.files pick.path = some pick.content ∨
      Lasting torrentsPath next pick.infoHash := by
  have outcome := SavedTorrents.step_cases content torrentsPath saving event next stepped
  cases event with
  | add infoHash hasMetadata =>
    obtain ⟨_, rfl⟩ := outcome
    exact kept.imp id fun lasting => ⟨lasting.1, by simpa using lasting.2⟩
  | receiveMetadata infoHash =>
    obtain ⟨_, rfl⟩ := outcome
    exact kept.imp id fun lasting => ⟨lasting.1, by simpa using lasting.2⟩
  | remove infoHash =>
    obtain ⟨_, rfl⟩ := outcome
    have distinct : pick.infoHash ≠ infoHash := fun same => stays (by rw [same])
    exact kept.imp id fun lasting => ⟨lasting.1, by simpa [distinct] using lasting.2⟩
  | handle reads =>
    obtain ⟨alert, rest, files, queue, handled, rfl⟩ := outcome
    rcases kept with present | ⟨saved, lasts⟩
    · refine .inl ?_
      rw [readFile] at present ⊢
      rw [lookup_handle content torrentsPath _ reads alert _ files handled pick.path outside]
      exact present
    · rw [queue] at lasts
      refine .inr ⟨?_, fun later => lasts (List.mem_cons_of_mem _ later)⟩
      exact saved_handle content torrentsPath _ reads alert _ files handled pick.infoHash
        (fun removed => lasts (by rw [removed]; exact List.mem_cons_self)) saved

end Handlers

/-- What holds between the steps. -/
structure Invariant (torrentsPath : Path) (state : State γ) : Prop where
  deletes : ∀ path, .deleteFile path ∈ state.calls → isEntryOf torrentsPath path.toList = false
  outside : ∀ pick ∈ state.picked, isEntryOf torrentsPath pick.path = false
  kept : ∀ pick ∈ state.picked, readFile state.saving.files pick.path = some pick.content ∨
    Lasting torrentsPath state.saving pick.infoHash

omit [DecidableEq γ] in
/-- An iteration deletes no other file than its own. -/
theorem path_of_delete (plugin : Plugin γ) (folder : Value) (pattern : String → Bool)
    (file : FoundFile γ) (path : String)
    (deletes : .deleteFile path ∈ (checkFile plugin folder pattern file).effects) :
    path = file.path := by
  unfold checkFile at deletes
  split at deletes
  · split at deletes
    · cases deletes
    · cases deletes
    · split at deletes
      · cases deletes
      · dsimp only at deletes
        split at deletes
        · simp at deletes
        · simpa using deletes
  · cases deletes

omit [DecidableEq γ] in
/-- A file that is deleted is the one that is checked. -/
theorem delete_of_checkEntry (plugin : Plugin γ) (files : FileSystem γ) (folder : Value)
    (path : Path) (iteration : Iteration (AutoAdd.Call γ))
    (checked : checkEntry plugin files folder path = some iteration) (deleted : String)
    (deletes : .deleteFile deleted ∈ iteration.effects) : deleted.toList = path := by
  unfold checkEntry at checked
  split at checked
  · rw [Option.ite_none_right_eq_some, Option.some.injEq] at checked
    obtain ⟨_, rfl⟩ := checked
    rw [path_of_delete plugin folder _ _ deleted deletes, String.toList_ofList]
  · cases checked

omit [DecidableEq γ] in
/-- What is picked up is the file the scan came to, as it was read. -/
theorem picked_here (files : FileSystem γ) (path : Path) (calls : List (AutoAdd.Call γ))
    (pick : Pick γ) (picked : pick ∈ picksOf files path calls) :
    pick.path = path ∧ readFile files path = some pick.content := by
  unfold picksOf at picked
  split at picked
  · split at picked
    · rename_i content _ found
      obtain rfl := List.mem_singleton.mp picked
      exact ⟨rfl, found⟩
    · cases picked
  · cases picked

section Steps

variable (plugin : Plugin γ) (content : InfoHash → γ) (torrentsPath : Path)

omit [DecidableEq γ] in
/-- A file that arrives at a free path changes no other file. -/
theorem kept_of_arrival (saving : SavedTorrents.State γ) (path : Path) (own : γ)
    (free : saving.files.lookup path = none) (pick : Pick γ)
    (kept : readFile saving.files pick.path = some pick.content ∨
      Lasting torrentsPath saving pick.infoHash) :
    readFile (writeFile saving.files path own) pick.path = some pick.content ∨
      Lasting torrentsPath { saving with files := writeFile saving.files path own }
        pick.infoHash := by
  rcases kept with present | ⟨saved, lasts⟩
  · refine .inl ?_
    have elsewhere : pick.path ≠ path := by
      intro same
      rw [readFile, same, free] at present
      cases present
    rw [readFile] at present ⊢
    rwa [writeFile, lookup_assign, if_neg elsewhere]
  · refine .inr ⟨?_, lasts⟩
    rw [SavedTorrents.saved] at saved ⊢
    rw [fileExists_writeFile, saved, Bool.or_true]

omit [DecidableEq γ] in
/-- A file outside the torrents directory is deleted without loss when every file
picked up there has a lasting copy. -/
theorem kept_of_delete (saving : SavedTorrents.State γ) (path : Path)
    (elsewhere : isEntryOf torrentsPath path = false) (pick : Pick γ)
    (careful : pick.path = path → Lasting torrentsPath saving pick.infoHash)
    (kept : readFile saving.files pick.path = some pick.content ∨
      Lasting torrentsPath saving pick.infoHash) :
    readFile (deleteFile saving.files path) pick.path = some pick.content ∨
      Lasting torrentsPath { saving with files := deleteFile saving.files path }
        pick.infoHash := by
  have copied : Lasting torrentsPath saving pick.infoHash →
      Lasting torrentsPath { saving with files := deleteFile saving.files path }
        pick.infoHash := by
    rintro ⟨saved, lasts⟩
    refine ⟨?_, lasts⟩
    have other : torrentFile torrentsPath pick.infoHash ≠ path :=
      (ne_savedFile torrentsPath path elsewhere torrentSuffix (by decide) _).symm
    rw [SavedTorrents.saved] at saved ⊢
    rw [fileExists_deleteFile, saved, Bool.and_true]
    simpa using other
  by_cases here : pick.path = path
  · exact .inr (copied (careful here))
  · refine kept.imp (fun present => ?_) copied
    rw [readFile] at present ⊢
    rw [lookup_deleteFile_of_ne _ _ _ here]
    exact present

/-- Adding a torrent touches no file and queues no removal. -/
theorem kept_of_add (saving : SavedTorrents.State γ) (infoHash : InfoHash) (pick : Pick γ)
    (outside : isEntryOf torrentsPath pick.path = false)
    (kept : readFile saving.files pick.path = some pick.content ∨
      Lasting torrentsPath saving pick.infoHash) :
    readFile (performAdd content torrentsPath saving infoHash).files pick.path =
        some pick.content ∨
      Lasting torrentsPath (performAdd content torrentsPath saving infoHash) pick.infoHash := by
  rw [performAdd]
  cases added : SavedTorrents.step content torrentsPath saving (.add infoHash true) with
  | none => exact kept
  | some next =>
    exact kept_by_session content torrentsPath saving next _ added pick outside (by simp) kept

omit [DecidableEq γ] in
/-- A file is counted until its torrent is removed. -/
theorem counted_of_after (picked : List (Pick γ)) (event : SavedTorrents.Event γ) (pick : Pick γ)
    (counted : pick ∈ countedAfter picked event) :
    pick ∈ picked ∧ event ≠ .remove pick.infoHash := by
  cases event with
  | remove infoHash =>
    obtain ⟨before, distinct⟩ := List.mem_filter.mp counted
    refine ⟨before, fun same => ?_⟩
    cases same
    simp at distinct
  | add => exact ⟨counted, by simp⟩
  | receiveMetadata => exact ⟨counted, by simp⟩
  | handle => exact ⟨counted, by simp⟩

omit [DecidableEq γ] in
/-- An iteration picks up its own file, which is there, and deletes no other. -/
theorem invariant_check (state : State γ) (folder : Value) (path : Path)
    (iteration : Iteration (AutoAdd.Call γ))
    (checked : checkEntry plugin state.saving.files folder path = some iteration)
    (careful : isEntryOf torrentsPath path = false) (invariant : Invariant torrentsPath state) :
    Invariant torrentsPath { state with
      calls := iteration.effects
      picked := picksOf state.saving.files path iteration.effects ++ state.picked } := by
  constructor
  · intro deleted later
    rw [delete_of_checkEntry plugin state.saving.files folder path iteration checked deleted later]
    exact careful
  · intro pick picked
    rcases List.mem_append.mp picked with new | before
    · rw [(picked_here _ _ _ pick new).1]
      exact careful
    · exact invariant.outside pick before
  · intro pick picked
    rcases List.mem_append.mp picked with new | before
    · obtain ⟨here, read⟩ := picked_here _ _ _ pick new
      exact .inl (by rw [here]; exact read)
    · exact invariant.kept pick before

/-- Every careful step keeps it. -/
theorem invariant_step (state : State γ) (event : Event γ) (next : State γ)
    (invariant : Invariant torrentsPath state) (careful : Careful torrentsPath state event)
    (stepped : step plugin content torrentsPath state event = some next) :
    Invariant torrentsPath next := by
  obtain ⟨deletes, outside, kept⟩ := invariant
  cases event with
  | arrive path own =>
    simp only [step, Option.ite_none_right_eq_some, Option.some.injEq] at stepped
    obtain ⟨free, rfl⟩ := stepped
    refine ⟨deletes, outside, fun pick picked => ?_⟩
    exact kept_of_arrival torrentsPath state.saving path own free pick (kept pick picked)
  | check position path =>
    simp only [step, Option.ite_none_right_eq_some] at stepped
    obtain ⟨_, stepped⟩ := stepped
    cases found : plugin.folders[position]? with
    | none => simp [found] at stepped
    | some folder =>
      cases checked : checkEntry plugin state.saving.files folder path with
      | none => simp [found, checked] at stepped
      | some iteration =>
        simp only [found, checked, Option.pure_def, Option.bind_eq_bind, Option.bind_some,
          Option.some.injEq] at stepped
        obtain rfl := stepped
        exact invariant_check plugin torrentsPath state folder path iteration checked careful
          ⟨deletes, outside, kept⟩
  | call =>
    cases queue : state.calls with
    | nil => simp [step, queue] at stepped
    | cons first rest =>
      rw [queue] at deletes
      have remaining : ∀ path, .deleteFile path ∈ rest →
          isEntryOf torrentsPath path.toList = false :=
        fun path later => deletes path (List.mem_cons_of_mem _ later)
      cases first with
      | addTorrent params =>
        simp only [step, queue, Option.some.injEq] at stepped
        obtain rfl := stepped
        exact ⟨remaining, outside, kept⟩
      | deleteFile path =>
        simp only [step, queue, Option.some.injEq] at stepped
        obtain rfl := stepped
        simp only [Careful, queue] at careful
        refine ⟨remaining, outside, fun pick picked => ?_⟩
        exact kept_of_delete torrentsPath state.saving path.toList
          (deletes path List.mem_cons_self) pick (careful pick picked) (kept pick picked)
  | perform succeeds =>
    cases queue : state.waiting with
    | nil => simp [step, queue] at stepped
    | cons infoHash rest =>
      simp only [step, queue, Option.some.injEq] at stepped
      obtain rfl := stepped
      refine ⟨deletes, outside, fun pick picked => ?_⟩
      cases succeeds with
      | false => exact kept pick picked
      | true =>
        exact kept_of_add content torrentsPath state.saving infoHash pick (outside pick picked)
          (kept pick picked)
  | session event =>
    simp only [step, Option.ite_none_right_eq_some, Option.map_eq_some_iff] at stepped
    obtain ⟨_, saving, moved, rfl⟩ := stepped
    refine ⟨deletes, fun pick counted => ?_, fun pick counted => ?_⟩
    · exact outside pick (counted_of_after state.picked event pick counted).1
    · obtain ⟨picked, stays⟩ := counted_of_after state.picked event pick counted
      exact kept_by_session content torrentsPath state.saving saving event moved pick
        (outside pick picked) stays (kept pick picked)

/-- A file that is deleted before its torrent is saved is lost at once. -/
theorem lost_of_unsaved (state next : State γ) (path : String) (rest : List (AutoAdd.Call γ))
    (calls : state.calls = .deleteFile path :: rest) (pick : Pick γ) (picked : pick ∈ state.picked)
    (here : pick.path = path.toList)
    (unsaved : SavedTorrents.saved torrentsPath state.saving.files pick.infoHash = false)
    (stepped : step plugin content torrentsPath state .call = some next) :
    ¬ NoneLost torrentsPath next := by
  simp only [step, calls, Option.some.injEq] at stepped
  obtain rfl := stepped
  intro safe
  rcases safe pick picked with present | saved
  · dsimp only at present
    rw [here, readFile_deleteFile] at present
    cases present
  · rw [SavedTorrents.saved] at saved unsaved
    dsimp only at saved
    rw [fileExists_deleteFile, unsaved, Bool.and_false] at saved
    cases saved

end Steps

/-- Before anything was picked up. -/
def State.watching (saving : SavedTorrents.State γ) : State γ := ⟨saving, [], [], []⟩

/-- In every run that deletes a file only when its torrent was saved for good
before, each file picked up is in its place or saved in every state reached, and
so at any stop. -/
theorem noneLost_of_careful (plugin : Plugin γ) (content : InfoHash → γ) (torrentsPath : Path)
    (saving : SavedTorrents.State γ) (events : List (Event γ))
    (careful : Guarded (step plugin content torrentsPath) (Careful torrentsPath)
      (.watching saving) events) :
    Always (step plugin content torrentsPath) (NoneLost torrentsPath) (.watching saving) events := by
  apply always_of_guarded (invariant_step plugin content torrentsPath) _ events _ _ careful
  · intro state invariant pick picked
    exact (invariant.kept pick picked).imp id And.left
  · constructor <;> simp [State.watching]

/-- A folder from which every file is taken, and in which every file is a torrent. -/
def taking : Plugin InfoHash where
  conversions := plainConversions
  regExp _ := some fun _ => true
  torrentInfo infoHash := some ⟨infoHash, infoHash.text⟩
  defaults := ⟨0, none, false⟩
  folders := [.object [("path", .string "watch")]]
  intervalSetting := .undefined

/-- No torrent, no alert and no file. -/
def emptySaving : SavedTorrents.State InfoHash := ⟨⟨fun _ => none, fun _ => 0⟩, [], []⟩

/-- A file in a watched folder. -/
def watchedFile : Path := "watch/a.torrent".toList

/-- The torrent is saved before its file arrives once more. -/
theorem saved_torrent_not_lost :
    Always (step taking id "torrents".toList) (NoneLost "torrents".toList) (.watching emptySaving)
      [.session (.add .ones true), .session (.handle ⟨true, .ones, some .ones⟩),
        .arrive watchedFile .ones, .check 0 watchedFile, .call, .call] := by
  apply noneLost_of_careful
  refine guarded_cons rfl trivial (guarded_cons rfl trivial (guarded_cons rfl trivial
    (guarded_cons rfl rfl (guarded_cons rfl trivial (guarded_cons rfl ?_ trivial)))))
  intro pick picked _
  obtain rfl := List.mem_singleton.mp picked
  exact ⟨rfl, List.not_mem_nil⟩

/-- The process stops, or the add fails, after the file was deleted: there is
neither the file nor a copy, and nothing is under way that would write one. -/
theorem new_torrent_lost : ∃ final,
    run (step taking id "torrents".toList) (.watching emptySaving)
      [.arrive watchedFile .ones, .check 0 watchedFile, .call, .call, .perform false] =
      some final ∧
    final.calls = [] ∧ final.waiting = [] ∧ final.saving.queued = [] ∧
    final.picked = [⟨watchedFile, .ones, .ones⟩] ∧ ¬ NoneLost "torrents".toList final := by
  refine ⟨_, rfl, rfl, rfl, rfl, rfl, ?_⟩
  intro safe
  rcases safe _ List.mem_cons_self with present | saved
  · cases present
  · cases saved

end Hadouken.AutoAddFiles
