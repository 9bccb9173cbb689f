import Hadouken.LoadTorrents
import Hadouken.SaveTorrents
import Hadouken.SavedTorrents

/-!
# A torrents directory that the program wrote

The invariant under which the next start can load what was saved: every torrent
file is the one of its hash, and every companion that load looks for can be
read. The handlers keep it, and so does saving at shutdown.
-/

namespace Hadouken.TorrentsDirectory

open Files TorrentFiles Script LoadTorrents AbortingLoop

variable {γ : Type}

/-- The formats of what is written and read back. The torrent file generated for
a hash is parsed to a torrent with this hash, and what is printed as JSON can be
parsed. -/
structure Codec (γ : Type) extends Formats γ where
  content : InfoHash → γ
  print : Json → γ
  info : InfoHash → TorrentInfo
  info_infoHash : ∀ infoHash, (info infoHash).infoHash = infoHash
  torrentInfo_content : ∀ infoHash, torrentInfo (content infoHash) = some (info infoHash)
  parseJson_print : ∀ document, (parseJson (print document)).isSome = true

/-- Contents as what they were generated from. -/
def generated : Codec (InfoHash ⊕ Json) where
  torrentInfo
    | .inl infoHash => some ⟨infoHash, infoHash.text⟩
    | .inr _ => none
  parseJson
    | .inl _ => none
    | .inr document => some document
  content := .inl
  print := .inr
  info infoHash := ⟨infoHash, infoHash.text⟩
  info_infoHash _ := rfl
  torrentInfo_content _ := rfl
  parseJson_print _ := rfl

/-- A directory that the program wrote: torrent files under their own hashes, and
companions of its own. -/
structure Sound (codec : Codec γ) (torrentsPath : Path) (files : FileSystem γ) : Prop where
  listed : ∀ path node, files.lookup path = some node → isEntryOf torrentsPath path = true →
    isTorrentFile path = true → ∃ infoHash, path = torrentFile torrentsPath infoHash
  stored : ∀ infoHash node, files.lookup (torrentFile torrentsPath infoHash) = some node →
    node = .file (some (codec.content infoHash))
  metadata : ∀ infoHash text,
    files.lookup (metadataFileOf (torrentFile torrentsPath infoHash)) = some (.file text) →
    ∃ own document, text = some own ∧ codec.parseJson own = some document
  resume : ∀ infoHash data,
    files.lookup (resumeFile torrentsPath infoHash) = some (.file data) → ∃ own, data = some own

/-- Taking entries away keeps a directory sound. -/
theorem sound_of_fewer (codec : Codec γ) (torrentsPath : Path) (files fewer : FileSystem γ)
    (sound : Sound codec torrentsPath files)
    (kept : ∀ path, fewer.lookup path = files.lookup path ∨ fewer.lookup path = none) :
    Sound codec torrentsPath fewer := by
  have before : ∀ path node, fewer.lookup path = some node → files.lookup path = some node := by
    intro path node found
    rcases kept path with same | gone
    · rw [← same]
      exact found
    · rw [gone] at found
      cases found
  constructor
  · intro path node found entry torrent
    exact sound.listed path node (before path node found) entry torrent
  · intro infoHash node found
    exact sound.stored infoHash node (before _ node found)
  · intro infoHash text found
    exact sound.metadata infoHash text (before _ _ found)
  · intro infoHash data found
    exact sound.resume infoHash data (before _ _ found)

/-- Writing a file keeps a directory sound when a torrent file is given its own
content, and metadata is given JSON. -/
theorem sound_writeFile (codec : Codec γ) (torrentsPath path : Path) (content : γ)
    (files : FileSystem γ) (sound : Sound codec torrentsPath files)
    (named : isTorrentFile path = true → ∃ infoHash, path = torrentFile torrentsPath infoHash)
    (own : ∀ infoHash, torrentFile torrentsPath infoHash = path →
      content = codec.content infoHash)
    (json : ∀ infoHash, metadataFileOf (torrentFile torrentsPath infoHash) = path →
      ∃ document, codec.parseJson content = some document) :
    Sound codec torrentsPath (writeFile files path content) := by
  have written : ∀ other node, (writeFile files path content).lookup other = some node →
      (other = path ∧ node = .file (some content)) ∨ files.lookup other = some node := by
    intro other node found
    rw [writeFile, lookup_assign] at found
    by_cases here : other = path
    · rw [if_pos here] at found
      exact .inl ⟨here, (Option.some.inj found).symm⟩
    · rw [if_neg here] at found
      exact .inr found
  constructor
  · intro other node found entry torrent
    obtain ⟨rfl, _⟩ | before := written other node found
    · exact named torrent
    · exact sound.listed other node before entry torrent
  · intro infoHash node found
    obtain ⟨here, rfl⟩ | before := written _ node found
    · rw [own infoHash here]
    · exact sound.stored infoHash node before
  · intro infoHash text found
    obtain ⟨here, stands⟩ | before := written _ _ found
    · obtain ⟨document, parsed⟩ := json infoHash here
      exact ⟨content, document, by simpa using stands, parsed⟩
    · exact sound.metadata infoHash text before
  · intro infoHash data found
    obtain ⟨_, stands⟩ | before := written _ _ found
    · exact ⟨content, by simpa using stands⟩
    · exact sound.resume infoHash data before

/-- An empty directory is one. -/
theorem sound_nil (codec : Codec γ) (torrentsPath : Path) : Sound codec torrentsPath [] := by
  constructor <;> simp

/-- Writing the torrent file of a hash keeps a directory sound. -/
theorem sound_writeTorrent (codec : Codec γ) (torrentsPath : Path) (files : FileSystem γ)
    (sound : Sound codec torrentsPath files) (infoHash : InfoHash) :
    Sound codec torrentsPath
      (writeFile files (torrentFile torrentsPath infoHash) (codec.content infoHash)) := by
  apply sound_writeFile codec torrentsPath _ _ files sound
  · intro _
    exact ⟨infoHash, rfl⟩
  · intro other same
    rw [(torrentFile_inj _ _ _).mp same]
  · intro other same
    exact absurd same (metadataFileOf_ne_torrentFile _ _ _)

/-- Deleting a file takes at most one entry away. -/
theorem sound_deleteIfExists (codec : Codec γ) (torrentsPath path : Path) (files : FileSystem γ)
    (sound : Sound codec torrentsPath files) :
    Sound codec torrentsPath (SavedTorrents.deleteIfExists path files) := by
  apply sound_of_fewer codec torrentsPath files _ sound
  intro other
  unfold SavedTorrents.deleteIfExists deleteFile
  by_cases present : fileExists files path = true
  · simp only [present, if_true]
    rw [lookup_filter_ne]
    by_cases here : other = path <;> simp [here]
  · simp [present]

section Handlers

variable [DecidableEq γ]

omit [DecidableEq γ] in
/-- Torrent info that a handler may read is the content of the torrent that the
alert is about. -/
theorem content_of_admissible (content : InfoHash → γ) (session : SavedTorrents.Session)
    (infoHash : InfoHash) (number : Nat) (reads : SavedTorrents.HandleReads γ)
    (admissible : SavedTorrents.Admissible content session infoHash number reads) (buffer : γ)
    (found : reads.info = some buffer) :
    reads.infoHash = infoHash ∧ buffer = content infoHash := by
  unfold SavedTorrents.Admissible at admissible
  by_cases current : session.Current infoHash number
  · rw [if_pos current] at admissible
    obtain ⟨_, read, info⟩ := admissible
    rw [found] at info
    split at info
    · exact ⟨read, Option.some.inj info⟩
    · cases info
  · rw [if_neg current] at admissible
    obtain ⟨read, none | own⟩ | ⟨_, none⟩ := admissible
    · rw [found] at none
      cases none
    · rw [found] at own
      exact ⟨read, Option.some.inj own⟩
    · rw [found] at none
      cases none

omit [DecidableEq γ] in
/-- Saving a torrent the handle still knows keeps the directory sound. -/
theorem sound_saveIfValid (codec : Codec γ) (torrentsPath : Path) (session : SavedTorrents.Session)
    (reads : SavedTorrents.HandleReads γ) (files : FileSystem γ)
    (sound : Sound codec torrentsPath files) (infoHash : InfoHash) (number : Nat)
    (admissible : SavedTorrents.Admissible codec.content session infoHash number reads) :
    Sound codec torrentsPath (SavedTorrents.saveIfValid torrentsPath reads files) := by
  unfold SavedTorrents.saveIfValid SavedTorrents.saveTorrent
  by_cases invalid : (!reads.isValid) = true
  · rwa [if_pos invalid]
  · rw [if_neg invalid]
    dsimp only
    split
    · exact sound
    · cases info : reads.info with
      | none => exact sound
      | some buffer =>
        obtain ⟨read, rfl⟩ :=
          content_of_admissible codec.content session infoHash number reads admissible buffer info
        rw [read]
        exact sound_writeTorrent codec torrentsPath files sound infoHash

/-- The handlers of the session's alerts keep the directory sound. -/
theorem sound_handle (codec : Codec γ) (torrentsPath : Path) (session : SavedTorrents.Session)
    (reads : SavedTorrents.HandleReads γ) (alert : SavedTorrents.Alert)
    (files next : FileSystem γ) (sound : Sound codec torrentsPath files)
    (handled : SavedTorrents.handle codec.content torrentsPath session reads alert files =
      some next) : Sound codec torrentsPath next := by
  cases alert with
  | torrentAdded infoHash number =>
    simp only [SavedTorrents.handle, Option.ite_none_right_eq_some] at handled
    obtain rfl := Option.some.inj handled.2
    exact sound_saveIfValid codec torrentsPath session reads files sound infoHash number handled.1
  | metadataReceived infoHash number =>
    simp only [SavedTorrents.handle, Option.ite_none_right_eq_some] at handled
    obtain rfl := Option.some.inj handled.2
    exact sound_saveIfValid codec torrentsPath session reads files sound infoHash number handled.1
  | torrentRemoved infoHash =>
    obtain rfl := Option.some.inj handled
    unfold SavedTorrents.removeSaved
    apply sound_deleteIfExists
    apply sound_deleteIfExists
    exact sound_deleteIfExists _ _ _ _ sound

/-- Every step keeps the directory sound: only handling an alert touches it. -/
theorem sound_step (codec : Codec γ) (torrentsPath : Path) (state : SavedTorrents.State γ)
    (event : SavedTorrents.Event γ) (next : SavedTorrents.State γ)
    (sound : Sound codec torrentsPath state.files)
    (stepped : SavedTorrents.step codec.content torrentsPath state event = some next) :
    Sound codec torrentsPath next.files := by
  have outcome := SavedTorrents.step_cases codec.content torrentsPath state event next stepped
  cases event with
  | handle reads =>
    obtain ⟨alert, rest, files, -, handled, rfl⟩ := outcome
    exact sound_handle codec torrentsPath state.session reads alert _ _ sound handled
  | _ =>
    obtain ⟨_, rfl⟩ := outcome
    exact sound

/-- Every run keeps the directory sound. -/
theorem sound_run (codec : Codec γ) (torrentsPath : Path)
    (events : List (SavedTorrents.Event γ)) (start final : SavedTorrents.State γ)
    (sound : Sound codec torrentsPath start.files)
    (ran : Runs.run (SavedTorrents.step codec.content torrentsPath) start events = some final) :
    Sound codec torrentsPath final.files :=
  Runs.run_invariant (sound_step codec torrentsPath) events start final sound ran

end Handlers

/-- Writing resume data keeps a directory sound. -/
theorem sound_writeResume (codec : Codec γ) (torrentsPath : Path) (files : FileSystem γ)
    (sound : Sound codec torrentsPath files) (infoHash : InfoHash) (buffer : γ) :
    Sound codec torrentsPath (writeFile files (resumeFile torrentsPath infoHash) buffer) := by
  apply sound_writeFile codec torrentsPath _ _ files sound
  · intro torrent
    rw [not_isTorrentFile_resumeFile] at torrent
    cases torrent
  · intro other same
    exact absurd same (torrentFile_ne_resumeFile _ _ _)
  · intro other same
    exact absurd same (metadataFileOf_ne_resumeFile _ _ _)

/-- Writing a torrent's metadata keeps a directory sound. -/
theorem sound_writeMetadata (codec : Codec γ) (store : MetadataStore.Store) (torrentsPath : Path)
    (files : FileSystem γ) (sound : Sound codec torrentsPath files) (infoHash : InfoHash)
    (text : γ) (own : SaveTorrents.metadataText codec.print store infoHash = some text) :
    Sound codec torrentsPath (writeFile files (metadataFile torrentsPath infoHash) text) := by
  apply sound_writeFile codec torrentsPath _ _ files sound
  · intro torrent
    rw [not_isTorrentFile_metadataFile] at torrent
    cases torrent
  · intro other same
    exact absurd same (torrentFile_ne_metadataFile _ _ _)
  · intro other _
    simp only [SaveTorrents.metadataText, Option.ite_none_right_eq_some,
      Option.map_eq_some_iff] at own
    obtain ⟨_, document, _, rfl⟩ := own
    exact Option.isSome_iff_exists.mp (codec.parseJson_print document)

/-- Each alert of the saving loop keeps the directory sound. -/
theorem sound_handleAlert (codec : Codec γ) (store : MetadataStore.Store) (torrentsPath : Path)
    (saving : SaveTorrents.Saving γ) (alert : SaveTorrents.SaveAlert γ)
    (sound : Sound codec torrentsPath saving.files) :
    Sound codec torrentsPath
      (SaveTorrents.handleAlert codec.print store torrentsPath saving alert).files := by
  cases alert with
  | saveResumeData infoHash resumeData =>
    cases resumeData with
    | none => exact sound
    | some buffer =>
      unfold SaveTorrents.handleAlert
      apply sound_writeResume
      split
      · rename_i text own
        exact sound_writeMetadata codec store torrentsPath _ sound infoHash text own
      · exact sound
  | _ => exact sound

/-- Saving at shutdown keeps the directory sound. -/
theorem sound_saveTorrents (codec : Codec γ) (store : MetadataStore.Store) (torrentsPath : Path)
    (torrents : List SaveTorrents.TorrentEntry) (files saved : FileSystem γ)
    (batches : List (List (SaveTorrents.SaveAlert γ))) (sound : Sound codec torrentsPath files)
    (ended : SaveTorrents.saveTorrents codec.print store torrentsPath torrents files batches =
      some saved) : Sound codec torrentsPath saved := by
  have all : ∀ (alerts : List (SaveTorrents.SaveAlert γ)) (saving : SaveTorrents.Saving γ),
      Sound codec torrentsPath saving.files →
      Sound codec torrentsPath
        (alerts.foldl (SaveTorrents.handleAlert codec.print store torrentsPath) saving).files := by
    intro alerts
    induction alerts with
    | nil => exact fun _ before => before
    | cons alert rest ih =>
      intro saving before
      exact ih _ (sound_handleAlert codec store torrentsPath saving alert before)
  rw [SaveTorrents.awaitAlerts_eq_foldl codec.print store torrentsPath batches _ saved ended]
  exact all _ _ sound

/-- In a sound directory every torrent file can be loaded with its companions. -/
theorem wellFormed_of_sound (codec : Codec γ) (torrentsPath : Path) (files : FileSystem γ)
    (sound : Sound codec torrentsPath files) (infoHash : InfoHash)
    (present : fileExists files (torrentFile torrentsPath infoHash) = true) :
    WellFormed codec.toFormats files (torrentFile torrentsPath infoHash) := by
  have found : files.lookup (torrentFile torrentsPath infoHash) =
      some (.file (some (codec.content infoHash))) := by
    unfold fileExists at present
    cases node : files.lookup (torrentFile torrentsPath infoHash) with
    | none => simp [node] at present
    | some own => rw [sound.stored infoHash own node]
  have fileAt : ∀ path, fileExists files path = true →
      ∃ text, files.lookup path = some (.file text) := by
    intro path exists_
    unfold fileExists at exists_
    cases node : files.lookup path with
    | none => simp [node] at exists_
    | some own =>
      cases own with
      | file text => exact ⟨text, rfl⟩
      | directory => simp [node] at exists_
  constructor
  · exact ⟨codec.info infoHash, by simp [readTorrent, found, codec.torrentInfo_content]⟩
  · intro companion
    obtain ⟨text, stands⟩ := fileAt _ companion
    obtain ⟨own, document, rfl, parsed⟩ := sound.metadata infoHash text stands
    exact ⟨own, document, by simp [readFile, stands], parsed⟩
  · rw [resumeFileOf_torrentFile]
    intro companion
    obtain ⟨data, stands⟩ := fileAt _ companion
    obtain ⟨own, rfl⟩ := sound.resume infoHash data stands
    exact ⟨own, by simp [readFile, stands]⟩

/-- A listing names every entry of the directory, and nothing else. -/
def Lists (listing : List Path) (torrentsPath : Path) (files : FileSystem γ) : Prop :=
  ∀ path, path ∈ listing ↔ path ∈ getFiles files torrentsPath

/-- From a sound directory the loop of the next start adds exactly the saved
torrents, each with the parameters read from its files. -/
theorem added_iff_saved (codec : Codec γ) (defaults : Defaults) (torrentsPath : Path)
    (files : FileSystem γ) (listing : List Path) (sound : Sound codec torrentsPath files)
    (listed : Lists listing torrentsPath files) (params : AddTorrentParams γ) :
    params ∈ (effects (loadTorrent codec.toFormats defaults files) listing).flatten ↔
      ∃ infoHash, SavedTorrents.saved torrentsPath files infoHash = true ∧
        readParams codec.toFormats defaults files (torrentFile torrentsPath infoHash) =
          some params := by
  have named : ∀ file ∈ listing, isTorrentFile file = true →
      ∃ infoHash, file = torrentFile torrentsPath infoHash ∧
        SavedTorrents.saved torrentsPath files infoHash = true := by
    intro file member torrent
    obtain ⟨present, entry⟩ := (mem_getFiles_iff files torrentsPath file).mp ((listed file).mp member)
    obtain ⟨node, found⟩ := Option.isSome_iff_exists.mp present
    obtain ⟨infoHash, rfl⟩ := sound.listed file node found entry torrent
    refine ⟨infoHash, rfl, ?_⟩
    obtain rfl := sound.stored infoHash node found
    simp [SavedTorrents.saved, fileExists, found]
  have complete : completes (loadTorrent codec.toFormats defaults files) listing = true := by
    rw [completes_iff]
    intro file member torrent
    obtain ⟨infoHash, rfl, present⟩ := named file member torrent
    exact wellFormed_of_sound codec torrentsPath files sound infoHash present
  rw [mem_effects_of_completes _ _ _ _ complete]
  constructor
  · rintro ⟨file, member, torrent, built⟩
    obtain ⟨infoHash, rfl, present⟩ := named file member torrent
    exact ⟨infoHash, present, built⟩
  · rintro ⟨infoHash, present, built⟩
    refine ⟨_, ?_, isTorrentFile_torrentFile torrentsPath infoHash, built⟩
    rw [listed, mem_getFiles_iff]
    refine ⟨?_, isEntryOf_savedFile torrentSuffix torrentsPath infoHash (by decide)⟩
    unfold SavedTorrents.saved fileExists at present
    cases found : files.lookup (torrentFile torrentsPath infoHash) with
    | none => simp [found] at present
    | some node => rfl

/-- The torrent added for a saved hash has that hash. -/
theorem torrent_of_readParams (codec : Codec γ) (defaults : Defaults) (torrentsPath : Path)
    (files : FileSystem γ) (sound : Sound codec torrentsPath files) (infoHash : InfoHash)
    (present : SavedTorrents.saved torrentsPath files infoHash = true)
    (params : AddTorrentParams γ)
    (built : readParams codec.toFormats defaults files (torrentFile torrentsPath infoHash) =
      some params) : params.torrent = some (codec.info infoHash) := by
  obtain ⟨torrent, _⟩ := readParams_reads _ _ _ _ _ built
  rw [← torrent, readTorrent]
  unfold SavedTorrents.saved fileExists at present
  cases found : files.lookup (torrentFile torrentsPath infoHash) with
  | none => simp [found] at present
  | some node =>
    obtain rfl := sound.stored infoHash node found
    exact codec.torrentInfo_content infoHash

end Hadouken.TorrentsDirectory
