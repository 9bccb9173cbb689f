import Hadouken.TorrentsDirectory
import Mathlib.Data.List.Induction

/-!
# The set of torrents across a shutdown

Torrents are added from files and removed while alerts wait to be handled. At a
shutdown the alerts still queued are lost, resume data is saved, and the next
start loads what the torrents directory holds.

The session and its handlers are those of the running machine. The moment of
the shutdown is the end of its run, so that it falls between any two steps.
-/

namespace Hadouken.TorrentDurability

open Files TorrentFiles Script AbortingLoop Runs LoadTorrents SaveTorrents SavedTorrents
  TorrentsDirectory

variable {γ : Type}

/-- The hashes `loadTorrents` adds, over a listing of the torrents directory. -/
def reloaded (formats : Formats γ) (defaults : Defaults) (files : FileSystem γ)
    (listing : List Path) : List InfoHash :=
  (effects (loadTorrent formats defaults files) listing).flatten.filterMap fun params =>
    params.torrent.map TorrentInfo.infoHash

/-- The next start adds the torrents that were there with metadata, and no other. -/
def Durable (session : Session) (reloaded : List InfoHash) : Prop :=
  ∀ infoHash, infoHash ∈ reloaded ↔ session.hasMetadata infoHash = some true

/-- Adds from torrent files, removals, and the handling of alerts. -/
def FromFiles : Event γ → Prop
  | .add _ hasMetadata => hasMetadata = true
  | .receiveMetadata _ => False
  | .remove _ | .handle _ => True

/-- The last alert in the queue about a hash. -/
def lastAbout (queued : List Alert) (infoHash : InfoHash) : Option Alert :=
  (queued.filter fun alert => alert.infoHash = infoHash).getLast?

/-- Whether a torrent file stands after the alert about a torrent with metadata
is handled. -/
def leavesFile : Alert → Bool
  | .torrentAdded _ _ | .metadataReceived _ _ => true
  | .torrentRemoved _ => false

/-- For each hash with alerts in the queue, the file stands already as the last
of them will leave it. -/
def PendingDone (torrentsPath : Path) (state : State γ) : Prop :=
  ∀ infoHash alert, lastAbout state.queued infoHash = some alert →
    saved torrentsPath state.files infoHash = leavesFile alert

/-- The loaded torrents are the saved ones. -/
theorem mem_reloaded_iff (codec : Codec γ) (defaults : Defaults) (torrentsPath : Path)
    (files : FileSystem γ) (listing : List Path) (sound : Sound codec torrentsPath files)
    (listed : Lists listing torrentsPath files) (infoHash : InfoHash) :
    infoHash ∈ reloaded codec.toFormats defaults files listing ↔
      saved torrentsPath files infoHash = true := by
  simp only [reloaded, List.mem_filterMap,
    added_iff_saved codec defaults torrentsPath files listing sound listed]
  constructor
  · rintro ⟨params, ⟨other, present, built⟩, same⟩
    rw [torrent_of_readParams codec defaults torrentsPath files sound other present params built,
      Option.map_some, codec.info_infoHash] at same
    obtain rfl := Option.some.inj same
    exact present
  · intro present
    obtain ⟨params, built⟩ := Option.isSome_iff_exists.mp
      ((readParams_isSome_iff codec.toFormats defaults files _).mpr
        (wellFormed_of_sound codec torrentsPath files sound infoHash present))
    refine ⟨params, ⟨infoHash, present, built⟩, ?_⟩
    rw [torrent_of_readParams codec defaults torrentsPath files sound infoHash present params built,
      Option.map_some, codec.info_infoHash]

/-- The last alert about a hash decides on its file, when every save finds
metadata. The induction takes alerts from the end of the queue. -/
theorem foldl_effect (queued : List Alert) (set : InfoHash → Bool) (infoHash : InfoHash) :
    queued.foldl (fun set alert => effect true alert set) set infoHash =
      match lastAbout queued infoHash with
      | some alert => leavesFile alert
      | none => set infoHash := by
  induction queued using List.reverseRecOn with
  | nil => rfl
  | append_singleton before alert ih =>
    rw [List.foldl_append, List.foldl_cons, List.foldl_nil]
    by_cases about : infoHash = alert.infoHash
    · have last : lastAbout (before ++ [alert]) infoHash = some alert := by
        simp [lastAbout, List.filter_append, about]
      rw [last, about]
      cases alert <;> simp [effect, leavesFile, Alert.infoHash]
    · have same : lastAbout (before ++ [alert]) infoHash = lastAbout before infoHash := by
        simp [lastAbout, List.filter_append, Ne.symm about]
      rw [effect_of_ne _ _ _ _ about, ih, same]

/-- No alert is queued about a torrent that waits for its metadata. -/
def NoneWaiting (state : State γ) : Prop :=
  ∀ alert ∈ state.queued, state.session.hasMetadata alert.infoHash ≠ some false

/-- Some replay of the queue finds metadata for every save. -/
theorem replays_effect (session : Session) (queued : List Alert) (set : InfoHash → Bool)
    (writes : ∀ alert ∈ queued, Writes session true alert) :
    Replay.Replays (Outcome session) queued set
      (queued.foldl (fun set alert => effect true alert set) set) := by
  induction queued generalizing set with
  | nil => exact .nil set
  | cons alert rest ih =>
    have first : Outcome session alert set (effect true alert set) :=
      ⟨true, writes alert List.mem_cons_self, rfl⟩
    exact .cons first (ih _ fun later member => writes later (List.mem_cons_of_mem _ member))

section Runs

variable [DecidableEq γ]

/-- A step that is no metadata arrival and adds from files alone keeps it so. -/
theorem noneWaiting_step (content : InfoHash → γ) (torrentsPath : Path) (state : State γ)
    (event : Event γ) (next : State γ) (noneWaiting : NoneWaiting state)
    (fromFiles : FromFiles event) (stepped : step content torrentsPath state event = some next) :
    NoneWaiting next := by
  have outcome := step_cases content torrentsPath state event next stepped
  cases event with
  | add infoHash hasMetadata =>
    obtain ⟨absent, rfl⟩ := outcome
    obtain rfl : hasMetadata = true := fromFiles
    intro alert member
    by_cases about : alert.infoHash = infoHash
    · simp [about]
    · rw [Session.put_hasMetadata_of_ne _ _ _ _ about]
      rcases List.mem_append.mp member with before | new
      · exact noneWaiting alert before
      · obtain rfl := List.mem_singleton.mp new
        exact absurd rfl about
  | receiveMetadata infoHash => exact absurd fromFiles id
  | remove infoHash =>
    obtain ⟨present, rfl⟩ := outcome
    intro alert member
    by_cases about : alert.infoHash = infoHash
    · simp [about, Session.drop]
    · have unchanged : (state.session.drop infoHash).hasMetadata alert.infoHash =
          state.session.hasMetadata alert.infoHash := Function.update_of_ne about _ _
      rw [unchanged]
      rcases List.mem_append.mp member with before | new
      · exact noneWaiting alert before
      · obtain rfl := List.mem_singleton.mp new
        exact absurd rfl about
  | handle reads =>
    obtain ⟨alert, rest, files, queue, -, rfl⟩ := outcome
    intro later member
    apply noneWaiting later
    rw [queue]
    exact List.mem_cons_of_mem _ member

/-- At the end of every run from files alone, the queue would bring the saved
set into agreement with the session if it were still handled. -/
theorem pending_agrees (content : InfoHash → γ) (torrentsPath : Path) (events : List (Event γ))
    (start final : State γ) (idle : start.queued = [])
    (agreed : Agrees start.session (saved torrentsPath start.files))
    (fromFiles : ∀ event ∈ events, FromFiles event)
    (ran : run (step content torrentsPath) start events = some final) :
    Agrees final.session
      (final.queued.foldl (fun set alert => effect true alert set)
        (saved torrentsPath final.files)) := by
  have settled := settled_run content torrentsPath events start final
    ((settled_iff_agrees torrentsPath start idle).mpr agreed) ran
  have noneWaiting : NoneWaiting final :=
    guarded_invariant (noneWaiting_step content torrentsPath) events start final
      (by simp [NoneWaiting, idle]) (guarded_of_forall events start fromFiles) ran
  apply settled
  apply replays_effect
  intro alert member
  have known := noneWaiting alert member
  cases alert with
  | torrentRemoved infoHash => trivial
  | torrentAdded infoHash number =>
    rintro ⟨present, _⟩
    obtain ⟨hasMetadata, found⟩ := Option.isSome_iff_exists.mp present
    simp_all [Alert.infoHash]
  | metadataReceived infoHash number =>
    rintro ⟨present, _⟩
    obtain ⟨hasMetadata, found⟩ := Option.isSome_iff_exists.mp present
    simp_all [Alert.infoHash]

/-- A run from an agreeing, sound directory, cut by a shutdown at its end: the
set of torrents survives exactly when the alerts that are lost had nothing left
to do. -/
theorem durable_iff_pendingDone (codec : Codec γ) (defaults : Defaults) (torrentsPath : Path)
    (events : List (Event γ)) (start final : State γ) (idle : start.queued = [])
    (agreed : Agrees start.session (saved torrentsPath start.files))
    (sound : Sound codec torrentsPath start.files)
    (fromFiles : ∀ event ∈ events, FromFiles event)
    (ran : run (step codec.content torrentsPath) start events = some final)
    (store : MetadataStore.Store) (torrents : List TorrentEntry)
    (batches : List (List (SaveAlert γ))) (files : FileSystem γ)
    (ended : saveTorrents codec.print store torrentsPath torrents final.files batches = some files)
    (listing : List Path) (listed : Lists listing torrentsPath files) :
    Durable final.session (reloaded codec.toFormats defaults files listing) ↔
      PendingDone torrentsPath final := by
  have kept : ∀ infoHash, saved torrentsPath files infoHash =
      saved torrentsPath final.files infoHash := by
    intro infoHash
    simp only [saved, fileExists,
      lookup_torrentFile_saveTorrents _ _ _ _ _ _ _ infoHash ended]
  have soundFiles : Sound codec torrentsPath files :=
    sound_saveTorrents codec store torrentsPath torrents final.files files batches
      (sound_run codec torrentsPath events start final sound ran) ended
  have agreeing := pending_agrees codec.content torrentsPath events start final idle agreed
    fromFiles ran
  have loaded : ∀ infoHash, infoHash ∈ reloaded codec.toFormats defaults files listing ↔
      saved torrentsPath final.files infoHash = true := by
    intro infoHash
    rw [mem_reloaded_iff codec defaults torrentsPath files listing soundFiles listed, kept]
  simp only [Durable, loaded, ← agreeing _, foldl_effect]
  constructor
  · intro durable infoHash alert last
    have decided := durable infoHash
    rw [last] at decided
    exact Bool.eq_iff_iff.mpr decided
  · intro done infoHash
    cases last : lastAbout final.queued infoHash with
    | none => rfl
    | some alert => rw [done infoHash alert last]

end Runs

section Shutdowns

/-- No torrent in the session, and nothing on disk. -/
def fresh : State (InfoHash ⊕ Json) where
  session := { hasMetadata := fun _ => none, removals := fun _ => 0 }
  queued := []
  files := []

/-- A fresh installation agrees with its session. -/
theorem agrees_fresh : Agrees fresh.session (saved [] fresh.files) := by
  intro infoHash
  simp [saved, fresh, fileExists]

open Classical in
/-- One torrent is added and its alert handled before the shutdown. -/
theorem handled_add_durable : ∃ final,
    run (step generated.content []) fresh
      [.add .zero true, .handle ⟨true, .zero, some (.inl .zero)⟩] = some final ∧
    Durable final.session
      (reloaded generated.toFormats ⟨0, none, false⟩ final.files [torrentFile [] .zero]) := by
  have admissible : Admissible generated.content (fresh.session.put .zero true) .zero 0
      ⟨true, .zero, some (.inl .zero)⟩ := by
    unfold Admissible
    rw [if_pos ⟨by simp, rfl⟩]
    exact ⟨rfl, rfl, by simp [generated]⟩
  have written : saveIfValid [] ⟨true, .zero, some (.inl .zero)⟩ fresh.files =
      [(torrentFile [] .zero, .file (some (.inl .zero)))] := by
    simp [saveIfValid, saveTorrent, fresh, fileExists, writeFile, assign]
  have ran : run (step generated.content []) fresh
      [.add .zero true, .handle ⟨true, .zero, some (.inl .zero)⟩] =
        some ⟨fresh.session.put .zero true, [], saveIfValid [] ⟨true, .zero, some (.inl .zero)⟩
          fresh.files⟩ := by
    rw [run_cons]
    refine ⟨⟨fresh.session.put .zero true, [.torrentAdded .zero 0], fresh.files⟩, rfl, ?_⟩
    simp [run, step, handle, admissible]
  refine ⟨_, ran, ?_⟩
  refine (durable_iff_pendingDone generated ⟨0, none, false⟩ [] _ fresh _ rfl agrees_fresh
    (sound_nil generated []) ?_ ran (fun _ => none) [] [] _ rfl _ ?_).mpr ?_
  · simp [FromFiles]
  · intro path
    rw [written]
    have entry := isEntryOf_savedFile torrentSuffix [] .zero (by decide)
    simp only [getFiles, List.map_cons, List.map_nil]
    rw [List.filter_cons_of_pos (by exact entry), List.filter_nil]
  · intro infoHash alert last
    cases last

open Classical in
/-- A torrent is added, and the shutdown comes before its alert is handled. -/
theorem unhandled_add_not_durable :
    Agrees fresh.session (saved [] fresh.files) ∧ Sound generated [] fresh.files ∧
    ∃ final files, run (step generated.content []) fresh [.add .zero true] = some final ∧
      saveTorrents generated.print (fun _ => none) [] [⟨.zero, true, true, false⟩] final.files [] =
        some files ∧
      Lists [] [] files ∧
      ¬ Durable final.session (reloaded generated.toFormats ⟨0, none, false⟩ files []) := by
  refine ⟨agrees_fresh, (sound_nil generated []), _, _, rfl, rfl, ?_, ?_⟩
  · intro path
    exact Iff.rfl
  · intro durable
    have member := (durable .zero).mpr (Session.put_hasMetadata_self _ _ _)
    cases member

end Shutdowns

end Hadouken.TorrentDurability
