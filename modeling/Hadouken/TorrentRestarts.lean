import Hadouken.TorrentDurability

/-!
# The set of torrents over many lifetimes of the process

A lifetime starts with the torrents that `loadTorrents` finds, whose alerts wait
in the queue then. It goes on with any steps of the session and of the handlers,
and ends with a shutdown or with a kill between two steps. The next lifetime
starts on the files that are left.

The abstract set knows adds, arriving metadata and removals alone. A restart
forgets the torrents that wait for their metadata, which have no file.
-/

namespace Hadouken.TorrentRestarts

open Files TorrentFiles Script Runs Replay LoadTorrents SaveTorrents SavedTorrents
  TorrentsDirectory TorrentDurability

variable {γ : Type}

section AbstractSet

/-- The torrents by their hash, with whether they have metadata. -/
abbrev Torrents := InfoHash → Option Bool

/-- What a step means for the set. -/
def change (torrents : Torrents) : Event γ → Torrents
  | .add infoHash hasMetadata => Function.update torrents infoHash (some hasMetadata)
  | .receiveMetadata infoHash => Function.update torrents infoHash (some true)
  | .remove infoHash => Function.update torrents infoHash none
  | .handle _ => torrents

/-- Torrents without metadata are not there on the next start. -/
def forget (torrents : Torrents) : Torrents := fun infoHash =>
  if torrents infoHash = some true then some true else none

/-- The set after lifetimes with these steps, each ended by a restart. -/
def remembered (lifetimes : List (List (Event γ))) (torrents : Torrents) : Torrents :=
  lifetimes.foldl (fun torrents events => forget (events.foldl change torrents)) torrents

/-- Where no torrent waits for metadata, none is forgotten. -/
theorem forget_of_none_waiting (torrents : Torrents)
    (none : ∀ infoHash, torrents infoHash ≠ some false) : forget torrents = torrents := by
  funext infoHash
  unfold forget
  match known : torrents infoHash with
  | .none => rfl
  | some true => rfl
  | some false => exact absurd known (none infoHash)

end AbstractSet

section Lifetimes

variable (codec : Codec γ) (defaults : Defaults) (torrentsPath : Path)

/-- The session of a new process when `loadTorrents` has returned. -/
def started (files : FileSystem γ) (listing : List Path) : State γ where
  session := {
    hasMetadata := fun infoHash =>
      if infoHash ∈ reloaded codec.toFormats defaults files listing then some true else none
    removals := fun _ => 0 }
  queued := (reloaded codec.toFormats defaults files listing).map (.torrentAdded · 0)
  files := files

/-- How a lifetime ends: `saveTorrents` is run to its end, or nothing is. -/
inductive Ending (γ : Type) where
  | killed
  | stopped (store : MetadataStore.Store) (torrents : List TorrentEntry)
      (batches : List (List (SaveAlert γ)))

/-- A process that is killed leaves its files, one that stops saves its torrents first. -/
def filesLeft (files : FileSystem γ) : Ending γ → Option (FileSystem γ)
  | .killed => some files
  | .stopped store torrents batches =>
      saveTorrents codec.print store torrentsPath torrents files batches

/-- The directory listing at the start, the steps, and the end. -/
structure Lifetime (γ : Type) where
  listing : List Path
  events : List (Event γ)
  ending : Ending γ

variable [DecidableEq γ]

/-- A lifetime that starts on some files, its last state, and the files it leaves. -/
structure Lived (files : FileSystem γ) (lifetime : Lifetime γ) (final : State γ)
    (left : FileSystem γ) : Prop where
  listed : Lists lifetime.listing torrentsPath files
  ran : run (step codec.content torrentsPath) (started codec defaults files lifetime.listing)
    lifetime.events = some final
  ended : filesLeft codec torrentsPath final.files lifetime.ending = some left

/-- Lifetimes one after the other, each with its last state. -/
inductive LivedAll : FileSystem γ → List (Lifetime γ × State γ) → FileSystem γ → Prop
  | nil (files : FileSystem γ) : LivedAll files [] files
  | cons {files left last : FileSystem γ} {lifetime : Lifetime γ} {final : State γ}
      {rest : List (Lifetime γ × State γ)}
      (first : Lived codec defaults torrentsPath files lifetime final left)
      (later : LivedAll left rest last) : LivedAll files ((lifetime, final) :: rest) last

end Lifetimes

/-- The alerts that are still queued have nothing left to do. -/
def Quiet (torrentsPath : Path) (state : State γ) : Prop :=
  ∀ alert ∈ state.queued, saved torrentsPath state.files alert.infoHash = true ↔
    state.session.hasMetadata alert.infoHash = some true

/-- The torrents with a file. -/
def standing (torrentsPath : Path) (files : FileSystem γ) : Torrents := fun infoHash =>
  if saved torrentsPath files infoHash = true then some true else none

section OneLifetime

variable (codec : Codec γ) (defaults : Defaults) (torrentsPath : Path)

/-- A new process has the torrents with a file. -/
theorem started_hasMetadata (files : FileSystem γ) (listing : List Path)
    (sound : Sound codec torrentsPath files) (listed : Lists listing torrentsPath files) :
    (started codec defaults files listing).session.hasMetadata = standing torrentsPath files := by
  funext infoHash
  simp only [started, standing,
    mem_reloaded_iff codec defaults torrentsPath files listing sound listed]

/-- Alerts about added torrents that have their files leave the set alone. -/
theorem replays_standing (session : Session) (queued : List Alert) (set final : InfoHash → Bool)
    (present : ∀ alert ∈ queued, ∃ infoHash number, alert = .torrentAdded infoHash number ∧
      set infoHash = true)
    (replay : Replays (Outcome session) queued set final) : final = set := by
  induction queued with
  | nil => exact (replays_nil_iff _ _).mp replay
  | cons alert rest ih =>
    cases replay with
    | cons first later =>
      obtain ⟨written, -, rfl⟩ := first
      obtain ⟨infoHash, number, rfl, there⟩ := present _ List.mem_cons_self
      have still : effect written (.torrentAdded infoHash number) set = set := by
        rw [effect, there, Bool.true_or, ← there]
        exact Function.update_eq_self infoHash set
      rw [still] at later
      exact ih (fun other member => present other (List.mem_cons_of_mem _ member)) later

/-- The alerts of loading are settled: each torrent that was loaded has its file. -/
theorem settled_started (files : FileSystem γ) (listing : List Path)
    (sound : Sound codec torrentsPath files) (listed : Lists listing torrentsPath files) :
    Settled torrentsPath (started codec defaults files listing) := by
  intro set replay
  have present : ∀ alert ∈ (started codec defaults files listing).queued,
      ∃ infoHash number, alert = .torrentAdded infoHash number ∧
        saved torrentsPath files infoHash = true := by
    intro alert member
    obtain ⟨infoHash, loaded, rfl⟩ := List.mem_map.mp member
    exact ⟨infoHash, 0, rfl,
      (mem_reloaded_iff codec defaults torrentsPath files listing sound listed infoHash).mp loaded⟩
  rw [replays_standing _ _ _ _ present replay]
  intro infoHash
  rw [started_hasMetadata codec defaults torrentsPath files listing sound listed, standing]
  simp

/-- The queue can be replayed, and what it is not about stays as it is. -/
theorem exists_replay (session : Session) (queued : List Alert) (set : InfoHash → Bool) :
    ∃ final, Replays (Outcome session) queued set final ∧
      ∀ infoHash, (∀ alert ∈ queued, infoHash ≠ alert.infoHash) → final infoHash = set infoHash := by
  induction queued generalizing set with
  | nil => exact ⟨set, .nil set, fun _ _ => rfl⟩
  | cons alert rest ih =>
    obtain ⟨written, allowed⟩ := exists_writes session alert
    obtain ⟨final, later, kept⟩ := ih (effect written alert set)
    refine ⟨final, .cons ⟨written, allowed, rfl⟩ later, fun infoHash apart => ?_⟩
    rw [kept infoHash fun other member => apart other (List.mem_cons_of_mem _ member),
      effect_of_ne _ _ _ _ (apart alert List.mem_cons_self)]

/-- With a settled queue, the files agree with the session exactly when the
queued alerts have nothing left to do. -/
theorem agrees_iff_quiet (state : State γ) (settled : Settled torrentsPath state) :
    Agrees state.session (saved torrentsPath state.files) ↔ Quiet torrentsPath state := by
  constructor
  · intro agreed alert _
    exact agreed alert.infoHash
  · intro quiet infoHash
    by_cases about : ∃ alert ∈ state.queued, infoHash = alert.infoHash
    · obtain ⟨alert, queued, rfl⟩ := about
      exact quiet alert queued
    · obtain ⟨final, replay, kept⟩ :=
        exists_replay state.session state.queued (saved torrentsPath state.files)
      rw [← kept infoHash fun alert queued same => about ⟨alert, queued, same⟩]
      exact settled final replay infoHash

/-- The end of a lifetime touches no torrent file and keeps the directory sound. -/
theorem filesLeft_keeps (files left : FileSystem γ) (ending : Ending γ)
    (sound : Sound codec torrentsPath files)
    (ended : filesLeft codec torrentsPath files ending = some left) :
    Sound codec torrentsPath left ∧ saved torrentsPath left = saved torrentsPath files := by
  cases ending with
  | killed =>
    cases ended
    exact ⟨sound, rfl⟩
  | stopped store torrents batches =>
    refine ⟨sound_saveTorrents codec store torrentsPath torrents files left batches sound ended, ?_⟩
    funext infoHash
    rw [saved, fileExists, lookup_torrentFile_saveTorrents _ _ _ _ _ _ _ infoHash ended]
    rfl

variable [DecidableEq γ]

/-- The session goes as the abstract set goes. -/
theorem session_run (content : InfoHash → γ) (events : List (Event γ)) (state final : State γ)
    (ran : run (step content torrentsPath) state events = some final) :
    final.session.hasMetadata = events.foldl change state.session.hasMetadata := by
  induction events generalizing state with
  | nil =>
    cases ran
    rfl
  | cons event rest ih =>
    obtain ⟨next, stepped, later⟩ := (run_cons _ _ _ _).mp ran
    have outcome := step_cases content torrentsPath state event next stepped
    have first : next.session.hasMetadata = change state.session.hasMetadata event := by
      cases event with
      | add infoHash hasMetadata =>
        obtain ⟨-, rfl⟩ := outcome
        rfl
      | receiveMetadata infoHash =>
        obtain ⟨-, rfl⟩ := outcome
        rfl
      | remove infoHash =>
        obtain ⟨-, rfl⟩ := outcome
        rfl
      | handle reads =>
        obtain ⟨alert, queue, files, -, -, rfl⟩ := outcome
        rfl
    rw [List.foldl_cons, ← first]
    exact ih next later

/-- One lifetime: it goes as the abstract set goes, and the next one starts with
what a restart remembers of it exactly when it ended quietly. -/
theorem lived_spec {files left : FileSystem γ} {lifetime : Lifetime γ} {final : State γ}
    (sound : Sound codec torrentsPath files)
    (lived : Lived codec defaults torrentsPath files lifetime final left) :
    Sound codec torrentsPath left ∧
      final.session.hasMetadata = lifetime.events.foldl change (standing torrentsPath files) ∧
      (standing torrentsPath left = forget final.session.hasMetadata ↔
        Quiet torrentsPath final) := by
  have settled := settled_run codec.content torrentsPath lifetime.events _ final
    (settled_started codec defaults torrentsPath files lifetime.listing sound lived.listed)
    lived.ran
  obtain ⟨still, same⟩ := filesLeft_keeps codec torrentsPath final.files left lifetime.ending
    (sound_run codec torrentsPath lifetime.events _ final sound lived.ran) lived.ended
  refine ⟨still, ?_, ?_⟩
  · rw [session_run torrentsPath codec.content lifetime.events _ final lived.ran,
      started_hasMetadata codec defaults torrentsPath files lifetime.listing sound lived.listed]
  · rw [← agrees_iff_quiet torrentsPath final settled, funext_iff]
    refine forall_congr' fun infoHash => ?_
    rw [standing, forget, same]
    by_cases there : saved torrentsPath final.files infoHash = true <;>
      by_cases known : final.session.hasMetadata infoHash = some true <;> simp [there, known]

end OneLifetime

/-- Over any number of lifetimes that end quietly, the session of the next start
is what the steps of all of them make of the set; and when no torrent waits for
its metadata at an end, the restarts go unnoticed. -/
theorem torrents_survive_restarts [DecidableEq γ] (codec : Codec γ) (defaults : Defaults)
    (torrentsPath : Path) (files last : FileSystem γ) (lives : List (Lifetime γ × State γ))
    (sound : Sound codec torrentsPath files)
    (lived : LivedAll codec defaults torrentsPath files lives last)
    (quiet : ∀ life ∈ lives, Quiet torrentsPath life.2)
    (listing : List Path) (listed : Lists listing torrentsPath last) :
    (started codec defaults last listing).session.hasMetadata =
        remembered (lives.map fun life => life.1.events) (standing torrentsPath files) ∧
      ((∀ life ∈ lives, ∀ infoHash, life.2.session.hasMetadata infoHash ≠ some false) →
        (started codec defaults last listing).session.hasMetadata =
          (lives.flatMap fun life => life.1.events).foldl change
            (standing torrentsPath files)) := by
  induction lived with
  | nil files =>
    have loaded := started_hasMetadata codec defaults torrentsPath files listing sound listed
    exact ⟨loaded, fun _ => loaded⟩
  | @cons files left last lifetime final rest first later ih =>
    obtain ⟨still, went, kept⟩ := lived_spec codec defaults torrentsPath sound first
    obtain ⟨right, unnoticed⟩ :=
      ih still (fun life member => quiet life (List.mem_cons_of_mem _ member)) listed
    have next := kept.mpr (quiet _ List.mem_cons_self)
    constructor
    · rw [right, next, went]
      rfl
    · intro none
      have whole := forget_of_none_waiting _ (none _ List.mem_cons_self)
      rw [unnoticed fun life member => none life (List.mem_cons_of_mem _ member), next, whole,
        went, List.flatMap_cons, List.foldl_append]

/-- A torrent is added, its alert handled, and the process killed. -/
def oneAdded : Lifetime (InfoHash ⊕ Json) where
  listing := []
  events := [.add .zero true, .handle ⟨true, .zero, some (.inl .zero)⟩]
  ending := .killed

open Classical in
/-- A torrent that is added, and one restart. -/
theorem torrents_survive_restarts_witness : ∃ final last,
    LivedAll generated ⟨0, none, false⟩ [] fresh.files [(oneAdded, final)] last ∧
      (started generated ⟨0, none, false⟩ last [torrentFile [] .zero]).session.hasMetadata =
        remembered [oneAdded.events] (standing [] fresh.files) := by
  have admissible : Admissible generated.content (fresh.session.put .zero true) .zero 0
      ⟨true, .zero, some (.inl .zero)⟩ := by
    unfold Admissible
    rw [if_pos ⟨by simp, rfl⟩]
    exact ⟨rfl, rfl, by simp [generated]⟩
  have written : saveIfValid [] ⟨true, .zero, some (.inl .zero)⟩ fresh.files =
      [(torrentFile [] .zero, .file (some (.inl .zero)))] := by
    simp [saveIfValid, saveTorrent, fresh, fileExists, writeFile, assign]
  have empty : started generated ⟨0, none, false⟩ [] [] = fresh := by
    simp [started, fresh, reloaded, AbortingLoop.effects]
  let final : State (InfoHash ⊕ Json) := ⟨fresh.session.put .zero true, [],
    saveIfValid [] ⟨true, .zero, some (.inl .zero)⟩ fresh.files⟩
  have ran : run (step generated.content []) (started generated ⟨0, none, false⟩ [] [])
      oneAdded.events = some final := by
    rw [empty, oneAdded, run_cons]
    refine ⟨⟨fresh.session.put .zero true, [.torrentAdded .zero 0], fresh.files⟩, rfl, ?_⟩
    simp [run, step, handle, admissible, final]
  have lived : LivedAll generated ⟨0, none, false⟩ [] fresh.files [(oneAdded, final)]
      final.files := .cons ⟨fun path => Iff.rfl, ran, rfl⟩ (.nil _)
  refine ⟨final, final.files, lived, ?_⟩
  refine (torrents_survive_restarts generated ⟨0, none, false⟩ [] _ _ _ (sound_nil generated [])
    lived ?_ _ ?_).1
  · intro life member alert queued
    obtain rfl := List.mem_singleton.mp member
    cases queued
  · intro path
    rw [show final.files = _ from written]
    have entry := isEntryOf_savedFile torrentSuffix [] .zero (by decide)
    simp only [getFiles, List.map_cons, List.map_nil]
    rw [List.filter_cons_of_pos (by exact entry), List.filter_nil]

end Hadouken.TorrentRestarts
