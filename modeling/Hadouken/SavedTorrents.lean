import Hadouken.Library.Replay
import Hadouken.Library.Runs
import Hadouken.TorrentFiles
import Mathlib.Logic.Function.Basic

/-!
# Torrent files and the session

The session changes at once; the file of a torrent changes only when the alert
about the change is handled, in posting order. Handlers act on the handle of
the instance an alert is about, which may be gone by then, or replaced by
another instance with the same info hash. An instance is named by its hash and
the number of removals before it.

Two layers: the handlers of core.js on a file system, and the set of saved
hashes they leave. Companion files play no part in the set. Duplicate adds,
which libtorrent refuses, and alerts without a handler here are left out.
-/

namespace Hadouken.SavedTorrents

open Files TorrentFiles Runs Replay

variable {γ : Type} [DecidableEq γ]

/-- What the reads of a torrent handle return in one handler. `info` is the
content of the torrent file made from `getTorrentInfo`, absent without metadata. -/
structure HandleReads (γ : Type) where
  isValid : Bool
  infoHash : InfoHash
  info : Option γ

/-- `saveTorrent(torrent)` of core.js. -/
def saveTorrent (torrentsPath : Path) (torrent : HandleReads γ) (files : FileSystem γ) : FileSystem γ :=
  let file := torrentFile torrentsPath torrent.infoHash
  if fileExists files file then files
  else
    match torrent.info with
    | none => files
    | some buffer => writeFile files file buffer

/-- The handlers of `torrent.added` and `torrent.metadataReceived`: both save a
valid torrent. -/
def saveIfValid (torrentsPath : Path) (torrent : HandleReads γ) (files : FileSystem γ) : FileSystem γ :=
  if !torrent.isValid then files else saveTorrent torrentsPath torrent files

/-- `fs.deleteFile` behind `fs.fileExists`. -/
def deleteIfExists (path : Path) (files : FileSystem γ) : FileSystem γ :=
  if fileExists files path then deleteFile files path else files

/-- The handler of `torrent.removed`. -/
def removeSaved (torrentsPath : Path) (infoHash : InfoHash) (files : FileSystem γ) : FileSystem γ :=
  deleteIfExists (metadataFile torrentsPath infoHash)
    (deleteIfExists (resumeFile torrentsPath infoHash)
      (deleteIfExists (torrentFile torrentsPath infoHash) files))

/-- The alerts about torrents, each with its instance. -/
inductive Alert where
  | torrentAdded (infoHash : InfoHash) (number : Nat)
  | metadataReceived (infoHash : InfoHash) (number : Nat)
  | torrentRemoved (infoHash : InfoHash)
deriving DecidableEq

/-- The torrents of the session by their hash, with whether they have metadata,
and how many with that hash were removed before. -/
structure Session where
  hasMetadata : InfoHash → Option Bool
  removals : InfoHash → Nat

/-- The session with one torrent's entry changed. -/
def Session.put (session : Session) (infoHash : InfoHash) (hasMetadata : Bool) : Session where
  hasMetadata := Function.update session.hasMetadata infoHash (some hasMetadata)
  removals := session.removals

/-- The session with one torrent removed. -/
def Session.drop (session : Session) (infoHash : InfoHash) : Session where
  hasMetadata := Function.update session.hasMetadata infoHash none
  removals := Function.update session.removals infoHash (session.removals infoHash + 1)

/-- A torrent that is put is there. -/
@[simp] theorem Session.put_hasMetadata_self (session : Session) (infoHash : InfoHash)
    (hasMetadata : Bool) :
    (session.put infoHash hasMetadata).hasMetadata infoHash = some hasMetadata :=
  Function.update_self _ _ _

/-- The others are as they were. -/
theorem Session.put_hasMetadata_of_ne (session : Session) (infoHash : InfoHash)
    (hasMetadata : Bool) (other : InfoHash) (distinct : other ≠ infoHash) :
    (session.put infoHash hasMetadata).hasMetadata other = session.hasMetadata other :=
  Function.update_of_ne distinct _ _

/-- The session, the alerts that are not handled yet, and the files. -/
structure State (γ : Type) where
  session : Session
  queued : List Alert
  files : FileSystem γ

/-- The instance is the one now in the session. -/
def Session.Current (session : Session) (infoHash : InfoHash) (number : Nat) : Prop :=
  (session.hasMetadata infoHash).isSome = true ∧ session.removals infoHash = number

/-- The session is asked. -/
instance (session : Session) (infoHash : InfoHash) (number : Nat) :
    Decidable (session.Current infoHash number) := by
  unfold Session.Current; infer_instance

/-- The reads a handle can return. A current instance is read as it is. One
that was removed may expire before any of the reads: it then is invalid, has
the zero hash, and has no metadata. -/
def Admissible (content : InfoHash → γ) (session : Session) (infoHash : InfoHash)
    (number : Nat) (reads : HandleReads γ) : Prop :=
  if session.Current infoHash number then
    reads.isValid = true ∧ reads.infoHash = infoHash ∧
      reads.info =
        if session.hasMetadata infoHash = some true then some (content infoHash) else none
  else
    (reads.infoHash = infoHash ∧ (reads.info = none ∨ reads.info = some (content infoHash))) ∨
      (reads.infoHash = .zero ∧ reads.info = none)

/-- The reads are compared with the session. -/
instance (content : InfoHash → γ) (session : Session) (infoHash : InfoHash) (number : Nat)
    (reads : HandleReads γ) : Decidable (Admissible content session infoHash number reads) := by
  unfold Admissible; infer_instance

/-- The effect of handling an alert, if the reads are possible. -/
def handle (content : InfoHash → γ) (torrentsPath : Path) (session : Session)
    (reads : HandleReads γ) : Alert → FileSystem γ → Option (FileSystem γ)
  | .torrentAdded infoHash number, files | .metadataReceived infoHash number, files =>
      if Admissible content session infoHash number reads then
        some (saveIfValid torrentsPath reads files)
      else none
  | .torrentRemoved infoHash, files => some (removeSaved torrentsPath infoHash files)

/-- What happens: the session changes, or the oldest alert is handled with
given reads. -/
inductive Event (γ : Type) where
  | add (infoHash : InfoHash) (hasMetadata : Bool)
  | receiveMetadata (infoHash : InfoHash)
  | remove (infoHash : InfoHash)
  | handle (reads : HandleReads γ)

/-- A change of the session posts its alert, and handling takes the first one. -/
def step (content : InfoHash → γ) (torrentsPath : Path) (state : State γ) :
    Event γ → Option (State γ)
  | .add infoHash hasMetadata =>
      if state.session.hasMetadata infoHash = none then
        some { state with
          session := state.session.put infoHash hasMetadata
          queued := state.queued ++
            [.torrentAdded infoHash (state.session.removals infoHash)] }
      else none
  | .receiveMetadata infoHash =>
      if state.session.hasMetadata infoHash = some false then
        some { state with
          session := state.session.put infoHash true
          queued := state.queued ++
            [.metadataReceived infoHash (state.session.removals infoHash)] }
      else none
  | .remove infoHash =>
      if (state.session.hasMetadata infoHash).isSome then
        some { state with
          session := state.session.drop infoHash
          queued := state.queued ++ [.torrentRemoved infoHash] }
      else none
  | .handle reads =>
      match state.queued with
      | [] => none
      | alert :: rest =>
          (handle content torrentsPath state.session reads alert state.files).map fun files =>
            { state with queued := rest, files := files }

/-- What each step does, and when it is possible. -/
theorem step_cases (content : InfoHash → γ) (torrentsPath : Path) (state : State γ)
    (event : Event γ) (next : State γ)
    (stepped : step content torrentsPath state event = some next) :
    match event with
    | .add infoHash hasMetadata =>
        state.session.hasMetadata infoHash = none ∧ next = { state with
          session := state.session.put infoHash hasMetadata
          queued := state.queued ++
            [.torrentAdded infoHash (state.session.removals infoHash)] }
    | .receiveMetadata infoHash =>
        state.session.hasMetadata infoHash = some false ∧ next = { state with
          session := state.session.put infoHash true
          queued := state.queued ++
            [.metadataReceived infoHash (state.session.removals infoHash)] }
    | .remove infoHash =>
        (state.session.hasMetadata infoHash).isSome ∧ next = { state with
          session := state.session.drop infoHash
          queued := state.queued ++ [.torrentRemoved infoHash] }
    | .handle reads =>
        ∃ alert rest files, state.queued = alert :: rest ∧
          handle content torrentsPath state.session reads alert state.files = some files ∧
          next = { state with queued := rest, files := files } := by
  cases event with
  | handle reads =>
    cases queue : state.queued with
    | nil => simp [step, queue] at stepped
    | cons alert rest =>
      simp only [step, queue, Option.map_eq_some_iff] at stepped
      obtain ⟨files, handled, same⟩ := stepped
      exact ⟨alert, rest, files, rfl, handled, same.symm⟩
  | _ =>
    simp only [step, Option.ite_none_right_eq_some, Option.some.injEq] at stepped
    exact ⟨stepped.1, stepped.2.symm⟩

section SavedSet

/-- The hashes with a torrent file. -/
def saved (torrentsPath : Path) (files : FileSystem γ) (infoHash : InfoHash) : Bool :=
  fileExists files (torrentFile torrentsPath infoHash)

/-- The file system agrees with the session: a torrent has its file exactly
when it is there with metadata. -/
def Agrees (session : Session) (set : InfoHash → Bool) : Prop :=
  ∀ infoHash, set infoHash = true ↔ session.hasMetadata infoHash = some true

/-- What an alert does to the set, where `written` tells whether a save finds
metadata to write. -/
def effect (written : Bool) : Alert → (InfoHash → Bool) → InfoHash → Bool
  | .torrentAdded infoHash _, set | .metadataReceived infoHash _, set =>
      Function.update set infoHash (set infoHash || written)
  | .torrentRemoved infoHash, set => Function.update set infoHash false

/-- A save for the current instance finds metadata exactly when it has any. One
for a removed instance may find some or not. -/
def Writes (session : Session) (written : Bool) : Alert → Prop
  | .torrentAdded infoHash number | .metadataReceived infoHash number =>
      session.Current infoHash number →
        (written = true ↔ session.hasMetadata infoHash = some true)
  | .torrentRemoved _ => True

/-- What handling an alert can make of the set. -/
def Outcome (session : Session) (alert : Alert) (set next : InfoHash → Bool) : Prop :=
  ∃ written, Writes session written alert ∧ next = effect written alert set

omit [DecidableEq γ] in
/-- Saving adds at most the hash that is read, and only with metadata. -/
theorem saved_saveIfValid (torrentsPath : Path) (reads : HandleReads γ) (files : FileSystem γ)
    (tested : InfoHash) :
    saved torrentsPath (saveIfValid torrentsPath reads files) tested =
      (saved torrentsPath files tested ||
        (decide (tested = reads.infoHash) && (reads.isValid && reads.info.isSome))) := by
  unfold saved saveIfValid saveTorrent
  cases valid : reads.isValid with
  | false => simp
  | true =>
    by_cases present : fileExists files (torrentFile torrentsPath reads.infoHash) = true
    · by_cases same : tested = reads.infoHash
      · simp [present, same]
      · simp [present, same]
    · cases info : reads.info with
      | none => simp [present]
      | some buffer => simp [present, fileExists_writeFile, Bool.or_comm]

omit [DecidableEq γ] in
/-- A deleted file is gone, the others are as they were. -/
theorem fileExists_deleteIfExists (path other : Path) (files : FileSystem γ) :
    fileExists (deleteIfExists path files) other =
      (!decide (other = path) && fileExists files other) := by
  unfold deleteIfExists
  by_cases present : fileExists files path = true
  · rw [if_pos present, fileExists_deleteFile]
  · rw [if_neg present]
    by_cases same : other = path
    · subst same
      simpa using present
    · simp [same]

omit [DecidableEq γ] in
/-- Removing takes out exactly one hash. -/
theorem saved_removeSaved (torrentsPath : Path) (infoHash : InfoHash) (files : FileSystem γ)
    (tested : InfoHash) :
    saved torrentsPath (removeSaved torrentsPath infoHash files) tested =
      (!decide (tested = infoHash) && saved torrentsPath files tested) := by
  simp [saved, removeSaved, fileExists_deleteIfExists]

omit [DecidableEq γ] in
/-- Saving brings the torrent into the set or leaves the set as it is; it brings
the current instance in exactly when it has its metadata. -/
theorem saved_of_admissible (content : InfoHash → γ) (torrentsPath : Path) (session : Session)
    (reads : HandleReads γ) (files : FileSystem γ) (infoHash : InfoHash) (number : Nat)
    (admissible : Admissible content session infoHash number reads) :
    ∃ written, (session.Current infoHash number →
        (written = true ↔ session.hasMetadata infoHash = some true)) ∧
      saved torrentsPath (saveIfValid torrentsPath reads files) =
        Function.update (saved torrentsPath files) infoHash
          (saved torrentsPath files infoHash || written) := by
  have writes : reads.infoHash = infoHash →
      saved torrentsPath (saveIfValid torrentsPath reads files) =
        Function.update (saved torrentsPath files) infoHash
          (saved torrentsPath files infoHash || (reads.isValid && reads.info.isSome)) := by
    intro read
    funext tested
    rw [saved_saveIfValid, read]
    by_cases same : tested = infoHash <;> simp [same]
  unfold Admissible at admissible
  by_cases current : session.Current infoHash number
  · rw [if_pos current] at admissible
    obtain ⟨valid, read, info⟩ := admissible
    refine ⟨_, fun _ => ?_, writes read⟩
    rw [valid, info]
    split <;> simp_all
  · rw [if_neg current] at admissible
    obtain ⟨read, _⟩ | ⟨_, expired⟩ := admissible
    · exact ⟨_, fun now => absurd now current, writes read⟩
    · refine ⟨false, fun now => absurd now current, ?_⟩
      funext tested
      rw [saved_saveIfValid, expired]
      by_cases same : tested = infoHash <;> simp [same]

/-- Both handlers that save do what an admissible save does. -/
theorem saved_of_saving (content : InfoHash → γ) (torrentsPath : Path) (session : Session)
    (reads : HandleReads γ) (files next : FileSystem γ) (infoHash : InfoHash) (number : Nat)
    (handled : (if Admissible content session infoHash number reads then
      some (saveIfValid torrentsPath reads files) else none) = some next) :
    ∃ written, (session.Current infoHash number →
        (written = true ↔ session.hasMetadata infoHash = some true)) ∧
      saved torrentsPath next = Function.update (saved torrentsPath files) infoHash
        (saved torrentsPath files infoHash || written) := by
  obtain ⟨admissible, same⟩ := Option.ite_none_right_eq_some.mp handled
  rw [← Option.some.inj same]
  exact saved_of_admissible content torrentsPath session reads files infoHash number admissible

/-- The handlers refine their effect on the set. -/
theorem handle_outcome (content : InfoHash → γ) (torrentsPath : Path) (session : Session)
    (reads : HandleReads γ) (alert : Alert) (files next : FileSystem γ)
    (handled : handle content torrentsPath session reads alert files = some next) :
    Outcome session alert (saved torrentsPath files) (saved torrentsPath next) := by
  cases alert with
  | torrentAdded infoHash number =>
    exact saved_of_saving content torrentsPath session reads files next infoHash number handled
  | metadataReceived infoHash number =>
    exact saved_of_saving content torrentsPath session reads files next infoHash number handled
  | torrentRemoved infoHash =>
    obtain rfl : removeSaved torrentsPath infoHash files = next := Option.some.inj handled
    refine ⟨true, trivial, ?_⟩
    funext tested
    rw [saved_removeSaved]
    by_cases same : tested = infoHash <;> simp [effect, same]

end SavedSet

/-- The hash an alert is about. -/
def Alert.infoHash : Alert → InfoHash
  | .torrentAdded infoHash _ | .metadataReceived infoHash _ | .torrentRemoved infoHash => infoHash

/-- An alert about another hash leaves a hash as it is. -/
theorem effect_of_ne (written : Bool) (alert : Alert) (set : InfoHash → Bool) (tested : InfoHash)
    (other : tested ≠ alert.infoHash) : effect written alert set tested = set tested := by
  cases alert <;> simp_all [effect, Alert.infoHash]

/-- The effect on the hash of the alert depends on that hash alone. -/
theorem effect_congr (written : Bool) (alert : Alert) (set other : InfoHash → Bool)
    (same : set alert.infoHash = other alert.infoHash) :
    effect written alert set alert.infoHash = effect written alert other alert.infoHash := by
  cases alert <;> simp_all [effect, Alert.infoHash]

/-- Some outcome is always possible. -/
theorem exists_writes (session : Session) (alert : Alert) : ∃ written, Writes session written alert := by
  cases alert with
  | torrentRemoved infoHash => exact ⟨true, trivial⟩
  | torrentAdded infoHash number =>
    exact ⟨decide (session.hasMetadata infoHash = some true), fun _ => by simp⟩
  | metadataReceived infoHash number =>
    exact ⟨decide (session.hasMetadata infoHash = some true), fun _ => by simp⟩

/-- A change of one torrent leaves the possible outcomes of alerts about the
others. -/
theorem writes_of_ne {session next : Session} {changed : InfoHash}
    (metadata : ∀ infoHash ≠ changed, next.hasMetadata infoHash = session.hasMetadata infoHash)
    (removals : ∀ infoHash ≠ changed, next.removals infoHash = session.removals infoHash)
    (written : Bool) (alert : Alert) (other : alert.infoHash ≠ changed)
    (writes : Writes next written alert) : Writes session written alert := by
  cases alert with
  | torrentRemoved infoHash => trivial
  | torrentAdded infoHash number =>
    have unchanged : infoHash ≠ changed := other
    simpa only [Writes, Session.Current, metadata _ unchanged, removals _ unchanged] using writes
  | metadataReceived infoHash number =>
    have unchanged : infoHash ≠ changed := other
    simpa only [Writes, Session.Current, metadata _ unchanged, removals _ unchanged] using writes

/-- Two sets that differ in one hash at most. -/
def AgreeOff (changed : InfoHash) (first second : InfoHash → Bool) : Prop :=
  ∀ infoHash ≠ changed, first infoHash = second infoHash

/-- After a change of one torrent the queue can do nothing to the others that it
could not do before. -/
theorem replays_off {session next : Session} {changed : InfoHash}
    (metadata : ∀ infoHash ≠ changed, next.hasMetadata infoHash = session.hasMetadata infoHash)
    (removals : ∀ infoHash ≠ changed, next.removals infoHash = session.removals infoHash)
    {queued : List Alert} {set final : InfoHash → Bool}
    (replay : Replays (Outcome next) queued set final) :
    ∃ former, Replays (Outcome session) queued set former ∧ AgreeOff changed final former := by
  have matched : ∀ alert ∈ queued, ∀ state reached other, AgreeOff changed state other →
      Outcome next alert state reached →
      ∃ otherReached, Outcome session alert other otherReached ∧
        AgreeOff changed reached otherReached := by
    rintro alert - state _ other related ⟨written, writes, rfl⟩
    by_cases about : alert.infoHash = changed
    · obtain ⟨chosen, allowed⟩ := exists_writes session alert
      refine ⟨_, ⟨chosen, allowed, rfl⟩, ?_⟩
      intro infoHash unchanged
      have elsewhere : infoHash ≠ alert.infoHash := by
        rw [about]
        exact unchanged
      rw [effect_of_ne _ _ _ _ elsewhere, effect_of_ne _ _ _ _ elsewhere]
      exact related infoHash unchanged
    · refine ⟨_, ⟨written, writes_of_ne metadata removals written alert about writes, rfl⟩, ?_⟩
      intro infoHash unchanged
      by_cases here : infoHash = alert.infoHash
      · rw [here]
        exact effect_congr _ _ _ _ (related _ about)
      · rw [effect_of_ne _ _ _ _ here, effect_of_ne _ _ _ _ here]
        exact related infoHash unchanged
  exact replay.simulate matched set fun _ _ => rfl

/-- Whatever the reads of removed instances return, handling all queued alerts
ends in agreement with the session. -/
def Settled (torrentsPath : Path) (state : State γ) : Prop :=
  ∀ set, Replays (Outcome state.session) state.queued (saved torrentsPath state.files) set →
    Agrees state.session set

omit [DecidableEq γ] in
/-- A change of one torrent, with its alert posted, keeps the queue settled when
the last alert alone brings that torrent into agreement. -/
theorem settled_of_change {torrentsPath : Path} {state : State γ} {next : Session}
    {alert : Alert} (settled : Settled torrentsPath state)
    (metadata : ∀ infoHash ≠ alert.infoHash,
      next.hasMetadata infoHash = state.session.hasMetadata infoHash)
    (removals : ∀ infoHash ≠ alert.infoHash,
      next.removals infoHash = state.session.removals infoHash)
    (agreeing : ∀ middle final, Replays (Outcome next) state.queued
      (saved torrentsPath state.files) middle → Outcome next alert middle final →
      (final alert.infoHash = true ↔ next.hasMetadata alert.infoHash = some true)) :
    Settled torrentsPath
      { session := next, queued := state.queued ++ [alert], files := state.files } := by
  intro final replay infoHash
  obtain ⟨middle, before, last⟩ := (replays_append_singleton_iff _ _ _ _).mp replay
  by_cases about : infoHash = alert.infoHash
  · rw [about]
    exact agreeing middle final before last
  · obtain ⟨former, formerly, same⟩ := replays_off metadata removals before
    obtain ⟨written, _, rfl⟩ := last
    rw [effect_of_ne _ _ _ _ about, same infoHash about, metadata infoHash about]
    exact settled former formerly infoHash

omit [DecidableEq γ] in
/-- Whatever the queued alerts make of a torrent that is not in the session yet,
they leave it unsaved: with no instance in the session, any outcome of an alert
about the new one was possible before. -/
theorem unsaved_of_absent {torrentsPath : Path} {state : State γ} (infoHash : InfoHash)
    (hasMetadata : Bool) (settled : Settled torrentsPath state)
    (absent : state.session.hasMetadata infoHash = none) (middle : InfoHash → Bool)
    (before : Replays (Outcome (state.session.put infoHash hasMetadata)) state.queued
      (saved torrentsPath state.files) middle) : middle infoHash = false := by
  have metadata := state.session.put_hasMetadata_of_ne infoHash hasMetadata
  have matched : ∀ alert ∈ state.queued, ∀ set reached other, set = other →
      Outcome (state.session.put infoHash hasMetadata) alert set reached →
      ∃ otherReached, Outcome state.session alert other otherReached ∧
        reached = otherReached := by
    rintro alert - set _ _ rfl ⟨chosen, allowed, rfl⟩
    refine ⟨_, ⟨chosen, ?_, rfl⟩, rfl⟩
    by_cases about : alert.infoHash = infoHash
    · cases alert <;> simp_all [Writes, Session.Current, Alert.infoHash]
    · exact writes_of_ne metadata (fun _ _ => rfl) chosen alert about allowed
  obtain ⟨_, earlier, rfl⟩ := before.simulate matched _ rfl
  have agreed := settled middle earlier infoHash
  rw [absent] at agreed
  simpa using agreed

/-- Every step keeps the queue settled. A handled alert has taken one of the
outcomes its queue allowed for; the other steps post an alert that settles the
torrent they change. -/
theorem settled_step (content : InfoHash → γ) (torrentsPath : Path) (state : State γ)
    (event : Event γ) (next : State γ) (settled : Settled torrentsPath state)
    (stepped : step content torrentsPath state event = some next) :
    Settled torrentsPath next := by
  have outcome := step_cases content torrentsPath state event next stepped
  cases event with
  | add infoHash hasMetadata =>
    obtain ⟨absent, rfl⟩ := outcome
    apply settled_of_change settled
    · exact state.session.put_hasMetadata_of_ne infoHash hasMetadata
    · intro other _
      rfl
    · rintro middle _ before ⟨written, writes, rfl⟩
      have unsaved := unsaved_of_absent infoHash hasMetadata settled absent middle before
      have exact := writes ⟨by simp, rfl⟩
      simpa [effect, Alert.infoHash, unsaved] using exact
  | receiveMetadata infoHash =>
    obtain ⟨waiting, rfl⟩ := outcome
    apply settled_of_change settled
    · exact state.session.put_hasMetadata_of_ne infoHash true
    · intro other _
      rfl
    · rintro middle _ - ⟨written, writes, rfl⟩
      have found : written = true := (writes ⟨by simp, rfl⟩).mpr (by simp)
      simp [effect, Alert.infoHash, found]
  | remove infoHash =>
    obtain ⟨present, rfl⟩ := outcome
    apply settled_of_change settled
    · intro other distinct
      exact Function.update_of_ne distinct _ _
    · intro other distinct
      exact Function.update_of_ne distinct _ _
    · rintro middle _ - ⟨written, -, rfl⟩
      simp [effect, Alert.infoHash, Session.drop]
  | handle reads =>
    obtain ⟨alert, rest, files, queue, handled, rfl⟩ := outcome
    intro set replay
    have first := handle_outcome content torrentsPath state.session reads alert _ _ handled
    apply settled set
    rw [queue]
    exact .cons first replay

/-- Every run keeps the queue settled. -/
theorem settled_run (content : InfoHash → γ) (torrentsPath : Path) (events : List (Event γ))
    (start final : State γ) (settled : Settled torrentsPath start)
    (ran : run (step content torrentsPath) start events = some final) :
    Settled torrentsPath final :=
  run_invariant (settled_step content torrentsPath) events start final settled ran

omit [DecidableEq γ] in
/-- With nothing queued, settled means agreement here and now. -/
theorem settled_iff_agrees (torrentsPath : Path) (state : State γ) (empty : state.queued = []) :
    Settled torrentsPath state ↔ Agrees state.session (saved torrentsPath state.files) := by
  unfold Settled
  rw [empty]
  simp only [replays_nil_iff, forall_eq]

/-- From a torrents directory that agrees with the session, every run reaches
agreement again whenever it has handled all alerts. -/
theorem agrees_when_handled (content : InfoHash → γ) (torrentsPath : Path)
    (events : List (Event γ)) (start final : State γ) (idle : start.queued = [])
    (agreed : Agrees start.session (saved torrentsPath start.files))
    (ran : run (step content torrentsPath) start events = some final)
    (handled : final.queued = []) :
    Agrees final.session (saved torrentsPath final.files) := by
  have settled := settled_run content torrentsPath events start final
    ((settled_iff_agrees torrentsPath start idle).mpr agreed) ran
  exact (settled_iff_agrees torrentsPath final handled).mp settled

/-- An empty session with an empty file system. -/
def noTorrents : State Unit where
  session := { hasMetadata := fun _ => none, removals := fun _ => 0 }
  queued := []
  files := []

/-- A torrent is added, removed and added again without metadata, and its first
alert is handled through a handle that still looks valid. -/
def readding : List (Event Unit) :=
  [.add .zero true, .remove .zero, .add .zero false, .handle ⟨true, .zero, some ()⟩,
    .handle ⟨false, .zero, none⟩, .receiveMetadata .zero, .handle ⟨true, .zero, some ()⟩,
    .handle ⟨true, .zero, some ()⟩]

/-- A torrent that is removed and added again. -/
theorem agrees_after_readding :
    ∃ final, run (step (fun _ => ()) []) noTorrents readding = some final ∧
      final.queued = [] ∧ Agrees final.session (saved [] final.files) := by
  have handled : (run (step (fun _ => ()) []) noTorrents readding).map State.queued =
      some [] := by decide +kernel
  have agreed : Agrees noTorrents.session (saved [] noTorrents.files) := by
    intro infoHash
    simp [saved, noTorrents, fileExists]
  obtain ⟨final, ran, quiet⟩ := Option.map_eq_some_iff.mp handled
  exact ⟨final, ran, quiet, agrees_when_handled (fun _ => ()) [] readding noTorrents final
    rfl agreed ran quiet⟩

end Hadouken.SavedTorrents
