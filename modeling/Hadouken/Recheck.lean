import Hadouken.Library.Runs
import Hadouken.Perform

/-!
# The run state of torrents that are checked

A check of a paused torrent resumes it and leaves a mark that it is to be paused
again when the check ends. Requests come at any time between the two.

Each torrent has a wanted state, the one it was put in last. It counts when no
check of the torrent is outstanding.
-/

namespace Hadouken.Recheck

open Script MetadataStore TorrentFiles Perform Batches Runs

/-- The session, and which torrents are wanted paused. -/
structure State where
  session : Session
  wanted : InfoHash → Bool

/-- What happens: a request, or a finished recheck. -/
inductive Event where
  | perform (action : String) (hashList : List InfoHash)
  | checked (hash : InfoHash)

/-- What an action makes of the wanted state. -/
def wantedAfter (paused : Bool) : Action → Bool
  | .forcestart => false
  | .pause => true
  | .start => false
  | _ => paused

/-- One round of the loop of `webui.perform`. -/
def performOne (action : String) (state : State) (hash : InfoHash) : Option State := do
  let torrent ← state.session.torrents hash
  let action ← Action.parse action
  return {
    session := state.session.perform hash torrent action
    wanted := Function.update state.wanted hash (wantedAfter (state.wanted hash) action) }

/-- The handler of `torrent.checked`, when a check of the torrent ends. -/
def torrentChecked (session : Session) (hash : InfoHash) : Option Session :=
  match session.torrents hash with
  | some torrent =>
      if torrent.checks = 0 then none
      else
        let paused := if session.marked hash then true else torrent.paused
        some { session.update hash { torrent with paused := paused, checks := torrent.checks - 1 }
          with store := MetadataStore.torrentChecked hash.text session.store }
  | none => none

/-- A request for several hashes, or the handler of a finished recheck. -/
def step (state : State) : Event → Option State
  | .perform action hashList => some (each (performOne action) hashList state).1
  | .checked hash =>
      (torrentChecked state.session hash).map fun session => { state with session := session }

/-- A torrent none of whose checks is outstanding is paused if it is wanted to
be, and else runs. -/
def Restored (state : State) : Prop :=
  ∀ hash torrent, state.session.torrents hash = some torrent → torrent.checks = 0 →
    torrent.paused = state.wanted hash

/-- Torrents that are not auto-managed, have metadata, and are not checked; each
is wanted as it is. -/
def Initial (state : State) : Prop :=
  ∀ hash torrent, state.session.torrents hash = some torrent →
    torrent.autoManaged = false ∧ torrent.hasMetadata = true ∧ torrent.checks = 0 ∧
      torrent.paused = state.wanted hash

/-- A check that ends with the mark set ends while the torrent is wanted paused. -/
def InTime (state : State) : Event → Prop
  | .checked hash => state.session.marked hash = true → state.wanted hash = true
  | .perform _ _ => True

/-- An unmarked torrent is in its wanted state even while it is checked. -/
def Invariant (state : State) : Prop :=
  ∀ hash torrent, state.session.torrents hash = some torrent →
    (state.session.marked hash = false → torrent.paused = state.wanted hash) ∧
      (torrent.checks = 0 → torrent.paused = state.wanted hash)

/-- The run of the model itself, without the wanted states. -/
theorem session_step (state : State) (action : String) (hashList : List InfoHash) :
    (step state (.perform action hashList)).map State.session =
      some (method action hashList state.session).1 := by
  have rounds : ∀ state hash, (performOne action state hash).map State.session =
      Session.performOne action state.session hash := by
    intro state hash
    simp only [performOne, Session.performOne]
    cases state.session.torrents hash with
    | none => rfl
    | some torrent => cases Action.parse action <;> rfl
  have whole := each_map State.session rounds hashList state
  rw [method, ← whole]
  rfl

section Steps

variable {state next : State} {hash : InfoHash} {torrent : Torrent}

/-- Where one torrent is changed and others are not, the invariant is one of the
changed torrent. -/
theorem invariant_update (invariant : Invariant state)
    (own : next.session.torrents hash = some torrent)
    (torrents : ∀ other ≠ hash, next.session.torrents other = state.session.torrents other)
    (marks : ∀ other ≠ hash, next.session.marked other = state.session.marked other)
    (wanted : ∀ other ≠ hash, next.wanted other = state.wanted other)
    (unmarked : next.session.marked hash = false → torrent.paused = next.wanted hash)
    (unchecked : torrent.checks = 0 → torrent.paused = next.wanted hash) : Invariant next := by
  intro other found here
  by_cases same : other = hash
  · subst same
    obtain rfl := Option.some.inj (own.symm.trans here)
    exact ⟨unmarked, unchecked⟩
  · rw [marks other same, wanted other same]
    exact invariant other found (by rw [← torrents other same, here])

/-- An action on a torrent keeps the invariant. Starts and pauses establish it;
a recheck leaves a mark wherever it changes the run state. -/
theorem invariant_perform (invariant : Invariant state)
    (found : state.session.torrents hash = some torrent) (action : Action) :
    Invariant {
      session := state.session.perform hash torrent action
      wanted := Function.update state.wanted hash (wantedAfter (state.wanted hash) action) } := by
  have elsewhere : ∀ (torrents : InfoHash → Option Torrent) value, ∀ other ≠ hash,
      Function.update torrents hash value other = torrents other :=
    fun torrents value other different => Function.update_of_ne different value torrents
  have apart : ∀ (wanted : InfoHash → Bool) value, ∀ other ≠ hash,
      Function.update wanted hash value other = wanted other :=
    fun wanted value other different => Function.update_of_ne different value wanted
  obtain ⟨unmarked, unchecked⟩ := invariant hash torrent found
  cases action with
  | forcestart =>
    exact invariant_update invariant (Function.update_self ..) (elsewhere _ _) (fun _ _ => rfl)
      (apart _ _) (by simp [wantedAfter]) (by simp [wantedAfter])
  | pause =>
    exact invariant_update invariant (Function.update_self ..) (elsewhere _ _) (fun _ _ => rfl)
      (apart _ _) (by simp [wantedAfter]) (by simp [wantedAfter])
  | start =>
    exact invariant_update invariant (Function.update_self ..) (elsewhere _ _) (fun _ _ => rfl)
      (apart _ _) (by simp [wantedAfter]) (by simp [wantedAfter])
  | queuebottom | queuedown | queuetop | queueup =>
    simp only [wantedAfter, Function.update_eq_self]
    exact invariant
  | remove | removedata =>
    simp only [wantedAfter, Function.update_eq_self]
    intro other own here
    have different : other ≠ hash := by
      rintro rfl
      simp [Session.perform, Session.removeTorrent] at here
    exact invariant other own (by rwa [← elsewhere state.session.torrents none other different])
  | recheck =>
    simp only [wantedAfter, Function.update_eq_self]
    by_cases metadata : torrent.hasMetadata = true
    · by_cases resumed : torrent.paused = true ∧ torrent.autoManaged = false
      · simp only [Session.perform, metadata, if_true, if_pos resumed]
        have set : (state.session.markPause hash).marked hash = true := by
          rw [state.session.marked_markPause, if_pos rfl]
        refine invariant_update invariant (Function.update_self ..) (elsewhere _ _)
          (fun other different => ?_) (fun _ _ => rfl) (fun unmarked => ?_) (by simp)
        · exact (state.session.marked_markPause hash other).trans (if_neg different)
        · exact absurd (set.symm.trans unmarked) (by simp)
      · simp only [Session.perform, metadata, if_true, if_neg resumed]
        exact invariant_update invariant (Function.update_self ..) (elsewhere _ _)
          (fun _ _ => rfl) (fun _ _ => rfl) unmarked (by simp)
    · simp only [Session.perform, if_neg metadata]
      exact invariant

/-- When a check ends, the mark is gone, and no other torrent is touched. -/
theorem torrentChecked_spec {session after : Session}
    (ended : torrentChecked session hash = some after) :
    ∃ torrent, session.torrents hash = some torrent ∧ torrent.checks ≠ 0 ∧
      after.torrents hash = some { torrent with
        paused := if session.marked hash then true else torrent.paused
        checks := torrent.checks - 1 } ∧
      after.marked hash = false ∧
      ∀ other ≠ hash, after.torrents other = session.torrents other ∧
        after.marked other = session.marked other := by
  unfold torrentChecked at ended
  cases found : session.torrents hash with
  | none => simp [found] at ended
  | some torrent =>
    by_cases idle : torrent.checks = 0
    · simp [found, idle] at ended
    · simp only [found, if_neg idle, Option.some.injEq] at ended
      subst ended
      refine ⟨torrent, rfl, idle, Function.update_self .., ?_, fun other different => ⟨?_, ?_⟩⟩
      · obtain ⟨written, wrote, _, _, read⟩ := setMetadata_spec session.store hash.text pauseKey
          (.boolean false) (.boolean false) (by decide) rfl
        simp only [Session.marked, MetadataStore.torrentChecked]
        split
        · simp [wrote, metadataOf, read, Json.toValue, Value.truthy]
        · rename_i unmarked
          exact eq_false_of_ne_true unmarked
      · exact Function.update_of_ne different _ _
      · have same := (torrentChecked_frame hash.text session.store).1 other.text
          (InfoHash.text_ne different)
        simp only [Session.marked, metadataOf, same]

/-- The end of a check in time keeps the invariant. -/
theorem invariant_checked {after : Session} (invariant : Invariant state)
    (inTime : state.session.marked hash = true → state.wanted hash = true)
    (ended : torrentChecked state.session hash = some after) :
    Invariant { state with session := after } := by
  obtain ⟨torrent, found, _, own, unmarked, elsewhere⟩ := torrentChecked_spec ended
  have wanted : (if state.session.marked hash then true else torrent.paused) =
      state.wanted hash := by
    cases marked : state.session.marked hash with
    | true => exact (inTime marked).symm
    | false => exact (invariant hash torrent found).1 marked
  exact invariant_update invariant own (fun other different => (elsewhere other different).1)
    (fun other different => (elsewhere other different).2) (fun _ _ => rfl) (fun _ => wanted)
    (fun _ => wanted)

/-- A step in time keeps the invariant. -/
theorem invariant_step (state : State) (event : Event) (next : State) (invariant : Invariant state)
    (inTime : InTime state event) (stepped : step state event = some next) : Invariant next := by
  cases event with
  | perform action hashList =>
    obtain rfl := Option.some.inj stepped
    refine each_invariant hashList state ?_ invariant
    intro before hash _ after kept performed
    simp only [performOne, Option.bind_eq_bind, Option.bind_eq_some_iff, Option.pure_def,
      Option.some.injEq] at performed
    obtain ⟨torrent, found, action, _, rfl⟩ := performed
    exact invariant_perform kept found action
  | checked hash =>
    obtain ⟨after, ended, rfl⟩ := Option.map_eq_some_iff.mp stepped
    exact invariant_checked invariant inTime ended

end Steps

/-- In a run whose marked checks all end while the torrent is wanted paused,
every torrent is in its wanted state whenever none of its checks is outstanding. -/
theorem restored_of_inTime (events : List Event) (start : State) (initial : Initial start)
    (inTime : Guarded step InTime start events) : Always step Restored start events := by
  refine always_of_guarded invariant_step ?_ events start ?_ inTime
  · intro state invariant hash torrent found unchecked
    exact (invariant hash torrent found).2 unchecked
  · intro hash torrent found
    obtain ⟨_, _, _, same⟩ := initial hash torrent found
    exact ⟨fun _ => same, fun _ => same⟩

/-- A last check that is not in time leaves its torrent paused against the wish. -/
theorem not_restored_of_late (state next : State) (hash : InfoHash) (torrent : Torrent)
    (found : state.session.torrents hash = some torrent) (last : torrent.checks = 1)
    (late : ¬ InTime state (.checked hash)) (stepped : step state (.checked hash) = some next) :
    ¬ Restored next := by
  obtain ⟨after, ended, rfl⟩ := Option.map_eq_some_iff.mp stepped
  obtain ⟨own, here, _, changed, _, _⟩ := torrentChecked_spec ended
  obtain rfl := Option.some.inj (found.symm.trans here)
  obtain ⟨marked, wanted⟩ := Classical.not_imp.mp late
  intro restored
  have same := restored hash _ changed (by simp [last])
  simp only [marked, if_true] at same
  exact wanted same.symm

/-- A paused torrent. -/
def paused : State where
  session := {
    torrents := fun hash => if hash = .ones then some ⟨false, true, true, 0⟩ else none
    queue := []
    nodup := List.nodup_nil
    present := by simp
    store := fun _ => none
    removed := [] }
  wanted hash := hash = .ones

/-- The paused torrent may be the start. -/
theorem initial_paused : Initial paused := by
  intro hash torrent found
  by_cases same : hash = .ones
  · obtain rfl : (⟨false, true, true, 0⟩ : Torrent) = torrent := by simpa [paused, same] using found
    simp [paused, same]
  · simp [paused, same] at found

/-- It is checked, paused while it is checked, and then in its wanted state. -/
theorem paused_during_check :
    Initial paused ∧
      Guarded step InTime paused
        [.perform "recheck" [.ones], .perform "start" [.ones], .perform "pause" [.ones],
          .checked .ones] ∧
      Always step Restored paused
        [.perform "recheck" [.ones], .perform "start" [.ones], .perform "pause" [.ones],
          .checked .ones] := by
  have inTime : Guarded step InTime paused
      [.perform "recheck" [.ones], .perform "start" [.ones], .perform "pause" [.ones],
        .checked .ones] := by
    refine ⟨trivial, fun first stepped => ⟨trivial, fun second started => ⟨trivial,
      fun third stopped => ⟨fun _ => ?_, fun _ _ => trivial⟩⟩⟩⟩
    obtain rfl := Option.some.inj stepped
    obtain rfl := Option.some.inj started
    obtain rfl := Option.some.inj stopped
    rfl
  exact ⟨initial_paused, inTime, restored_of_inTime _ paused initial_paused inTime⟩

/-- A paused torrent that is checked and then started is paused when the check
ends. -/
theorem started_during_check :
    Initial paused ∧
      ¬ Always step Restored paused
        [.perform "recheck" [.ones], .perform "start" [.ones], .checked .ones] := by
  refine ⟨initial_paused, fun always => ?_⟩
  have ran : ∃ final, run step paused
      [.perform "recheck" [.ones], .perform "start" [.ones], .checked .ones] = some final ∧
        final.session.torrents .ones = some ⟨false, true, true, 0⟩ ∧ final.wanted .ones = false :=
    ⟨_, rfl, by decide +kernel, by decide +kernel⟩
  obtain ⟨final, ran, torrent, wanted⟩ := ran
  have same := always_final _ paused final always ran .ones _ torrent rfl
  rw [wanted] at same
  cases same

end Hadouken.Recheck
