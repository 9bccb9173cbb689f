import Hadouken.ResumeAccounting

/-!
# Waiting for resume data at shutdown

`saveTorrents` waits for alerts until each of its requests was completed. A wait
takes ten seconds at most, and one that timed out is followed by the next. The
session's queue is bounded, so that it can drop the alert that completes a
request; the environment says of every wait what it brings.

`unload` goes on to `saveConfig` when `saveTorrents` returns.
-/

namespace Hadouken.ShutdownWait

open Files TorrentFiles Script MetadataStore SaveTorrents ResumeAccounting

variable {γ : Type}

/-- What `session.waitForAlert` is followed by: nothing, or the alerts that
`session.getAlerts` pops. -/
inductive Wait (γ : Type) where
  | timedOut
  | alerts (popped : List (Popped γ))

/-- The alerts handled after a wait. -/
def Wait.popped : Wait γ → List (Popped γ)
  | .timedOut => []
  | .alerts popped => popped

/-- The batch that a wait brings, if it brings one. -/
def Wait.batch : Wait γ → Option (List (Popped γ))
  | .timedOut => none
  | .alerts popped => some popped

/-- The completions that the first so many waits bring. -/
def answered (environment : Nat → Wait γ) (waits : Nat) : Nat :=
  (completions ((List.range waits).flatMap fun i => (environment i).popped)).length

/-- The environment after the first wait. -/
def later (environment : Nat → Wait γ) : Nat → Wait γ := fun i => environment (i + 1)

/-- Before the first wait nothing is answered. -/
@[simp] theorem answered_zero (environment : Nat → Wait γ) : answered environment 0 = 0 := rfl

/-- A wait answers what it completes. -/
theorem answered_succ (environment : Nat → Wait γ) (waits : Nat) :
    answered environment (waits + 1) =
      (completions (environment 0).popped).length + answered (later environment) waits := by
  rw [answered, List.range_succ_eq_map, List.flatMap_cons, List.flatMap_map, completions_append,
    List.length_append]
  rfl

section Waiting

variable (print : Json → γ) (store : Store) (torrentsPath : Path)

/-- The body of the waiting loop. -/
def iteration (saving : Saving γ) : Wait γ → Saving γ
  | .timedOut => saving
  | .alerts popped => (getAlerts popped).foldl (handleAlert print store torrentsPath) saving

/-- The waiting loop, for a limited number of iterations. It has no result when
they are not enough. -/
def awaitFor : Nat → (Nat → Wait γ) → Saving γ → Option (FileSystem γ)
  | 0, _, saving => if 0 < saving.num then none else some saving.files
  | limit + 1, environment, saving =>
      if 0 < saving.num then
        awaitFor limit (later environment)
          (iteration print store torrentsPath saving (environment 0))
      else some saving.files

/-- `unload` gets to `saveConfig`: the loop of `saveTorrents` ends after some
number of iterations. -/
def ReachesSaveConfig (torrents : List TorrentEntry) (files : FileSystem γ)
    (environment : Nat → Wait γ) : Prop :=
  ∃ limit saved, awaitFor print store torrentsPath limit environment
    ⟨(requested torrents).length, files⟩ = some saved

/-- An iteration counts down by the completions it is brought. -/
theorem num_iteration (saving : Saving γ) (wait : Wait γ) :
    (iteration print store torrentsPath saving wait).num =
      saving.num - (completions wait.popped).length := by
  cases wait with
  | timedOut => simp [iteration, Wait.popped]
  | alerts popped => exact num_foldl print store torrentsPath popped saving

/-- The loop has ended within a limit exactly when the waits up to some number
within it bring the completions it counts. -/
theorem awaitFor_isSome_iff (limit : Nat) (environment : Nat → Wait γ) (saving : Saving γ) :
    (awaitFor print store torrentsPath limit environment saving).isSome = true ↔
      ∃ waits, waits ≤ limit ∧ saving.num ≤ answered environment waits := by
  induction limit generalizing environment saving with
  | zero =>
    by_cases waiting : 0 < saving.num
    · simp [awaitFor, waiting]
    · simp [awaitFor, waiting, Int.not_lt.mp waiting]
  | succ limit ih =>
    rw [awaitFor]
    by_cases waiting : 0 < saving.num
    · rw [if_pos waiting, ih, num_iteration]
      constructor
      · rintro ⟨waits, within, enough⟩
        refine ⟨waits + 1, Nat.succ_le_succ within, ?_⟩
        rw [answered_succ]
        omega
      · rintro ⟨waits, within, enough⟩
        cases waits with
        | zero =>
          rw [answered_zero] at enough
          omega
        | succ waits =>
          refine ⟨waits, Nat.le_of_succ_le_succ within, ?_⟩
          rw [answered_succ] at enough
          omega
    · rw [if_neg waiting]
      refine iff_of_true rfl ⟨0, Nat.zero_le _, ?_⟩
      rw [answered_zero]
      omega

/-- A loop that has ended took the batches of its first waits, one by one. -/
theorem awaitAlerts_of_awaitFor (limit : Nat) (environment : Nat → Wait γ) (saving : Saving γ)
    (saved : FileSystem γ)
    (ended : awaitFor print store torrentsPath limit environment saving = some saved) :
    ∃ waits, waits ≤ limit ∧ awaitAlerts print store torrentsPath saving
      (((List.range waits).filterMap fun i => (environment i).batch).map getAlerts) =
        some saved := by
  induction limit generalizing environment saving with
  | zero => exact ⟨0, Nat.le_refl 0, ended⟩
  | succ limit ih =>
    rw [awaitFor] at ended
    by_cases waiting : 0 < saving.num
    · rw [if_pos waiting] at ended
      obtain ⟨waits, within, took⟩ := ih _ _ ended
      refine ⟨waits + 1, Nat.succ_le_succ within, ?_⟩
      rw [List.range_succ_eq_map, List.filterMap_cons, List.filterMap_map]
      cases first : environment 0 with
      | timedOut =>
        rw [first] at took
        exact took
      | alerts popped =>
        rw [first] at took
        simp only [Wait.batch, List.map_cons, awaitAlerts, if_pos waiting]
        exact took
    · rw [if_neg waiting] at ended
      refine ⟨0, Nat.zero_le _, ?_⟩
      rw [List.range_zero, List.filterMap_nil, List.map_nil, awaitAlerts, if_neg waiting]
      exact ended

end Waiting

/-- The shutdown gets to `saveConfig` exactly when the alerts that complete a
request are, after some wait, as many as the requests. -/
theorem reachesSaveConfig_iff (print : Json → γ) (store : Store) (torrentsPath : Path)
    (torrents : List TorrentEntry) (files : FileSystem γ) (environment : Nat → Wait γ) :
    ReachesSaveConfig print store torrentsPath torrents files environment ↔
      ∃ waits, (requested torrents).length ≤ answered environment waits := by
  simp only [ReachesSaveConfig, ← Option.isSome_iff_exists, awaitFor_isSome_iff, Int.ofNat_le]
  constructor
  · rintro ⟨_, waits, _, enough⟩
    exact ⟨waits, enough⟩
  · rintro ⟨waits, enough⟩
    exact ⟨waits, waits, Nat.le_refl waits, enough⟩

/-- One request is made and every wait times out: no number of iterations ends
the loop. -/
theorem dropped_completion_hangs :
    ¬ ReachesSaveConfig (fun _ => 0) (fun _ => none) [] single.torrents ([] : FileSystem Nat)
      (fun _ => .timedOut) := by
  rintro ⟨limit, saved, ended⟩
  have none_come : ∀ waits, answered (fun _ => (.timedOut : Wait Nat)) waits = 0 := by
    intro waits
    induction waits with
    | zero => rfl
    | succ waits ih =>
      rw [answered_succ]
      exact (Nat.zero_add _).trans ih
  obtain ⟨waits, _, enough⟩ := (awaitFor_isSome_iff _ _ _ limit _ _).mp
    (Option.isSome_of_eq_some ended)
  rw [none_come] at enough
  revert enough
  decide

end Hadouken.ShutdownWait
