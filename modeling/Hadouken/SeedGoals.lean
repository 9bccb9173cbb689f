import Hadouken.Library.AbortingLoop
import Hadouken.Library.Values
import Mathlib.Tactic.NormNum

/-!
# Seed goals

The handler of `torrent.stateUpdate` goes through the statuses of one event and
pauses or removes the torrents that reached their seed goal. The options of a
torrent are any value its metadata holds. Ratios are exact rationals.

A native call that throws ends the handler, and so does the `return` for a
torrent that is unfinished or paused. The outcome is recorded status by status.
-/

namespace Hadouken.SeedGoals

open Script AbortingLoop

/-- What the goals are compared with. -/
structure Status where
  torrent : Nat
  isFinished : Bool
  isPaused : Bool
  totalDone : Int
  allTimeUpload : Int
  seedingTime : Int
  options : Value

/-- `torrent_status_wrapper::get_ratio`. -/
def Status.ratio (status : Status) : Number :=
  .finite (if 0 < status.totalDone then (status.allTimeUpload : ℚ) / status.totalDone else -1)

/-- What is done to a torrent: its automatic management is turned off, it is
paused, or it is removed from the session. -/
inductive Call where
  | clearAutoManaged (torrent : Nat)
  | pause (torrent : Nat)
  | remove (torrent : Nat)
deriving DecidableEq

/-- `session_wrapper::remove_torrent`, which requires a boolean. -/
def removeTorrent (torrent : Nat) (removeData : Value) : Option Call :=
  match removeData with
  | .boolean _ => some (.remove torrent)
  | _ => none

/-- The value is this text. -/
def isText (value : Value) (text : String) : Bool :=
  match value with
  | .string own => own = text
  | _ => false

/-- The options stored for a torrent, or none. -/
def Status.ownOptions (status : Status) : Value := status.options.orElse (.object [])

/-- A stored option, `undefined` when there is none of that name. -/
def Status.stored (status : Status) (key : String) : Value :=
  (status.ownOptions.member key).getD .undefined

/-- `options.seedTime || 0`. -/
def Status.goalTime (status : Status) : Value := (status.stored "seedTime").orElse (.integer 0)

/-- `options.seedRatio || 2.0`. -/
def Status.goalRatio (status : Status) : Value := (status.stored "seedRatio").orElse (.integer 2)

/-- `options.seedAction || "pause"`. -/
def Status.action (status : Status) : Value :=
  (status.stored "seedAction").orElse (.string "pause")

variable (conversions : Conversions)

/-- The seeding time is above a goal that is above zero. -/
def timeReached (status : Status) : Option Bool :=
  (conversions.toNumber status.goalTime).map fun goal =>
    (Number.finite 0).less goal && goal.less (.finite status.seedingTime)

/-- The condition of the handler. The time is looked at only when the ratio does
not decide. -/
def reached (status : Status) : Option Bool := do
  let goal ← conversions.parseFloat status.goalRatio
  if status.ratio.atLeast goal then return true
  timeReached conversions status

/-- The goal as the log line words it. -/
def reachedText (status : Status) : Option String := do
  let goal ← conversions.parseFloat status.goalRatio
  if status.ratio.atLeast goal then conversions.concatText status.goalRatio
  else conversions.concatText status.goalTime

/-- What the handler does to a finished torrent that is not paused. Nothing is
done yet where it throws; in particular the removal lacks its second argument. -/
def seedGoal (status : Status) : Option (List Call) := do
  if !(← reached conversions status) then return []
  let _ ← reachedText conversions status
  if isText status.action "pause" then
    return [.clearAutoManaged status.torrent, .pause status.torrent]
  else if isText status.action "remove" then
    return [← removeTorrent status.torrent .undefined]
  else return []

/-- The body of the loop over `e.status`. -/
def checkStatus (status : Status) : Iteration Call :=
  if !status.isFinished || status.isPaused then ⟨[], false⟩
  else
    match seedGoal conversions status with
    | some calls => ⟨calls, true⟩
    | none => ⟨[], false⟩

/-- The torrent has reached its configured goal: the stored ratio, a falsy one
included, or 2 when none is stored, or else the time. -/
def goalReached (status : Status) : Bool :=
  status.ratio.atLeast
      (match status.stored "seedRatio" with
        | .undefined => .finite 2
        | ratio => (conversions.parseFloat ratio).getD .nan) ||
    (timeReached conversions status).getD false

/-- What the configured goal and action ask for. -/
def wanted (status : Status) : List Call :=
  if status.isFinished && !status.isPaused && goalReached conversions status then
    if isText status.action "pause" then
      [.clearAutoManaged status.torrent, .pause status.torrent]
    else if isText status.action "remove" then [.remove status.torrent]
    else []
  else []

/-- The handler goes on to the next status: this torrent is finished and not
paused, its options convert, and it is not removed. -/
def Passes (status : Status) : Prop :=
  status.isFinished = true ∧ status.isPaused = false ∧
    ∃ due, reached conversions status = some due ∧
      (due = true → (reachedText conversions status).isSome ∧
        (isText status.action "pause" = true ∨ isText status.action "remove" = false))

/-- A torrent the handler looks at gets what is configured: a pause at the goal
that is stored, and no removal. -/
def Fair (status : Status) : Prop :=
  status.isFinished = true → status.isPaused = false →
    (isText status.action "pause" = true →
      (goalReached conversions status = true ↔
        reached conversions status = some true ∧ (reachedText conversions status).isSome)) ∧
    (isText status.action "remove" = true → goalReached conversions status = false)

/-- Nothing is asked for this torrent. -/
def Undue (status : Status) : Prop :=
  status.isFinished = true → status.isPaused = false →
    isText status.action "pause" = true ∨ isText status.action "remove" = true →
    goalReached conversions status = false

/-- A text is one of two different ones at most. -/
theorem not_pause_and_remove (value : Value) (pause : isText value "pause" = true) :
    isText value "remove" = false := by
  cases value with
  | string text =>
    simp only [isText, decide_eq_true_eq] at pause
    subst pause
    decide
  | _ => simp [isText] at pause

/-- The loop goes on exactly past the torrents that pass. -/
theorem goesOn_iff_passes (status : Status) :
    (checkStatus conversions status).goesOn = true ↔ Passes conversions status := by
  unfold checkStatus Passes
  cases finished : status.isFinished with
  | false => simp
  | true =>
    cases paused : status.isPaused with
    | true => simp
    | false =>
      cases due : reached conversions status with
      | none => simp [seedGoal, due]
      | some result =>
        cases result with
        | false => simp [seedGoal, due]
        | true =>
          cases logged : reachedText conversions status with
          | none => simp [seedGoal, due, logged]
          | some text =>
            by_cases pause : isText status.action "pause" = true
            · simp [seedGoal, due, logged, pause]
            · cases remove : isText status.action "remove" <;>
                simp [seedGoal, due, logged, pause, remove, removeTorrent]

/-- A torrent gets what is asked for exactly when it is treated fairly. -/
theorem effects_eq_wanted_iff (status : Status) :
    (checkStatus conversions status).effects = wanted conversions status ↔
      Fair conversions status := by
  unfold checkStatus Fair wanted
  cases finished : status.isFinished with
  | false => simp
  | true =>
    cases paused : status.isPaused with
    | true => simp
    | false =>
      by_cases pause : isText status.action "pause" = true
      · have notRemove := not_pause_and_remove status.action pause
        cases due : reached conversions status with
        | none => cases goal : goalReached conversions status <;>
            simp [seedGoal, due, pause, notRemove]
        | some result =>
          cases result with
          | false => cases goal : goalReached conversions status <;>
              simp [seedGoal, due, pause, notRemove]
          | true =>
            cases logged : reachedText conversions status <;>
              cases goal : goalReached conversions status <;>
              simp [seedGoal, due, logged, pause, notRemove]
      · cases remove : isText status.action "remove" with
        | false =>
          cases due : reached conversions status with
          | none => simp [seedGoal, due, pause]
          | some result =>
            cases result with
            | false => simp [seedGoal, due, pause]
            | true =>
              cases logged : reachedText conversions status <;>
                simp [seedGoal, due, logged, pause, remove]
        | true =>
          -- a removal is asked for and never made
          have nothing : (match seedGoal conversions status with
              | some calls => (⟨calls, true⟩ : Iteration Call)
              | none => ⟨[], false⟩).effects = [] := by
            cases due : reached conversions status with
            | none => simp [seedGoal, due]
            | some result =>
              cases result with
              | false => simp [seedGoal, due]
              | true =>
                cases logged : reachedText conversions status <;>
                  simp [seedGoal, due, logged, pause, remove, removeTorrent]
          cases goal : goalReached conversions status <;> simp_all

/-- Nothing is asked for exactly the undue torrents. -/
theorem wanted_eq_nil_iff (status : Status) :
    wanted conversions status = [] ↔ Undue conversions status := by
  unfold wanted Undue
  cases finished : status.isFinished <;> cases paused : status.isPaused <;>
    cases goal : goalReached conversions status <;>
    cases pause : isText status.action "pause" <;>
    cases remove : isText status.action "remove" <;> simp

/-- The statuses for which the handler does what is configured: those it looks
at are treated fairly, and no torrent is due behind one that ends the loop. -/
def Orderly (statuses : List Status) : Prop :=
  ∀ earlier status later, statuses = earlier ++ status :: later →
    ((∀ other ∈ earlier, Passes conversions other) → Fair conversions status) ∧
    ((¬ ∀ other ∈ earlier, Passes conversions other) → Undue conversions status)

/-- Every torrent of an event gets what its goal and action ask for, and no
other is touched, exactly when the statuses are orderly. -/
theorem carriedOut_iff_orderly (statuses : List Status) :
    effects (checkStatus conversions) statuses = statuses.map (wanted conversions) ↔
      Orderly conversions statuses := by
  rw [effects_eq_iff]
  simp only [Reached, goesOn_iff_passes, effects_eq_wanted_iff, wanted_eq_nil_iff]
  rfl

/-- The stored ratio counts as configured unless it is falsy: with options that
convert, the handler's condition is then the configured goal. -/
theorem reached_eq_goalReached (status : Status) (ratio : Number) (time : Bool)
    (kept : status.stored "seedRatio" = .undefined ∨ (status.stored "seedRatio").truthy = true)
    (ratioRead : conversions.parseFloat status.goalRatio = some ratio)
    (timeRead : timeReached conversions status = some time) :
    reached conversions status = some (goalReached conversions status) := by
  have goal : (match status.stored "seedRatio" with
      | .undefined => Number.finite 2
      | stored => (conversions.parseFloat stored).getD .nan) = ratio := by
    rcases kept with absent | truthy
    · have two : status.goalRatio = .integer 2 := by
        rw [Status.goalRatio, absent]
        rfl
      rw [two, conversions.parseFloat_integer 2 (by decide)] at ratioRead
      rw [absent]
      exact Option.some.inj ratioRead
    · rw [Status.goalRatio, Value.orElse_truthy _ truthy] at ratioRead
      cases stored : status.stored "seedRatio" <;> simp_all [Value.truthy]
  unfold reached goalReached
  rw [goal, ratioRead, timeRead]
  cases near : status.ratio.atLeast ratio <;> simp [near]

/-- A torrent that seeded three times its size, listed behind an unfinished one,
is not paused. -/
theorem unfinished_first_not_carried_out :
    effects (checkStatus plainConversions)
        [⟨0, false, false, 1, 0, 0, .null⟩, ⟨1, true, false, 1, 3, 0, .null⟩] ≠
      [⟨0, false, false, 1, 0, 0, .null⟩, ⟨1, true, false, 1, 3, 0, .null⟩].map
        (wanted plainConversions) := by
  have due : goalReached plainConversions ⟨1, true, false, 1, 3, 0, .null⟩ = true := by
    have absent : Status.stored ⟨1, true, false, 1, 3, 0, .null⟩ "seedRatio" = .undefined := rfl
    rw [goalReached, absent]
    norm_num [Status.ratio]
  have pause : isText (Status.action ⟨1, true, false, 1, 3, 0, .null⟩) "pause" = true := by decide
  simp [effects, checkStatus, wanted, due, pause]

end Hadouken.SeedGoals
