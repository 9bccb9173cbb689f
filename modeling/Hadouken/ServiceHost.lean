import Hadouken.Library.Runs

/-!
# Stopping the Windows service

Two threads work on a service. The main thread reports that the service is
running, then registers a wait on a signal set and runs the `io_service`. The
thread of the service control manager calls the control handler, which cancels
the set. The set holds no signals, so that a wait on it completes by being
cancelled and in no other way.

A cancellation completes the waits registered before it, and is forgotten. The
manager delivers stop controls from the report on. Exit codes and logging are
left out.
-/

namespace Hadouken.ServiceHost

open Runs

/-- The states reported to the service control manager. -/
inductive Status where
  | startPending
  | running
  | stopPending
deriving DecidableEq

/-- `dwControlsAccepted` of `set_status`: stop and shutdown, but for a service
that is starting. -/
def accepted (state : Status) : Bool := decide (state ≠ .startPending)

/-- Where the main thread is: before `initialization_complete`, before or in
`wait_for_exit`, or behind it. -/
inductive Main where
  | starting
  | reported
  | waiting
  | polling
  | exited
deriving DecidableEq

/-- The wait of `wait_for_exit`. -/
inductive Wait where
  | unregistered
  | pending
  | queued
  | completed
deriving DecidableEq

/-- The two threads and what they share. `cancelling` is the control handler
between its two calls, and `handled` records that one returned. -/
structure State where
  status : Status
  main : Main
  wait : Wait
  stopped : Bool
  cancelling : Bool
  handled : Bool
deriving DecidableEq

/-- The steps of the main thread, and those of the thread that delivers
controls. -/
inductive Event where
  | initializationComplete
  | asyncWait
  | runIo
  | complete
  | returnFromRun
  | stopControl
  | cancel
deriving DecidableEq

/-- `signal_set::cancel`. -/
def cancelWait : Wait → Wait
  | .pending => .queued
  | other => other

/-- A step of the main thread, of the control handler or of the waiting process. -/
def step (state : State) : Event → Option State
  | .initializationComplete =>
      if state.main = .starting then some { state with main := .reported, status := .running }
      else none
  | .asyncWait =>
      if state.main = .reported then some { state with main := .waiting, wait := .pending }
      else none
  | .runIo => if state.main = .waiting then some { state with main := .polling } else none
  | .complete =>
      -- the completion handler of the wait
      if state.main = .polling ∧ state.wait = .queued then
        some { state with wait := .completed, stopped := true, status := .stopPending }
      else none
  | .returnFromRun =>
      if state.main = .polling ∧ state.stopped = true then some { state with main := .exited }
      else none
  | .stopControl =>
      if accepted state.status = true ∧ state.cancelling = false then
        some { state with status := .stopPending, cancelling := true }
      else none
  | .cancel =>
      if state.cancelling = true then
        some { state with
          wait := cancelWait state.wait
          cancelling := false
          handled := true }
      else none

/-- A service whose initialization started. -/
def initial : State where
  status := .startPending
  main := .starting
  wait := .unregistered
  stopped := false
  cancelling := false
  handled := false

/-- With a stop control handled and the wait registered, the completion of the
wait is queued, or it has run and stopped the `io_service`. -/
def StopKept (state : State) : Prop :=
  state.handled = true → state.wait ≠ .unregistered →
    state.wait = .queued ∨ (state.wait = .completed ∧ state.stopped = true)

/-- The main thread registers its wait before any stop control is handled. -/
def Prompt (state : State) : Event → Prop
  | .asyncWait => state.main = .reported → state.handled = false
  | _ => True

/-- The wait is registered by the main thread alone, and its completion is what
stops the `io_service`. -/
structure Consistent (state : State) : Prop where
  registered : state.main = .starting ∨ state.main = .reported → state.wait = .unregistered
  stops : state.wait = .completed → state.stopped = true

/-- Every step keeps the two in step. -/
theorem consistent_step (state : State) (event : Event) (next : State)
    (consistent : Consistent state) (stepped : step state event = some next) :
    Consistent next := by
  obtain ⟨registered, stops⟩ := consistent
  cases event <;> simp only [step, Option.ite_none_right_eq_some, Option.some.injEq] at stepped <;>
    obtain ⟨possible, rfl⟩ := stepped
  case initializationComplete => exact ⟨fun _ => registered (.inl possible), stops⟩
  case asyncWait => exact ⟨by simp, by simp⟩
  case runIo => exact ⟨by simp, stops⟩
  case complete => exact ⟨by simp [possible.1], fun _ => rfl⟩
  case returnFromRun => exact ⟨by simp, stops⟩
  case stopControl => exact ⟨registered, stops⟩
  case cancel =>
    refine ⟨fun early => by rw [registered early]; rfl, fun completed => stops ?_⟩
    cases waiting : state.wait <;> simp [cancelWait, waiting] at completed ⊢

/-- Nothing but a new wait can lose a stop. -/
theorem stopKept_step (state : State) (event : Event) (next : State)
    (other : event ≠ .asyncWait) (consistent : Consistent state) (kept : StopKept state)
    (stepped : step state event = some next) : StopKept next := by
  cases event <;> simp only [step, Option.ite_none_right_eq_some, Option.some.injEq] at stepped <;>
    obtain ⟨possible, rfl⟩ := stepped
  case initializationComplete => exact kept
  case asyncWait => exact absurd rfl other
  case runIo => exact kept
  case complete => exact fun _ _ => .inr ⟨rfl, rfl⟩
  case returnFromRun => exact kept
  case stopControl => exact kept
  case cancel =>
    intro _ registered
    cases waiting : state.wait with
    | unregistered => simp [waiting, cancelWait] at registered
    | pending => simp [cancelWait]
    | queued => simp [cancelWait]
    | completed => exact .inr ⟨by simp [cancelWait], consistent.stops waiting⟩

/-- A step keeps the stop exactly when it does not register the wait after a
stop control was handled. -/
theorem stopKept_step_iff (state : State) (event : Event) (consistent : Consistent state)
    (kept : StopKept state) :
    (∀ next, step state event = some next → StopKept next) ↔ Prompt state event := by
  cases event with
  | asyncWait =>
    rw [Prompt]
    constructor
    · intro all reported
      have next := all _ (if_pos reported)
      cases handled : state.handled with
      | false => rfl
      | true =>
        rcases next handled nofun with queued | completed
        · cases queued
        · cases completed.1
    · intro prompt next stepped
      simp only [step, Option.ite_none_right_eq_some, Option.some.injEq] at stepped
      obtain ⟨reported, rfl⟩ := stepped
      intro handled
      rw [prompt reported] at handled
      cases handled
  | _ =>
    refine iff_of_true (fun next stepped => ?_) trivial
    exact stopKept_step state _ next (by simp) consistent kept stepped

/-- Once its completion is queued, the `io_service` can be stopped and the main
thread goes on to the shutdown. -/
theorem exits_of_queued (state : State) (polling : state.main = .polling)
    (queued : state.wait = .queued) :
    ∃ final, run step state [.complete, .returnFromRun] = some final ∧ final.main = .exited := by
  refine ⟨{ state with
    wait := .completed, stopped := true, status := .stopPending, main := .exited }, ?_, rfl⟩
  rw [run_cons]
  refine ⟨_, if_pos ⟨polling, queued⟩, ?_⟩
  rw [run_cons]
  exact ⟨_, if_pos ⟨polling, rfl⟩, rfl⟩

/-- A wait that is pending with no control to come keeps the main thread
polling for good. -/
theorem polls_of_pending (events : List Event) (start final : State)
    (quiet : ∀ event ∈ events, event ≠ .stopControl)
    (lost : start.main = .polling ∧ start.wait = .pending ∧ start.stopped = false ∧
      start.cancelling = false)
    (ran : run step start events = some final) : final.main = .polling := by
  have kept : ∀ state event next,
      (state.main = .polling ∧ state.wait = .pending ∧ state.stopped = false ∧
        state.cancelling = false) → event ≠ .stopControl → step state event = some next →
      (next.main = .polling ∧ next.wait = .pending ∧ next.stopped = false ∧
        next.cancelling = false) := by
    rintro state event next ⟨polling, pending, running, idle⟩ other stepped
    cases event <;> simp_all [step]
  exact (guarded_invariant kept events start final lost (guarded_of_forall events start quiet)
    ran).1

/-- In every interleaving no stop is lost exactly when the main thread registers
its wait before any stop control is handled. The controls are accepted from the
report on, which comes first. -/
theorem stopKept_iff_prompt (events : List Event) :
    Always step StopKept initial events ↔ Guarded step Prompt initial events := by
  refine always_iff_guarded consistent_step stopKept_step_iff events initial ⟨?_, ?_⟩ ?_
  · exact fun _ => rfl
  · intro completed
    cases completed
  · intro handled
    cases handled

/-- A control between the report and the wait is lost. -/
theorem early_control_lost :
    ¬ Always step StopKept initial [.initializationComplete, .stopControl, .cancel, .asyncWait] := by
  intro always
  have lost := always_final _ initial _ always rfl
  exact absurd (lost rfl (by decide)) (by decide)

end Hadouken.ServiceHost
