import Hadouken.Library.Runs

/-!
# The threads of the script host

The script engine is used by three kinds of threads under one mutex. The main
thread loads the scripts, runs the `io_service` and with it the handlers of
alerts, and at the end unloads the scripts. Loading starts a ticker thread,
unless it returns early: because there is no script file, or because `load` is
no function. Threads of the HTTP server call the engine from when it listens,
and none of them is waited for.

Unloading clears a flag that the ticker reads, joins the ticker, and only then
takes the mutex. Joining a ticker that was never started throws, and the main
function ignores that. Each call of the engine takes the mutex when it starts and
returns it when it ends.
-/

namespace Hadouken.HostThreads

open Runs

/-- The threads that call the engine. -/
inductive Thread where
  | main
  | ticker
  | worker (number : Nat)
deriving DecidableEq

/-- The calls of the engine's entry points that are followed here. -/
inductive Call where
  | load
  | tick
  | emit
  | worker
  | unload
deriving DecidableEq

/-- Where the main thread is in `main` of main.cpp. -/
inductive Main where
  | configuring
  | starting
  | loading
  | listening
  | serving
  | emitting
  | stopping
  | joining
  | locking
  | unloading
  | done
deriving DecidableEq

/-- Where the ticker is in `script_host::tick`. -/
inductive Ticker where
  | absent
  | checking
  | locking
  | ticking
  | sleeping
  | finished
deriving DecidableEq

/-- The threads, the mutex and `is_running_`. The last field lists the calls that
were made, the newest first. -/
structure State where
  main : Main
  ticker : Ticker
  owner : Option Thread
  running : Bool
  served : Bool
  calls : List Call
deriving DecidableEq

/-- What a thread does next. -/
inductive Event where
  | configured (readable : Bool)
  | lockLoad
  | returnLoad (early : Bool)
  | loadThrows
  | startFails
  | listen
  | lockEmit
  | returnEmit
  | exit
  | clearRunning
  | joinThrows
  | join
  | lockUnload (callable : Bool)
  | returnUnload
  | checkRunning
  | lockTick
  | returnTick
  | wake
  | lockWorker (number : Nat)
  | returnWorker (number : Nat)
deriving DecidableEq

/-- One step of one of the threads. -/
def step (state : State) : Event → Option State
  | .configured readable =>
      if state.main = .configuring then
        some { state with main := if readable then .starting else .stopping }
      else none
  | .lockLoad =>
      if state.main = .starting ∧ state.owner = none then
        some { state with main := .loading, owner := some .main }
      else none
  | .returnLoad early =>
      if state.main = .loading then
        some (if early then { state with main := .listening, owner := none }
          else { state with
            main := .listening, owner := none, running := true, ticker := .checking,
            calls := .load :: state.calls })
      else none
  | .loadThrows =>
      if state.main = .loading then some { state with main := .stopping, owner := none } else none
  | .startFails =>
      -- an exception out of `application::start`, before loading or when listening
      if state.main = .starting ∨ state.main = .listening then
        some { state with main := .stopping }
      else none
  | .listen =>
      if state.main = .listening then some { state with main := .serving, served := true } else none
  | .lockEmit =>
      if state.main = .serving ∧ state.owner = none then
        some { state with main := .emitting, owner := some .main, calls := .emit :: state.calls }
      else none
  | .returnEmit =>
      if state.main = .emitting then some { state with main := .serving, owner := none } else none
  | .exit => if state.main = .serving then some { state with main := .stopping } else none
  | .clearRunning =>
      if state.main = .stopping then some { state with main := .joining, running := false }
      else none
  | .joinThrows =>
      if state.main = .joining ∧ state.ticker = .absent then some { state with main := .done }
      else none
  | .join =>
      if state.main = .joining ∧ state.ticker = .finished then
        some { state with main := .locking }
      else none
  | .lockUnload callable =>
      if state.main = .locking ∧ state.owner = none then
        some { state with
          main := .unloading, owner := some .main,
          calls := if callable then .unload :: state.calls else state.calls }
      else none
  | .returnUnload =>
      if state.main = .unloading then some { state with main := .done, owner := none } else none
  | .checkRunning =>
      if state.ticker = .checking then
        some { state with ticker := if state.running then .locking else .finished }
      else none
  | .lockTick =>
      if state.ticker = .locking ∧ state.owner = none then
        some { state with
          ticker := .ticking, owner := some .ticker, calls := .tick :: state.calls }
      else none
  | .returnTick =>
      if state.ticker = .ticking then some { state with ticker := .sleeping, owner := none }
      else none
  | .wake => if state.ticker = .sleeping then some { state with ticker := .checking } else none
  | .lockWorker number =>
      if state.served = true ∧ state.owner = none then
        some { state with owner := some (.worker number), calls := .worker :: state.calls }
      else none
  | .returnWorker number =>
      if state.owner = some (.worker number) then some { state with owner := none } else none

/-- The process before it read its configuration. -/
def initial : State where
  main := .configuring
  ticker := .absent
  owner := none
  running := false
  served := false
  calls := []

/-- The main thread uses the engine. -/
def Main.inEngine : Main → Bool
  | .loading | .emitting | .unloading => true
  | _ => false

/-- The main thread did not load the scripts yet. -/
def Main.early : Main → Bool
  | .configuring | .starting | .loading => true
  | _ => false

/-- The main thread is past the loop of the `io_service`. -/
def Main.late : Main → Bool
  | .joining | .locking | .unloading | .done => true
  | _ => false

/-- The mutex is held by whoever uses the engine. -/
structure Exclusive (state : State) : Prop where
  main : state.owner = some .main ↔ state.main.inEngine = true
  ticker : state.owner = some .ticker ↔ state.ticker = .ticking

/-- The ticker exists once the scripts were loaded, which is the first call. -/
structure Loaded (state : State) : Prop where
  ticker : state.ticker = .absent ↔ .load ∉ state.calls
  early : state.main.early = true → state.served = false ∧ state.calls = []

/-- The ticker is told to stop, and is finished before the scripts are unloaded. -/
structure Unloaded (state : State) : Prop where
  stopped : state.main.late = true → state.running = false
  joined : state.main = .locking ∨ state.main = .unloading → state.ticker = .finished
  main : .unload ∈ state.calls → state.main = .unloading ∨ state.main = .done
  finished : .unload ∈ state.calls → state.ticker = .finished

/-- The scripts are told to unload once at most, only after they loaded, and then
neither the ticker nor an alert calls them any more. Loading comes before every
other call. -/
def Ordered : List Call → Prop
  | [] => True
  | .load :: earlier => earlier = []
  | .tick :: earlier => .load ∈ earlier ∧ .unload ∉ earlier ∧ Ordered earlier
  | .emit :: earlier => .unload ∉ earlier ∧ Ordered earlier
  | .worker :: earlier => Ordered earlier
  | .unload :: earlier => .load ∈ earlier ∧ .unload ∉ earlier ∧ Ordered earlier

/-- A step leaves at most one thread in the engine. -/
theorem exclusive_step (state : State) (event : Event) (next : State)
    (exclusive : Exclusive state) (stepped : step state event = some next) :
    Exclusive next := by
  obtain ⟨main, ticker⟩ := exclusive
  cases event <;> simp only [step, Option.ite_none_right_eq_some, Option.some.injEq] at stepped <;>
    obtain ⟨possible, rfl⟩ := stepped
  case returnLoad early =>
    -- the mutex is the main thread's, so that the new ticker cannot hold it
    cases early <;> constructor <;> simp_all [Main.inEngine]
  case checkRunning =>
    cases running : state.running <;> constructor <;> simp_all
  case configured readable => cases readable <;> constructor <;> simp_all [Main.inEngine]
  case startFails => rcases possible with start | listening <;> constructor <;> simp_all [Main.inEngine]
  all_goals constructor <;> simp_all [Main.inEngine]

/-- A step keeps what is known of the load. -/
theorem loaded_step (state : State) (event : Event) (next : State) (loaded : Loaded state)
    (stepped : step state event = some next) : Loaded next := by
  obtain ⟨ticker, early⟩ := loaded
  cases event <;> simp only [step, Option.ite_none_right_eq_some, Option.some.injEq] at stepped <;>
    obtain ⟨possible, rfl⟩ := stepped
  case lockTick =>
    -- a ticker that waits for the mutex was started, so that there was a call
    have made : .load ∈ state.calls := by
      by_contra none
      rw [ticker.mpr none] at possible
      cases possible.1
    refine ⟨by simp [made], fun first => ?_⟩
    rw [(early first).2] at made
    cases made
  case returnLoad short => cases short <;> constructor <;> simp_all [Main.early]
  case checkRunning => cases running : state.running <;> constructor <;> simp_all
  case configured readable => cases readable <;> constructor <;> simp_all [Main.early]
  case startFails => rcases possible with start | listening <;> constructor <;> simp_all [Main.early]
  case lockUnload callable => cases callable <;> constructor <;> simp_all [Main.early]
  all_goals constructor <;> simp_all [Main.early]

/-- A step keeps what is known of the unload. -/
theorem unloaded_step (state : State) (event : Event) (next : State) (unloaded : Unloaded state)
    (stepped : step state event = some next) : Unloaded next := by
  obtain ⟨stopped, joined, main, finished⟩ := unloaded
  cases event <;> simp only [step, Option.ite_none_right_eq_some, Option.some.injEq] at stepped <;>
    obtain ⟨possible, rfl⟩ := stepped
  case returnLoad short => cases short <;> constructor <;> simp_all [Main.late]
  case configured readable => cases readable <;> constructor <;> simp_all [Main.late]
  case startFails => rcases possible with start | listening <;> constructor <;> simp_all [Main.late]
  case lockUnload callable => cases callable <;> constructor <;> simp_all [Main.late]
  case checkRunning => cases running : state.running <;> constructor <;> simp_all
  all_goals constructor <;> simp_all [Main.late]

/-- A ticker that runs was started by loading, and no unloading was. -/
theorem ticker_calls {state : State} (loaded : Loaded state) (unloaded : Unloaded state)
    (active : state.ticker ≠ .absent) (unfinished : state.ticker ≠ .finished) :
    .load ∈ state.calls ∧ .unload ∉ state.calls := by
  refine ⟨?_, fun told => unfinished (unloaded.finished told)⟩
  by_contra none
  exact active (loaded.ticker.mpr none)

/-- A step leaves the calls in their order. -/
theorem ordered_step (state : State) (event : Event) (next : State) (loaded : Loaded state)
    (unloaded : Unloaded state) (ordered : Ordered state.calls)
    (stepped : step state event = some next) : Ordered next.calls := by
  cases event <;> simp only [step, Option.ite_none_right_eq_some, Option.some.injEq] at stepped <;>
    obtain ⟨possible, rfl⟩ := stepped
  case returnLoad early =>
    cases early with
    | true => exact ordered
    | false => exact (loaded.early (by rw [possible]; rfl)).2
  case lockTick =>
    have calls := ticker_calls loaded unloaded (by simp [possible.1]) (by simp [possible.1])
    exact ⟨calls.1, calls.2, ordered⟩
  case lockEmit =>
    refine ⟨fun told => ?_, ordered⟩
    rcases unloaded.main told with at_ | at_ <;> rw [possible.1] at at_ <;> cases at_
  case lockUnload callable =>
    cases callable with
    | false => exact ordered
    | true =>
      have finished := unloaded.joined (.inl possible.1)
      refine ⟨?_, fun told => ?_, ordered⟩
      · by_contra none
        rw [loaded.ticker.mpr none] at finished
        cases finished
      · rcases unloaded.main told with at_ | at_ <;> rw [possible.1] at at_ <;> cases at_
  all_goals exact ordered

/-- What holds in every interleaving of the threads. -/
structure Safe (state : State) : Prop where
  exclusive : Exclusive state
  loaded : Loaded state
  unloaded : Unloaded state
  ordered : Ordered state.calls

/-- A step keeps all of it. -/
theorem safe_step (state : State) (event : Event) (next : State) (safe : Safe state)
    (stepped : step state event = some next) : Safe next where
  exclusive := exclusive_step state event next safe.exclusive stepped
  loaded := loaded_step state event next safe.loaded stepped
  unloaded := unloaded_step state event next safe.unloaded stepped
  ordered := ordered_step state event next safe.loaded safe.unloaded safe.ordered stepped

/-- It holds at the start. -/
theorem safe_initial : Safe initial where
  exclusive := ⟨by decide, by decide⟩
  loaded := ⟨by decide, fun _ => ⟨rfl, rfl⟩⟩
  unloaded := ⟨by decide, by decide, by decide, by decide⟩
  ordered := trivial

/-- It holds in every run. -/
theorem safe_run {events : List Event} {state : State} (ran : run step initial events = some state) :
    Safe state := run_invariant safe_step events initial state safe_initial ran

/-- In every interleaving the engine is used by the holder of the mutex alone,
loading is the first call, and unloading is told once at most, after loading and
with no tick and no alert behind it. -/
theorem calls_are_ordered (events : List Event) (state : State)
    (ran : run step initial events = some state) : Exclusive state ∧ Ordered state.calls :=
  ⟨(safe_run ran).exclusive, (safe_run ran).ordered⟩

/-- Two ticks and an alert with a request in between, and the shutdown with the
ticker waiting for the mutex. -/
theorem calls_are_ordered_witness :
    Exclusive ⟨.done, .finished, none, false, true,
        [.unload, .tick, .emit, .worker, .tick, .load]⟩ ∧
      Ordered [.unload, .tick, .emit, .worker, .tick, .load] :=
  calls_are_ordered
    [.configured true, .lockLoad, .returnLoad false, .listen, .checkRunning, .lockTick,
      .returnTick, .lockWorker 3, .returnWorker 3, .lockEmit, .wake, .checkRunning, .returnEmit,
      .exit, .clearRunning, .lockTick, .returnTick, .wake, .checkRunning, .join, .lockUnload true,
      .returnUnload] _ (by decide)

/-- The steps of the main thread and of the ticker. -/
def Event.own : Event → Bool
  | .lockWorker _ | .returnWorker _ => false
  | _ => true

/-- The steps the main thread still takes. -/
def Main.left : Main → Nat
  | .joining => 3
  | .locking => 2
  | .unloading => 1
  | _ => 0

/-- The steps the ticker still takes at most. -/
def Ticker.left : Ticker → Nat
  | .locking => 4
  | .ticking => 3
  | .sleeping => 2
  | .checking => 1
  | .absent | .finished => 0

/-- The steps the main thread and the ticker still take once the flag is cleared. -/
def left (state : State) : Nat := state.main.left + state.ticker.left

/-- They are no more than seven. -/
theorem left_le (state : State) : left state ≤ 7 := by
  have main : state.main.left ≤ 3 := by cases state.main <;> decide
  have ticker : state.ticker.left ≤ 4 := by cases state.ticker <;> decide
  exact Nat.add_le_add main ticker

/-- The flag is cleared. -/
structure Closing (state : State) : Prop extends Safe state where
  late : state.main.late = true

/-- A flag that was cleared is not set again. -/
theorem closing_step (state : State) (event : Event) (next : State) (closing : Closing state)
    (stepped : step state event = some next) : Closing next := by
  refine ⟨safe_step state event next closing.toSafe stepped, ?_⟩
  have late := closing.late
  cases event <;> simp only [step, Option.ite_none_right_eq_some, Option.some.injEq] at stepped <;>
    obtain ⟨possible, rfl⟩ := stepped
  case startFails => rcases possible with start | listening <;> simp_all [Main.late]
  all_goals first
    | exact late
    | rfl
    | simp_all [Main.late]

/-- A step of one of these two threads is one less that is left. -/
theorem left_step (state : State) (event : Event) (next : State) (closing : Closing state)
    (stepped : step state event = some next) :
    left next + (if event.own then 1 else 0) ≤ left state := by
  have late := closing.late
  have stopped := closing.unloaded.stopped late
  cases event <;> simp only [step, Option.ite_none_right_eq_some, Option.some.injEq] at stepped <;>
    obtain ⟨possible, rfl⟩ := stepped
  case startFails => rcases possible with start | listening <;> simp_all [Main.late]
  case checkRunning => simp_all [left, Event.own, Ticker.left]
  all_goals
    simp_all [left, Event.own, Main.late, Main.left, Ticker.left]
    try omega

/-- When neither the main thread nor the ticker uses the engine, a worker does or
nobody. -/
theorem free_or_worker {state : State} (exclusive : Exclusive state)
    (main : state.main.inEngine = false) (ticker : state.ticker ≠ .ticking) :
    state.owner = none ∨ ∃ number, state.owner = some (.worker number) := by
  cases held : state.owner with
  | none => exact .inl rfl
  | some thread =>
    cases thread with
    | main =>
      rw [exclusive.main.mp held] at main
      cases main
    | ticker => exact absurd (exclusive.ticker.mp held) ticker
    | worker number => exact .inr ⟨number, rfl⟩

/-- While the process is not done, the main thread or the ticker can go on, or
waits for a worker that is in the engine. -/
theorem closing_goes_on {state : State} (closing : Closing state) (unfinished : state.main ≠ .done) :
    ∃ event, (event.own = true ∨ ∃ number, event = .returnWorker number) ∧
      (step state event).isSome = true := by
  have wait : ∀ event, state.main.inEngine = false → state.ticker ≠ .ticking →
      event.own = true → (state.owner = none → (step state event).isSome = true) →
      ∃ event, (event.own = true ∨ ∃ number, event = .returnWorker number) ∧
        (step state event).isSome = true := by
    intro event main ticker own possible
    rcases free_or_worker closing.exclusive main ticker with free | ⟨number, held⟩
    · exact ⟨event, .inl own, possible free⟩
    · exact ⟨.returnWorker number, .inr ⟨number, rfl⟩, by simp [step, held]⟩
  have late := closing.late
  cases main : state.main <;> rw [main] at late unfinished <;> try cases late
  case done => exact absurd rfl unfinished
  case unloading => exact ⟨.returnUnload, .inl rfl, by simp [step, main]⟩
  case locking =>
    have finished := closing.unloaded.joined (.inl main)
    exact wait (.lockUnload true) (by rw [main]; rfl) (by simp [finished]) rfl
      fun free => by simp [step, main, free]
  case joining =>
    cases ticker : state.ticker with
    | absent => exact ⟨.joinThrows, .inl rfl, by simp [step, main, ticker]⟩
    | finished => exact ⟨.join, .inl rfl, by simp [step, main, ticker]⟩
    | checking => exact ⟨.checkRunning, .inl rfl, by simp [step, ticker]⟩
    | ticking => exact ⟨.returnTick, .inl rfl, by simp [step, ticker]⟩
    | sleeping => exact ⟨.wake, .inl rfl, by simp [step, ticker]⟩
    | locking =>
      exact wait .lockTick (by rw [main]; rfl) (by simp [ticker]) rfl
        fun free => by simp [step, ticker, free]

/-- Unloading cannot deadlock. From any moment at which the flag is cleared, in
every interleaving, the main thread and the ticker take seven more steps at most,
and until the process is done one of them can take its next step, or the HTTP
thread that is in the engine can leave it. -/
theorem unloading_comes_to_an_end (events : List Event) (state : State)
    (ran : run step initial events = some state) (late : state.main.late = true) :
    (∀ more final, run step state more = some final → (more.filter Event.own).length ≤ 7) ∧
      ∀ more final, run step state more = some final → final.main ≠ .done →
        ∃ event, (event.own = true ∨ ∃ number, event = .returnWorker number) ∧
          (step final event).isSome = true := by
  have closing : Closing state := ⟨safe_run ran, late⟩
  refine ⟨fun more final later => ?_, fun more final later unfinished => ?_⟩
  · have used := run_count_le closing_step left_step more state final closing later
    have bound := left_le state
    omega
  · exact closing_goes_on (run_invariant closing_step more state final closing later) unfinished

/-- The flag is cleared while the ticker waits for an alert to be handled. -/
theorem unloading_comes_to_an_end_witness :
    (∀ more final, run step ⟨.joining, .locking, none, false, true, [.emit, .load]⟩ more =
        some final → (more.filter Event.own).length ≤ 7) ∧
      ∀ more final, run step ⟨.joining, .locking, none, false, true, [.emit, .load]⟩ more =
        some final → final.main ≠ .done →
        ∃ event, (event.own = true ∨ ∃ number, event = .returnWorker number) ∧
          (step final event).isSome = true :=
  unloading_comes_to_an_end
    [.configured true, .lockLoad, .returnLoad false, .listen, .lockEmit, .checkRunning,
      .returnEmit, .exit, .clearRunning] _ (by decide) rfl

end Hadouken.HostThreads
