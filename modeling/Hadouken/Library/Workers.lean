import Hadouken.Library.Runs
import Mathlib.Logic.Function.Basic
import Mathlib.Data.List.Nodup

/-!
# Workers that share an engine

Requests come in at any time. A request that is admitted gets a worker of its
own, which takes messages one at a time until it stops, or makes one call of the
engine that all workers share. Messages of different workers come in any order.

Two facts hold in every interleaving. What a request calls is what its worker
makes of its own messages, as if no other were there. And the engine and the
answers are those of the calls made one after the other.
-/

namespace Hadouken.Workers

open Runs

variable {Engine Request Worker Message Call Answer : Type}

/-- What a worker does with a message. -/
inductive Progress (Worker Call : Type) where
  | goesOn (worker : Worker)
  | stops
  | calls (call : Call)

/-- What a service does: with a request, with a message of a worker, with a call. -/
structure Service (Engine Request Worker Message Call Answer : Type) where
  accept : Engine → Request → Option Worker
  take : Worker → Message → Progress Worker Call
  answer : Engine → Call → Answer × Engine

/-- A request, or a message for one of the workers. -/
inductive Event (Request Message : Type) where
  | request (request : Request)
  | deliver (number : Nat) (message : Message)

/-- Requests are numbered as they come. The calls and their answers stand in the
order in which they were made. -/
structure State (Engine Worker Call Answer : Type) where
  engine : Engine
  requests : Nat
  workers : Nat → Option Worker
  calls : List (Nat × Call)
  answers : List (Nat × Answer)

/-- No request has come. -/
def initial (engine : Engine) : State Engine Worker Call Answer := ⟨engine, 0, fun _ => none, [], []⟩

/-- The messages for one worker. -/
def messagesOf (number : Nat) : List (Event Request Message) → List Message
  | [] => []
  | .request _ :: later => messagesOf number later
  | .deliver receiver message :: later =>
      if receiver = number then message :: messagesOf number later else messagesOf number later

/-- What is called for one request. -/
def callsOf (number : Nat) (calls : List (Nat × Call)) : List Call :=
  (calls.filter fun call => call.1 = number).map Prod.snd

variable (service : Service Engine Request Worker Message Call Answer)

/-- A request comes in. -/
def received (state : State Engine Worker Call Answer) (request : Request) :
    State Engine Worker Call Answer :=
  { state with
    requests := state.requests + 1
    workers := Function.update state.workers state.requests (service.accept state.engine request) }

/-- A request is received, or a message is taken by its worker. -/
def step (state : State Engine Worker Call Answer) :
    Event Request Message → Option (State Engine Worker Call Answer)
  | .request request => some (received service state request)
  | .deliver number message => (state.workers number).map fun worker =>
      match service.take worker message with
      | .goesOn next => { state with workers := Function.update state.workers number (some next) }
      | .stops => { state with workers := Function.update state.workers number none }
      | .calls call => {
          engine := (service.answer state.engine call).2
          requests := state.requests
          workers := Function.update state.workers number none
          calls := state.calls ++ [(number, call)]
          answers := state.answers ++ [(number, (service.answer state.engine call).1)] }

/-- The calls a worker makes when it is alone with its messages. -/
def alone : Worker → List Message → List Call
  | _, [] => []
  | worker, message :: later =>
      match service.take worker message with
      | .goesOn next => alone next later
      | .stops => []
      | .calls call => [call]

/-- The answers and the engine when calls are made one after the other. -/
def replay : Engine → List (Nat × Call) → List (Nat × Answer) × Engine
  | engine, [] => ([], engine)
  | engine, (number, call) :: later =>
      let (result, next) := service.answer engine call
      let (results, final) := replay next later
      ((number, result) :: results, final)

/-- Calls are replayed one after the other. -/
theorem replay_append (engine : Engine) (first second : List (Nat × Call)) :
    replay service engine (first ++ second) =
      ((replay service engine first).1 ++ (replay service (replay service engine first).2 second).1,
        (replay service (replay service engine first).2 second).2) := by
  induction first generalizing engine with
  | nil => rfl
  | cons head rest ih =>
    obtain ⟨number, call⟩ := head
    simp only [List.cons_append, replay, ih]

/-- Numbers are used once: a worker's is one that was given, and that no call was
made for. -/
structure Orderly (state : State Engine Worker Call Answer) : Prop where
  given : ∀ call ∈ state.calls, call.1 < state.requests
  working : ∀ number worker, state.workers number = some worker →
    number < state.requests ∧ number ∉ state.calls.map Prod.fst
  nodup : (state.calls.map Prod.fst).Nodup

/-- It holds before the first request. -/
theorem orderly_initial (engine : Engine) :
    Orderly (initial engine : State Engine Worker Call Answer) where
  given _ member := by cases member
  working _ _ impossible := by cases impossible
  nodup := List.nodup_nil

/-- What each step does, and when it is possible. -/
theorem step_cases (state next : State Engine Worker Call Answer) (event : Event Request Message)
    (stepped : step service state event = some next) :
    match event with
    | .request request => next = received service state request
    | .deliver number message => ∃ worker, state.workers number = some worker ∧
        ((∃ other, service.take worker message = .goesOn other ∧ next = { state with
            workers := Function.update state.workers number (some other) }) ∨
          (service.take worker message = .stops ∧ next = { state with
            workers := Function.update state.workers number none }) ∨
          ∃ call, service.take worker message = .calls call ∧ next = {
            engine := (service.answer state.engine call).2
            requests := state.requests
            workers := Function.update state.workers number none
            calls := state.calls ++ [(number, call)]
            answers := state.answers ++ [(number, (service.answer state.engine call).1)] }) := by
  cases event with
  | request request => exact (Option.some.inj stepped).symm
  | deliver number message =>
    obtain ⟨worker, working, same⟩ := Option.map_eq_some_iff.mp stepped
    refine ⟨worker, working, ?_⟩
    cases taken : service.take worker message with
    | goesOn other =>
      rw [taken] at same
      exact .inl ⟨other, rfl, same.symm⟩
    | stops =>
      rw [taken] at same
      exact .inr (.inl ⟨rfl, same.symm⟩)
    | calls call =>
      rw [taken] at same
      exact .inr (.inr ⟨call, rfl, same.symm⟩)

/-- Every step keeps it. -/
theorem orderly_step (state : State Engine Worker Call Answer) (event : Event Request Message)
    (next : State Engine Worker Call Answer) (orderly : Orderly state)
    (stepped : step service state event = some next) : Orderly next := by
  have outcome := step_cases service state next event stepped
  cases event with
  | request request =>
    obtain rfl : next = received service state request := outcome
    refine ⟨fun call member => Nat.lt_succ_of_lt (orderly.given call member), ?_, orderly.nodup⟩
    intro number worker working
    by_cases new : number = state.requests
    · refine ⟨new ▸ Nat.lt_succ_self _, fun called => ?_⟩
      obtain ⟨call, member, same⟩ := List.mem_map.mp called
      exact absurd (orderly.given call member) (by omega)
    · have old : state.workers number = some worker := by
        rw [← working]
        exact (Function.update_of_ne new _ _).symm
      obtain ⟨before, uncalled⟩ := orderly.working number worker old
      exact ⟨Nat.lt_succ_of_lt before, uncalled⟩
  | deliver number message =>
    obtain ⟨worker, working, outcome⟩ := outcome
    obtain ⟨before, uncalled⟩ := orderly.working number worker working
    have others : ∀ entry other held, Function.update state.workers number entry other = some held →
        (other = number ∧ entry = some held) ∨ (other ≠ number ∧ state.workers other = some held) := by
      intro entry other held found
      by_cases own : other = number
      · subst own
        rw [Function.update_self] at found
        exact .inl ⟨rfl, found⟩
      · rw [Function.update_of_ne own] at found
        exact .inr ⟨own, found⟩
    rcases outcome with ⟨next, -, rfl⟩ | ⟨-, rfl⟩ | ⟨call, -, rfl⟩
    · refine ⟨orderly.given, fun other held found => ?_, orderly.nodup⟩
      rcases others _ other held found with ⟨rfl, -⟩ | ⟨-, old⟩
      · exact ⟨before, uncalled⟩
      · exact orderly.working other held old
    · refine ⟨orderly.given, fun other held found => ?_, orderly.nodup⟩
      rcases others _ other held found with ⟨-, impossible⟩ | ⟨-, old⟩
      · cases impossible
      · exact orderly.working other held old
    · constructor
      · intro made member
        rcases List.mem_append.mp member with earlier | new
        · exact orderly.given made earlier
        · obtain rfl := List.mem_singleton.mp new
          exact before
      · intro other held found
        rcases others _ other held found with ⟨-, impossible⟩ | ⟨apart, old⟩
        · cases impossible
        · obtain ⟨known, silent⟩ := orderly.working other held old
          refine ⟨known, ?_⟩
          simpa [List.map_append, apart] using silent
      · rw [List.map_append, List.nodup_append]
        refine ⟨orderly.nodup, List.nodup_singleton _, ?_⟩
        rintro earlier member _ new rfl
        obtain rfl : earlier = number := List.mem_singleton.mp new
        exact uncalled member

/-- It holds after every run. -/
theorem orderly_run (events : List (Event Request Message))
    (engine : Engine) (final : State Engine Worker Call Answer)
    (ran : run (step service) (initial engine) events = some final) : Orderly final :=
  run_invariant (orderly_step service) events (initial engine) final (orderly_initial engine) ran

/-- The engine and the answers are those of the calls, one after the other. -/
def Sequential (engine : Engine) (state : State Engine Worker Call Answer) : Prop :=
  replay service engine state.calls = (state.answers, state.engine)

/-- A step adds at most one call at the end. -/
theorem sequential_step (engine : Engine) (state : State Engine Worker Call Answer)
    (event : Event Request Message) (next : State Engine Worker Call Answer)
    (sequential : Sequential service engine state)
    (stepped : step service state event = some next) : Sequential service engine next := by
  have outcome := step_cases service state next event stepped
  cases event with
  | request request =>
    obtain rfl : next = received service state request := outcome
    exact sequential
  | deliver number message =>
    obtain ⟨worker, -, ⟨other, -, rfl⟩ | ⟨-, rfl⟩ | ⟨call, -, rfl⟩⟩ := outcome
    · exact sequential
    · exact sequential
    · have before : replay service engine state.calls = (state.answers, state.engine) := sequential
      rw [Sequential, replay_append, before]
      rfl

/-- The answers are those of the calls one after the other. -/
theorem sequential_run (events : List (Event Request Message))
    (engine : Engine) (final : State Engine Worker Call Answer)
    (ran : run (step service) (initial engine) events = some final) :
    Sequential service engine final :=
  run_invariant (sequential_step service engine) events (initial engine) final rfl ran

/-- The calls of a worker in two parts. -/
theorem callsOf_append (number : Nat) (first second : List (Nat × Call)) :
    callsOf number (first ++ second) = callsOf number first ++ callsOf number second := by
  simp [callsOf]

/-- From a state in which a number was given, the calls for it are those its
worker still makes of its own messages. -/
theorem callsOf_run (number : Nat) (events : List (Event Request Message))
    (state final : State Engine Worker Call Answer) (given : number < state.requests)
    (ran : run (step service) state events = some final) :
    callsOf number final.calls = callsOf number state.calls ++
      (match state.workers number with
        | some worker => alone service worker (messagesOf number events)
        | none => []) := by
  induction events generalizing state with
  | nil =>
    obtain rfl : state = final := Option.some.inj ran
    cases state.workers number <;> simp [messagesOf, alone]
  | cons event rest ih =>
    obtain ⟨next, stepped, later⟩ := (run_cons _ _ _ _).mp ran
    have outcome := step_cases service state next event stepped
    cases event with
    | request request =>
      obtain rfl : next = received service state request := outcome
      have same : Function.update state.workers state.requests
          (service.accept state.engine request) number = state.workers number :=
        Function.update_of_ne (Nat.ne_of_lt given) _ _
      rw [ih _ (by exact Nat.lt_succ_of_lt given) later, received]
      dsimp only
      rw [same]
      rfl
    | deliver receiver message =>
      obtain ⟨worker, working, outcome⟩ := outcome
      by_cases own : receiver = number
      · subst own
        rw [working]
        dsimp only
        rw [messagesOf, if_pos rfl, alone]
        rcases outcome with ⟨other, taken, rfl⟩ | ⟨taken, rfl⟩ | ⟨call, taken, rfl⟩
        · rw [ih _ (by exact given) later, taken]
          dsimp only
          rw [Function.update_self]
        · rw [ih _ (by exact given) later, taken]
          dsimp only
          rw [Function.update_self]
        · rw [ih _ (by exact given) later, taken]
          dsimp only
          rw [Function.update_self, List.append_nil, callsOf_append]
          simp [callsOf]
      · have apart : ∀ entry, Function.update state.workers receiver entry number =
            state.workers number := fun entry => Function.update_of_ne (Ne.symm own) _ _
        rw [messagesOf, if_neg own]
        rcases outcome with ⟨other, -, rfl⟩ | ⟨-, rfl⟩ | ⟨call, -, rfl⟩
        · rw [ih _ (by exact given) later]
          dsimp only
          rw [apart]
        · rw [ih _ (by exact given) later]
          dsimp only
          rw [apart]
        · rw [ih _ (by exact given) later]
          dsimp only
          rw [apart, callsOf_append]
          simp [callsOf, own]

/-- A call is one of its worker's. -/
theorem mem_calls_iff (number : Nat) (call : Call) (calls : List (Nat × Call)) :
    (number, call) ∈ calls ↔ call ∈ callsOf number calls := by
  simp [callsOf]

/-- A number that was given was given to one request, at one moment. -/
theorem given_split (events : List (Event Request Message))
    (state final : State Engine Worker Call Answer) (number : Nat)
    (later : state.requests ≤ number) (given : number < final.requests)
    (ran : run (step service) state events = some final) :
    ∃ before request after reached, events = before ++ .request request :: after ∧
      run (step service) state before = some reached ∧ reached.requests = number := by
  induction events generalizing state with
  | nil =>
    cases ran
    omega
  | cons event rest ih =>
    obtain ⟨next, stepped, continued⟩ := (run_cons _ _ _ _).mp ran
    have outcome := step_cases service state next event stepped
    have goesOn (low : next.requests ≤ number) : ∃ before request after reached,
        event :: rest = before ++ .request request :: after ∧
          run (step service) state before = some reached ∧ reached.requests = number := by
      obtain ⟨before, request, after, reached, rfl, first, same⟩ := ih next low continued
      exact ⟨event :: before, request, after, reached, rfl,
        (run_cons _ _ _ _).mpr ⟨next, stepped, first⟩, same⟩
    cases event with
    | request request =>
      by_cases here : state.requests = number
      · exact ⟨[], request, rest, state, rfl, rfl, here⟩
      · obtain rfl : next = received service state request := outcome
        exact goesOn (Nat.lt_of_le_of_ne later here)
    | deliver receiver message =>
      obtain ⟨worker, -, ⟨other, -, rfl⟩ | ⟨-, rfl⟩ | ⟨call, -, rfl⟩⟩ := outcome <;>
        exact goesOn later

/-- A request that comes in when a state is reached has the calls its worker
makes of the messages behind it. -/
theorem callsOf_request (engine : Engine) (before after : List (Event Request Message))
    (request : Request) (reached final : State Engine Worker Call Answer)
    (first : run (step service) (initial engine) before = some reached)
    (ran : run (step service) (initial engine) (before ++ .request request :: after) =
      some final) :
    callsOf reached.requests final.calls =
      (match service.accept reached.engine request with
        | some worker => alone service worker (messagesOf reached.requests after)
        | none => []) := by
  have orderly := orderly_run service before engine reached first
  obtain ⟨middle, again, later⟩ := (run_append _ _ _ _).mp ran
  obtain rfl : reached = middle := Option.some.inj (first.symm.trans again)
  obtain ⟨next, stepped, continued⟩ := (run_cons _ _ _ _).mp later
  have outcome := step_cases service reached next _ stepped
  obtain rfl : next = received service reached request := outcome
  rw [callsOf_run service reached.requests after _ final (by exact Nat.lt_succ_self _) continued,
    received]
  dsimp only
  rw [Function.update_self]
  have none : callsOf reached.requests reached.calls = [] := by
    simp only [callsOf, List.map_eq_nil_iff, List.filter_eq_nil_iff, decide_eq_true_eq]
    exact fun call member => Nat.ne_of_lt (orderly.given call member)
  rw [none, List.nil_append]

/-- In every interleaving: no request makes two calls; the engine and the answers
are those of the calls one after the other; and the calls are the ones that some
request's worker makes alone with its own messages. -/
theorem served_alone (engine : Engine) (events : List (Event Request Message))
    (final : State Engine Worker Call Answer)
    (ran : run (step service) (initial engine) events = some final) :
    (final.calls.map Prod.fst).Nodup ∧
      replay service engine final.calls = (final.answers, final.engine) ∧
      ∀ number call, (number, call) ∈ final.calls ↔
        ∃ before request after reached, events = before ++ .request request :: after ∧
          run (step service) (initial engine) before = some reached ∧ reached.requests = number ∧
          ∃ worker, service.accept reached.engine request = some worker ∧
            call ∈ alone service worker (messagesOf number after) := by
  have orderly := orderly_run service events engine final ran
  refine ⟨orderly.nodup, sequential_run service events engine final ran, fun number call => ?_⟩
  constructor
  · intro member
    obtain ⟨before, request, after, reached, rfl, first, rfl⟩ :=
      given_split service events _ final number (Nat.zero_le _) (orderly.given _ member) ran
    have own := callsOf_request service engine before after request reached final first ran
    refine ⟨before, request, after, reached, rfl, first, rfl, ?_⟩
    rw [mem_calls_iff, own] at member
    cases admitted : service.accept reached.engine request with
    | none =>
      rw [admitted] at member
      cases member
    | some worker =>
      rw [admitted] at member
      exact ⟨worker, rfl, member⟩
  · rintro ⟨before, request, after, reached, rfl, first, rfl, worker, admitted, member⟩
    rw [mem_calls_iff, callsOf_request service engine before after request reached final first ran,
      admitted]
    exact member

end Hadouken.Workers
