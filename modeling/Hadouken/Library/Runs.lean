import Mathlib.Data.Option.Basic

/-!
# Runs of a labelled machine

A machine is a partial step function: a label names what happens, including
every choice its environment makes, and a step that is impossible in the
current state has no result. A run takes its labels in order.

The induction rules below are the only ones a client needs. One carries an
invariant along every run; another carries it along those runs whose steps all
meet a guard, which is how a conditional guarantee about whole runs is stated.
The last tells when a guard is the exact condition for a property of every state
reached.
-/

namespace Hadouken.Runs

universe u v
variable {σ : Type u} {ε : Type v}

/-- Take the labelled steps in order. The run has no result as soon as one of
its steps is impossible. -/
def run (step : σ → ε → Option σ) : σ → List ε → Option σ
  | state, [] => some state
  | state, event :: rest => (step state event).bind fun next => run step next rest

variable {step : σ → ε → Option σ}

/-- A nonempty run is its first step followed by the rest of the run. -/
theorem run_cons (state final : σ) (event : ε) (rest : List ε) :
    run step state (event :: rest) = some final ↔
      ∃ next, step state event = some next ∧ run step next rest = some final := by
  simp [run, Option.bind_eq_some_iff]

/-- Two stretches of a run are taken one after the other. -/
theorem run_append (before after : List ε) (state final : σ) :
    run step state (before ++ after) = some final ↔
      ∃ reached, run step state before = some reached ∧ run step reached after = some final := by
  induction before generalizing state with
  | nil => simp [run]
  | cons event rest ih =>
    simp only [List.cons_append, run_cons, ih]
    constructor
    · rintro ⟨next, stepped, reached, first, second⟩
      exact ⟨reached, ⟨next, stepped, first⟩, second⟩
    · rintro ⟨reached, ⟨next, stepped, first⟩, second⟩
      exact ⟨next, stepped, reached, first, second⟩

/-- An invariant kept by each step is kept by each run. -/
theorem run_invariant {Invariant : σ → Prop}
    (preserved : ∀ state event next, Invariant state → step state event = some next →
      Invariant next)
    (events : List ε) (start final : σ) (initial : Invariant start)
    (ran : run step start events = some final) : Invariant final := by
  induction events generalizing start with
  | nil =>
    obtain rfl : start = final := Option.some.inj ran
    exact initial
  | cons event rest ih =>
    obtain ⟨next, stepped, continued⟩ := (run_cons start final event rest).mp ran
    exact ih next (preserved start event next initial stepped) continued

/-- Every step of the run, from the state it is taken in, meets the guard. -/
def Guarded (step : σ → ε → Option σ) (guard : σ → ε → Prop) : σ → List ε → Prop
  | _, [] => True
  | state, event :: rest =>
      guard state event ∧ ∀ next, step state event = some next → Guarded step guard next rest

/-- A run meets the guard when its first step does and the rest does. -/
theorem guarded_cons {guard : σ → ε → Prop} {state next : σ} {event : ε} {rest : List ε}
    (stepped : step state event = some next) (first : guard state event)
    (later : Guarded step guard next rest) : Guarded step guard state (event :: rest) := by
  refine ⟨first, fun reached same => ?_⟩
  obtain rfl := Option.some.inj (stepped.symm.trans same)
  exact later

/-- A guard on the labels alone is met when each label of the run meets it. -/
theorem guarded_of_forall {allowed : ε → Prop} (events : List ε) (start : σ)
    (all : ∀ event ∈ events, allowed event) :
    Guarded step (fun _ event => allowed event) start events := by
  induction events generalizing start with
  | nil => trivial
  | cons event rest ih =>
    refine ⟨all event List.mem_cons_self, fun next _ => ?_⟩
    exact ih next fun later member => all later (List.mem_cons_of_mem event member)

/-- Two guards that agree under an invariant are met by the same runs. -/
theorem guarded_congr {Invariant : σ → Prop} {first second : σ → ε → Prop}
    (preserved : ∀ state event next, Invariant state → step state event = some next →
      Invariant next)
    (agree : ∀ state event, Invariant state → (first state event ↔ second state event))
    (events : List ε) (start : σ) (initial : Invariant start) :
    Guarded step first start events ↔ Guarded step second start events := by
  induction events generalizing start with
  | nil => exact Iff.rfl
  | cons event rest ih =>
    simp only [Guarded]
    refine and_congr (agree start event initial) (forall_congr' fun next => ?_)
    exact imp_congr_right fun stepped => ih next (preserved start event next initial stepped)

/-- An invariant kept by the guarded steps is kept by the guarded runs. -/
theorem guarded_invariant {Invariant : σ → Prop} {guard : σ → ε → Prop}
    (preserved : ∀ state event next, Invariant state → guard state event →
      step state event = some next → Invariant next)
    (events : List ε) (start final : σ) (initial : Invariant start)
    (guarded : Guarded step guard start events)
    (ran : run step start events = some final) : Invariant final := by
  induction events generalizing start with
  | nil =>
    obtain rfl : start = final := Option.some.inj ran
    exact initial
  | cons event rest ih =>
    obtain ⟨next, stepped, continued⟩ := (run_cons start final event rest).mp ran
    exact ih next (preserved start event next initial guarded.1 stepped)
      (guarded.2 next stepped) continued

/-- The property holds now and in every state the run reaches. -/
def Always (step : σ → ε → Option σ) (holds : σ → Prop) : σ → List ε → Prop
  | state, [] => holds state
  | state, event :: rest =>
      holds state ∧ ∀ next, step state event = some next → Always step holds next rest

/-- What holds always holds now. -/
theorem always_now {holds : σ → Prop} (state : σ) (events : List ε)
    (always : Always step holds state events) : holds state := by
  cases events with
  | nil => exact always
  | cons event rest => exact always.1

/-- A property that holds always holds at the end. -/
theorem always_final {holds : σ → Prop} (events : List ε) (start final : σ)
    (always : Always step holds start events) (ran : run step start events = some final) :
    holds final := by
  induction events generalizing start with
  | nil =>
    obtain rfl : start = final := Option.some.inj ran
    exact always
  | cons event rest ih =>
    obtain ⟨next, stepped, continued⟩ := (run_cons start final event rest).mp ran
    exact ih next (always.2 next stepped) continued

/-- What an invariant of the guarded steps implies holds always on the guarded
runs. -/
theorem always_of_guarded {Invariant holds : σ → Prop} {guard : σ → ε → Prop}
    (preserved : ∀ state event next, Invariant state → guard state event →
      step state event = some next → Invariant next)
    (sound : ∀ state, Invariant state → holds state)
    (events : List ε) (start : σ) (initial : Invariant start)
    (guarded : Guarded step guard start events) : Always step holds start events := by
  induction events generalizing start with
  | nil => exact sound start initial
  | cons event rest ih =>
    refine ⟨sound start initial, fun next stepped => ?_⟩
    exact ih next (preserved start event next initial guarded.1 stepped) (guarded.2 next stepped)

/-- Where a step keeps the property exactly when it meets the guard, the
property holds in every state reached exactly when every step meets the guard. -/
theorem always_iff_guarded {Invariant holds : σ → Prop} {guard : σ → ε → Prop}
    (preserved : ∀ state event next, Invariant state → step state event = some next →
      Invariant next)
    (exact : ∀ state event, Invariant state → holds state →
      ((∀ next, step state event = some next → holds next) ↔ guard state event))
    (events : List ε) (start : σ) (initial : Invariant start) (held : holds start) :
    Always step holds start events ↔ Guarded step guard start events := by
  induction events generalizing start with
  | nil => exact iff_of_true held trivial
  | cons event rest ih =>
    constructor
    · rintro ⟨_, later⟩
      have kept : ∀ next, step start event = some next → holds next := fun next stepped =>
        always_now next rest (later next stepped)
      refine ⟨(exact start event initial held).mp kept, fun next stepped => ?_⟩
      exact (ih next (preserved start event next initial stepped) (kept next stepped)).mp
        (later next stepped)
    · rintro ⟨first, later⟩
      have kept := (exact start event initial held).mpr first
      refine ⟨held, fun next stepped => ?_⟩
      exact (ih next (preserved start event next initial stepped) (kept next stepped)).mpr
        (later next stepped)

/-- Events that each use up a part of a measure that no step adds to are at most
as many as the measure says. -/
theorem run_count_le {Invariant : σ → Prop} {counted : ε → Bool} {left : σ → Nat}
    (preserved : ∀ state event next, Invariant state → step state event = some next →
      Invariant next)
    (uses : ∀ state event next, Invariant state → step state event = some next →
      left next + (if counted event then 1 else 0) ≤ left state)
    (events : List ε) (start final : σ) (initial : Invariant start)
    (ran : run step start events = some final) :
    left final + (events.filter counted).length ≤ left start := by
  induction events generalizing start with
  | nil =>
    obtain rfl : start = final := Option.some.inj ran
    exact Nat.le_refl _
  | cons event rest ih =>
    obtain ⟨next, stepped, continued⟩ := (run_cons start final event rest).mp ran
    have used := uses start event next initial stepped
    have later := ih next (preserved start event next initial stepped) continued
    cases own : counted event <;> simp [own] at used ⊢ <;> omega

end Hadouken.Runs
