import Mathlib.Tactic.Common

/-!
# Programs with an error and a state

A program changes a state and either returns or raises an error; the state
reached before the error stays. `exec` runs one from a state, and the equations
below evaluate it step by step, so that a client never unfolds the two monads.
-/

namespace Hadouken

universe u
variable {ε σ α β : Type u}

/-- A program over the state `σ` that may raise an `ε`. -/
abbrev Program (ε σ : Type u) : Type u → Type u := ExceptT ε (StateM σ)

namespace Program

/-- Run from a state: the outcome, and the state it leaves. -/
def exec (program : Program ε σ α) (state : σ) : Except ε α × σ := program.run.run state

/-- A result leaves the state. -/
@[simp] theorem exec_pure (value : α) (state : σ) :
    exec (pure value : Program ε σ α) state = (.ok value, state) := rfl

/-- An error leaves the state. -/
@[simp] theorem exec_throw (error : ε) (state : σ) :
    exec (throw error : Program ε σ α) state = (.error error, state) := rfl

/-- The state is read. -/
@[simp] theorem exec_get (state : σ) :
    exec (get : Program ε σ σ) state = (.ok state, state) := rfl

/-- A sequence goes on with the returned value, in the state it left, and stops
at an error. -/
@[simp] theorem exec_bind (first : Program ε σ α) (next : α → Program ε σ β) (state : σ) :
    exec (first >>= next) state =
      match exec first state with
      | (.ok value, reached) => exec (next value) reached
      | (.error error, reached) => (.error error, reached) := by
  cases outcome : exec first state with
  | mk result reached =>
    have ran : first.run.run state = (result, reached) := outcome
    cases result <;>
      simp only [exec, ExceptT.run_bind, StateT.run_bind, ran] <;> rfl

/-- The result is changed, an error is not. -/
@[simp] theorem exec_map (change : α → β) (program : Program ε σ α) (state : σ) :
    exec (change <$> program) state =
      match exec program state with
      | (.ok value, reached) => (.ok (change value), reached)
      | (.error error, reached) => (.error error, reached) := by
  rw [map_eq_pure_bind, exec_bind]
  rfl

end Program

end Hadouken
