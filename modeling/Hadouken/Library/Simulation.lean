import Mathlib.Data.List.Forall2

/-!
# Machines with outputs

A machine answers every input and goes to another state. One machine simulates
another along a function of its states when each input leads to matching states
and to answers that agree; the answers of a whole run then agree.

A guard restricts the inputs in the states they are given in, and the runs to
those that meet it all the way.
-/

namespace Hadouken.Simulation

universe u v w x y
variable {σ : Type u} {τ : Type v} {ε : Type w} {ο : Type x} {π : Type y}

/-- The state after some inputs. -/
def after (step : σ → ε → σ × ο) (state : σ) (inputs : List ε) : σ :=
  inputs.foldl (fun state input => (step state input).1) state

/-- The answers to some inputs, in order. -/
def outputs (step : σ → ε → σ × ο) : σ → List ε → List ο
  | _, [] => []
  | state, input :: rest => (step state input).2 :: outputs step (step state input).1 rest

/-- Every input meets the guard in the state it is given in. -/
def GuardedRun (step : σ → ε → σ × ο) (guard : σ → ε → Prop) : σ → List ε → Prop
  | _, [] => True
  | state, input :: rest => guard state input ∧ GuardedRun step guard (step state input).1 rest

variable {first : σ → ε → σ × ο} {second : τ → ε → τ × π} {guard : σ → ε → Prop}

/-- What each input preserves, a run preserves: its answers agree, and its last
states match. -/
theorem simulates (abstract : σ → τ) (Agree : ο → π → Prop)
    (matched : ∀ state input, guard state input →
      abstract (first state input).1 = (second (abstract state) input).1 ∧
        Agree (first state input).2 (second (abstract state) input).2)
    (inputs : List ε) (state : σ) (guarded : GuardedRun first guard state inputs) :
    List.Forall₂ Agree (outputs first state inputs) (outputs second (abstract state) inputs) ∧
      abstract (after first state inputs) = after second (abstract state) inputs := by
  induction inputs generalizing state with
  | nil => exact ⟨.nil, rfl⟩
  | cons input rest ih =>
    obtain ⟨allowed, later⟩ := guarded
    obtain ⟨same, agree⟩ := matched state input allowed
    obtain ⟨answers, final⟩ := ih (first state input).1 later
    rw [same] at answers final
    exact ⟨.cons agree answers, final⟩

end Hadouken.Simulation
