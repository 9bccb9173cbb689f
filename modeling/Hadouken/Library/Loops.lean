import Mathlib.Tactic.Common

/-!
# Loops with a condition

A loop takes its body as long as a condition holds. It is given a number of
rounds; that they are enough follows from a measure which every round lowers.
-/

namespace Hadouken.Loops

universe u
variable {σ : Type u}

/-- Take the body while the condition holds, at most so many times. -/
def loop (condition : σ → Bool) (body : σ → σ) : Nat → σ → Option σ
  | 0, _ => none
  | rounds + 1, state =>
      if condition state then loop condition body rounds (body state) else some state

variable {condition : σ → Bool} {body : σ → σ}

/-- A loop ends where its condition fails, and keeps its invariant. -/
theorem loop_total (invariant : σ → Prop) (measure : σ → Nat)
    (keeps : ∀ state, invariant state → condition state = true → invariant (body state))
    (lowers : ∀ state, invariant state → condition state = true →
      measure (body state) < measure state)
    (rounds : Nat) (state : σ) (start : invariant state) (enough : measure state < rounds) :
    ∃ final, loop condition body rounds state = some final ∧ invariant final ∧
      condition final = false := by
  induction rounds generalizing state with
  | zero => exact absurd enough (Nat.not_lt_zero _)
  | succ rounds ih =>
    cases holds : condition state with
    | false => exact ⟨state, by simp [loop, holds], start, holds⟩
    | true =>
      have lower := lowers state start holds
      obtain ⟨final, ends, kept, fails⟩ := ih (body state) (keeps state start holds) (by omega)
      refine ⟨final, ?_, kept, fails⟩
      rwa [loop, if_pos holds]

end Hadouken.Loops
