import Mathlib.Tactic.Common

/-!
# Replaying queued work

Work that waits in a queue is done later, in order, and each item in one of
several ways its surroundings decide. A replay is one possible outcome of all
of it. A queue is settled for a property when every replay of it ends with that
property, whatever the surroundings decide.
-/

namespace Hadouken.Replay

universe u v w
variable {α : Type u} {ρ : Type v} {τ : Type w}

/-- One way to do all the queued items, in order. -/
inductive Replays (handles : α → ρ → ρ → Prop) : List α → ρ → ρ → Prop
  | nil (state : ρ) : Replays handles [] state state
  | cons {item : α} {rest : List α} {state next final : ρ}
      (first : handles item state next) (later : Replays handles rest next final) :
      Replays handles (item :: rest) state final

variable {handles : α → ρ → ρ → Prop}

/-- Nothing queued leaves the state as it is. -/
theorem replays_nil_iff (state final : ρ) : Replays handles [] state final ↔ final = state := by
  constructor
  · intro replay
    cases replay with
    | nil => rfl
  · rintro rfl
    exact .nil _

/-- An item added at the end is done last. -/
theorem replays_append_singleton_iff (queue : List α) (item : α) (state final : ρ) :
    Replays handles (queue ++ [item]) state final ↔
      ∃ middle, Replays handles queue state middle ∧ handles item middle final := by
  induction queue generalizing state with
  | nil =>
    constructor
    · intro replay
      cases replay with
      | cons first later =>
        obtain rfl := (replays_nil_iff _ _).mp later
        exact ⟨state, .nil _, first⟩
    · rintro ⟨middle, before, last⟩
      obtain rfl := (replays_nil_iff _ _).mp before
      exact .cons last (.nil _)
  | cons head rest ih =>
    constructor
    · intro replay
      cases replay with
      | cons first later =>
        obtain ⟨middle, before, last⟩ := (ih _).mp later
        exact ⟨middle, .cons first before, last⟩
    · rintro ⟨middle, before, last⟩
      cases before with
      | cons first later => exact .cons first ((ih _).mpr ⟨middle, later, last⟩)

/-- A relation that each queued item carries over from one way of handling to
another is carried over by the whole replay. -/
theorem Replays.simulate {handles' : α → τ → τ → Prop} {Related : ρ → τ → Prop} {queue : List α}
    (matched : ∀ item ∈ queue, ∀ state next other, Related state other →
      handles item state next → ∃ otherNext, handles' item other otherNext ∧
        Related next otherNext)
    {state final : ρ} (replay : Replays handles queue state final) (other : τ)
    (related : Related state other) :
    ∃ otherFinal, Replays handles' queue other otherFinal ∧ Related final otherFinal := by
  induction replay generalizing other with
  | nil state => exact ⟨other, .nil _, related⟩
  | cons first _ ih =>
    obtain ⟨otherNext, otherFirst, relatedNext⟩ :=
      matched _ List.mem_cons_self _ _ other related first
    have matchedLater := fun item member => matched item (List.mem_cons_of_mem _ member)
    obtain ⟨otherFinal, otherLater, relatedFinal⟩ := ih matchedLater otherNext relatedNext
    exact ⟨otherFinal, .cons otherFirst otherLater, relatedFinal⟩

end Hadouken.Replay
