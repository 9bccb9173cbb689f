import Mathlib.Data.List.Basic

/-!
# Loops that an iteration can cut short

One iteration emits some effects and then either lets the loop go on or ends
it, by an early return or by an exception nobody catches inside the loop. The
effects are recorded item by item, so that an item the loop never reaches is
visible as an item without effects.
-/

namespace Hadouken.AbortingLoop

universe u v w
variable {α : Type u} {β : Type v} {γ : Type w}

/-- What one iteration does. -/
structure Iteration (β : Type v) where
  effects : List β
  goesOn : Bool
deriving DecidableEq

/-- The effects of each item, in order; the items after an iteration that ends
the loop have none. -/
def effects (body : α → Iteration β) : List α → List (List β)
  | [] => []
  | item :: rest =>
      (body item).effects ::
        if (body item).goesOn then effects body rest else rest.map fun _ => []

/-- The loop runs through all its items. -/
def completes (body : α → Iteration β) (items : List α) : Bool :=
  items.all fun item => (body item).goesOn

variable (body : α → Iteration β)

/-- An item is reached when no earlier one ends the loop. -/
def Reached (earlier : List α) : Prop := ∀ item ∈ earlier, (body item).goesOn = true

/-- A loop that completes has given every item its own effects. -/
theorem effects_of_completes (items : List α) (complete : completes body items = true) :
    effects body items = items.map fun item => (body item).effects := by
  induction items with
  | nil => rfl
  | cons item rest ih =>
    obtain ⟨goesOn, later⟩ : (body item).goesOn = true ∧ completes body rest = true := by
      simpa [completes] using complete
    simp [effects, goesOn, ih later]

/-- One item more, after items that the loop runs through. -/
theorem effects_concat (items : List α) (last : α) (complete : completes body items = true) :
    effects body (items ++ [last]) = effects body items ++ [(body last).effects] := by
  induction items with
  | nil => simp [effects]
  | cons item rest ih =>
    obtain ⟨goesOn, later⟩ : (body item).goesOn = true ∧ completes body rest = true := by
      simpa [completes] using complete
    simp [effects, goesOn, ih later]

/-- With the last item the loop is completed where that goes on. -/
theorem completes_concat (items : List α) (last : α) (complete : completes body items = true) :
    completes body (items ++ [last]) = (body last).goesOn := by
  rw [completes] at complete
  simp [completes, complete]

/-- An item that goes on leaves what is behind it as reachable as before. -/
theorem reached_cons_of_pos (first : α) (earlier : List α) (goesOn : (body first).goesOn = true) :
    Reached body (first :: earlier) ↔ Reached body earlier := by
  simp [Reached, goesOn]

/-- Behind an item that ends the loop nothing is reached. -/
theorem not_reached_cons (first : α) (earlier : List α) (ends : ¬ (body first).goesOn = true) :
    ¬ Reached body (first :: earlier) :=
  fun reached => ends (reached first List.mem_cons_self)

/-- What holds of every split of a list holds of its head with nothing before
it, and of every split of the rest with the head before it. -/
theorem forall_splits_cons_iff (holds : List α → α → Prop) (first : α) (rest : List α) :
    (∀ earlier item later, first :: rest = earlier ++ item :: later → holds earlier item) ↔
      holds [] first ∧
        ∀ earlier item later, rest = earlier ++ item :: later → holds (first :: earlier) item := by
  constructor
  · intro all
    refine ⟨all [] first rest rfl, fun earlier item later split => ?_⟩
    exact all (first :: earlier) item later (by rw [split]; rfl)
  · rintro ⟨here, behind⟩ earlier item later split
    cases earlier with
    | nil =>
      obtain ⟨rfl, rfl⟩ := List.cons.inj split
      exact here
    | cons head tail =>
      obtain ⟨rfl, restSplit⟩ := List.cons.inj split
      exact behind tail item later restSplit

/-- The loop gives every item the wanted effects exactly when each item it
reaches emits what is wanted of it, and nothing is wanted of the others. The
induction moves the first item into the reached prefix. -/
theorem effects_eq_iff (wanted : α → List β) (items : List α) :
    effects body items = items.map wanted ↔
      ∀ earlier item later, items = earlier ++ item :: later →
        (Reached body earlier → (body item).effects = wanted item) ∧
        (¬ Reached body earlier → wanted item = []) := by
  induction items with
  | nil => simp [effects]
  | cons first rest ih =>
    rw [effects, List.map_cons, List.cons.injEq, forall_splits_cons_iff (fun earlier item =>
      (Reached body earlier → (body item).effects = wanted item) ∧
        (¬ Reached body earlier → wanted item = []))]
    have front : Reached body [] := by simp [Reached]
    apply and_congr
    · simp [front]
    · by_cases goesOn : (body first).goesOn = true
      · simp only [if_pos goesOn, reached_cons_of_pos body first _ goesOn, ih]
      · have unreached := fun earlier => not_reached_cons body first earlier goesOn
        simp only [if_neg goesOn, unreached, false_imp_iff, true_and, not_false_iff, true_imp_iff,
          List.map_inj_left]
        constructor
        · intro unwanted earlier item later split
          exact (unwanted item (by simp [split])).symm
        · intro unwanted item member
          obtain ⟨earlier, later, split⟩ := List.append_of_mem member
          exact (unwanted earlier item later split).symm

/-- An iteration with its effects seen through a partial view. -/
def Iteration.view (seen : β → Option γ) (iteration : Iteration β) : Iteration γ where
  effects := iteration.effects.filterMap seen
  goesOn := iteration.goesOn

/-- The view of all effects is that of each iteration's. -/
theorem filterMap_flatten_effects (seen : β → Option γ) (items : List α) :
    (effects body items).flatten.filterMap seen =
      (effects (fun item => (body item).view seen) items).flatten := by
  induction items with
  | nil => rfl
  | cons item rest ih =>
    cases goesOn : (body item).goesOn <;>
      simp_all [effects, Iteration.view]

/-- Parts of two lists make up both exactly when each is the whole of its own. -/
theorem append_eq_append_iff_of_sublist {first second whole rest : List β}
    (part : first.Sublist whole) (later : second.Sublist rest) :
    first ++ second = whole ++ rest ↔ first = whole ∧ second = rest := by
  constructor
  · intro same
    have total := congrArg List.length same
    have short := part.length_le
    have behind := later.length_le
    simp only [List.length_append] at total
    exact List.append_inj same (by omega)
  · rintro ⟨rfl, rfl⟩
    rfl

section Wanted

variable (wanted : α → List β)

/-- A loop whose iterations do no more than is wanted does no more as a whole. -/
theorem flatten_effects_sublist (items : List α)
    (few : ∀ item ∈ items, (body item).effects.Sublist (wanted item)) :
    (effects body items).flatten.Sublist (items.map wanted).flatten := by
  induction items with
  | nil => exact .slnil
  | cons first rest ih =>
    have own := few first List.mem_cons_self
    rw [effects, List.map_cons, List.flatten_cons, List.flatten_cons]
    split
    · exact own.append (ih fun item member => few item (List.mem_cons_of_mem first member))
    · simpa using own.append (List.nil_sublist (rest.map wanted).flatten)

/-- It does all of it exactly when each item of which something is wanted is
reached and does it. -/
theorem flatten_effects_eq_iff (items : List α)
    (few : ∀ item ∈ items, (body item).effects.Sublist (wanted item)) :
    (effects body items).flatten = (items.map wanted).flatten ↔
      ∀ earlier item later, items = earlier ++ item :: later → wanted item ≠ [] →
        Reached body earlier ∧ (body item).effects = wanted item := by
  induction items with
  | nil => simp [effects]
  | cons first rest ih =>
    have own := few first List.mem_cons_self
    have others : ∀ item ∈ rest, (body item).effects.Sublist (wanted item) :=
      fun item member => few item (List.mem_cons_of_mem first member)
    have front : Reached body [] := by simp [Reached]
    rw [forall_splits_cons_iff (fun earlier item => wanted item ≠ [] →
      Reached body earlier ∧ (body item).effects = wanted item), and_iff_right front, effects,
      List.map_cons, List.flatten_cons, List.flatten_cons]
    have head : (wanted first ≠ [] → (body first).effects = wanted first) ↔
        (body first).effects = wanted first := by
      by_cases nothing : wanted first = []
      · rw [nothing] at own ⊢
        simp [List.sublist_nil.mp own]
      · simp [nothing]
    rw [head]
    by_cases goesOn : (body first).goesOn = true
    · rw [if_pos goesOn, append_eq_append_iff_of_sublist own
        (flatten_effects_sublist body wanted rest others), ih others]
      simp only [reached_cons_of_pos body first _ goesOn]
    · have none : (rest.map fun _ => ([] : List β)).flatten = [] := by simp
      have unreached := fun earlier => not_reached_cons body first earlier goesOn
      rw [if_neg goesOn, none, append_eq_append_iff_of_sublist own (List.nil_sublist _)]
      simp only [unreached, false_and, imp_false, ne_eq, not_not]
      refine and_congr_right fun _ => ⟨?_, ?_⟩
      · intro unwanted earlier item later split
        have all := List.flatten_eq_nil_iff.mp unwanted.symm
        exact all (wanted item) (List.mem_map_of_mem (by simp [split]))
      · intro unwanted
        refine (List.flatten_eq_nil_iff.mpr fun own inside => ?_).symm
        obtain ⟨item, member, rfl⟩ := List.mem_map.mp inside
        obtain ⟨earlier, later, split⟩ := List.append_of_mem member
        exact unwanted earlier item later split

end Wanted

end Hadouken.AbortingLoop
