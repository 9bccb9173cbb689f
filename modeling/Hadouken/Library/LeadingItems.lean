import Mathlib.Data.List.Basic

/-!
# Lists that a property leads

A list is led by a property when the items that have it stand before all items
that do not. Such a list is what is needed for the items that a filter keeps to
stay at their places.
-/

namespace Hadouken.LeadingItems

universe u
variable {α : Type u} (property : α → Bool)

/-- Items with the property stand before all items without it. -/
def Leading (items : List α) : Prop :=
  ∃ front back, items = front ++ back ∧ (∀ item ∈ front, property item = true) ∧
    ∀ item ∈ back, property item = false

/-- An item with the property may stand in front. -/
theorem leading_cons_of_pos (item : α) (rest : List α) (own : property item = true) :
    Leading property (item :: rest) ↔ Leading property rest := by
  constructor
  · rintro ⟨front, back, split, kept, dropped⟩
    cases front with
    | nil =>
      have inBack : item ∈ back := by
        rw [← List.nil_append back, ← split]
        exact List.mem_cons_self
      rw [dropped item inBack] at own
      cases own
    | cons first front =>
      obtain ⟨rfl, rfl⟩ := List.cons.inj split
      exact ⟨front, back, rfl, fun other member => kept other (List.mem_cons_of_mem _ member),
        dropped⟩
  · rintro ⟨front, back, rfl, kept, dropped⟩
    refine ⟨item :: front, back, rfl, fun other member => ?_, dropped⟩
    rcases List.mem_cons.mp member with rfl | later
    · exact own
    · exact kept other later

/-- Behind an item without it no other may have it. -/
theorem leading_cons_of_neg (item : α) (rest : List α) (other : property item = false) :
    Leading property (item :: rest) ↔ rest.filter property = [] := by
  constructor
  · rintro ⟨front, back, split, kept, dropped⟩
    cases front with
    | nil =>
      refine List.filter_eq_nil_iff.mpr fun later member => ?_
      have inBack : later ∈ back := by
        rw [← List.nil_append back, ← split]
        exact List.mem_cons_of_mem _ member
      simp [dropped later inBack]
    | cons first front =>
      obtain ⟨rfl, _⟩ := List.cons.inj split
      rw [kept item List.mem_cons_self] at other
      cases other
  · intro none
    refine ⟨[], item :: rest, rfl, by simp, fun later member => ?_⟩
    rcases List.mem_cons.mp member with rfl | inside
    · exact other
    · simpa using List.filter_eq_nil_iff.mp none later inside

/-- The items that are kept stand, each in its reduced form, where they are in
the whole list, exactly when they lead it and are reduced already. Reducing an
item does not change whether it is kept. -/
theorem filter_getElem_iff (reduce : α → α) (items : List α)
    (same : ∀ item, property (reduce item) = property item) :
    (∀ (i : Nat) (kept whole : α), (items.filter property)[i]? = some kept →
        items[i]? = some whole → reduce whole = kept) ↔
      (∀ item ∈ items, property item = true → reduce item = item) ∧ Leading property items := by
  induction items with
  | nil => simp [Leading]
  | cons first rest ih =>
    cases own : property first with
    | true =>
      rw [leading_cons_of_pos property first rest own, List.filter_cons_of_pos own]
      constructor
      · intro agree
        have later := ih.mp fun i kept whole => agree (i + 1) kept whole
        refine ⟨fun item member has => ?_, later.2⟩
        rcases List.mem_cons.mp member with rfl | inside
        · exact agree 0 item item rfl rfl
        · exact later.1 item inside has
      · rintro ⟨reduced, leading⟩ i kept whole inKept inWhole
        cases i with
        | zero =>
          obtain rfl := Option.some.inj inKept
          obtain rfl := Option.some.inj inWhole
          exact reduced first List.mem_cons_self own
        | succ i =>
          exact ih.mpr ⟨fun item member => reduced item (List.mem_cons_of_mem _ member), leading⟩
            i kept whole inKept inWhole
    | false =>
      rw [leading_cons_of_neg property first rest own, List.filter_cons_of_neg (by simp [own])]
      constructor
      · intro agree
        have none : rest.filter property = [] := by
          cases found : rest.filter property with
          | nil => rfl
          | cons kept others =>
            have moved := agree 0 kept first (by rw [found]; rfl) rfl
            have has : property kept = true :=
              (List.mem_filter.mp (found ▸ List.mem_cons_self)).2
            rw [← moved, same, own] at has
            cases has
        refine ⟨fun item member has => ?_, none⟩
        rcases List.mem_cons.mp member with rfl | inside
        · rw [own] at has
          cases has
        · exact absurd has (List.filter_eq_nil_iff.mp none item inside)
      · rintro ⟨_, none⟩ i kept whole inKept _
        rw [none] at inKept
        cases inKept

end Hadouken.LeadingItems
