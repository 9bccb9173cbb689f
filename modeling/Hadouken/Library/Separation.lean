import Mathlib.Data.List.Basic

/-!
# Parts of a separated list

`List.splitOn` cuts a list at every separator. These laws read a result back:
the first part ends at the first separator, and the parts after it are those of
what follows. They carry statements about two parts to the list itself, with no
reference to how the split is computed.
-/

namespace Hadouken.Separation

universe u
variable {α : Type u} [BEq α] [LawfulBEq α]

/-- The first part holds no separator and either is the whole list or stops at
a separator, after which the other parts begin. -/
theorem splitOn_eq_cons_iff (separator : α) (items first : List α) (others : List (List α)) :
    items.splitOn separator = first :: others ↔
      separator ∉ first ∧ ((others = [] ∧ items = first) ∨
        ∃ rest, items = first ++ separator :: rest ∧ rest.splitOn separator = others) := by
  constructor
  · intro split
    by_cases present : separator ∈ items
    · obtain ⟨before, after, whole, absent⟩ := List.eq_append_cons_of_mem present
      rw [whole, List.splitOn_append_cons_self_of_not_mem absent] at split
      obtain ⟨rfl, rfl⟩ := List.cons.inj split
      exact ⟨absent, .inr ⟨after, whole, rfl⟩⟩
    · rw [List.splitOn_eq_singleton present] at split
      obtain ⟨rfl, rfl⟩ := List.cons.inj split
      exact ⟨present, .inl ⟨rfl, rfl⟩⟩
  · rintro ⟨absent, ⟨rfl, rfl⟩ | ⟨rest, rfl, rfl⟩⟩
    · exact List.splitOn_eq_singleton absent
    · exact List.splitOn_append_cons_self_of_not_mem absent rest

/-- No part holds the separator. -/
theorem not_mem_of_mem_splitOn (separator : α) (items part : List α)
    (member : part ∈ items.splitOn separator) : separator ∉ part := by
  generalize split : items.splitOn separator = parts at member
  induction parts generalizing items with
  | nil => cases member
  | cons first others ih =>
    obtain ⟨absent, ⟨rfl, _⟩ | ⟨rest, _, later⟩⟩ :=
      (splitOn_eq_cons_iff separator items first others).mp split
    · rw [List.mem_singleton.mp member]
      exact absent
    · rcases List.mem_cons.mp member with rfl | inside
      · exact absent
      · exact ih rest later inside

/-- The parts are made of the list's items. -/
theorem subset_of_mem_splitOn (separator : α) (items part : List α)
    (member : part ∈ items.splitOn separator) : part ⊆ items := by
  generalize split : items.splitOn separator = parts at member
  induction parts generalizing items with
  | nil => cases member
  | cons first others ih =>
    obtain ⟨_, ⟨rfl, rfl⟩ | ⟨rest, rfl, later⟩⟩ :=
      (splitOn_eq_cons_iff separator items first others).mp split
    · rw [List.mem_singleton.mp member]
      exact List.Subset.refl _
    · rcases List.mem_cons.mp member with rfl | inside
      · exact List.subset_append_left _ _
      · intro item own
        exact List.mem_append_right _ (List.mem_cons_of_mem _ (ih rest later inside own))

/-- There are exactly two given parts when the list is these, joined by one
separator. -/
theorem splitOn_eq_pair_iff (separator : α) (items first second : List α) :
    items.splitOn separator = [first, second] ↔
      separator ∉ first ∧ separator ∉ second ∧ items = first ++ separator :: second := by
  rw [splitOn_eq_cons_iff]
  constructor
  · rintro ⟨absent, ⟨impossible, _⟩ | ⟨rest, whole, split⟩⟩
    · simp at impossible
    · rw [splitOn_eq_cons_iff] at split
      obtain ⟨free, ⟨_, rfl⟩ | ⟨_, _, impossible⟩⟩ := split
      · exact ⟨absent, free, whole⟩
      · exact absurd impossible (List.splitOn_ne_nil _ _)
  · rintro ⟨absent, free, whole⟩
    exact ⟨absent, .inr ⟨second, whole, List.splitOn_eq_singleton free⟩⟩

/-- The first two parts are the given ones exactly when neither holds a
separator and the list is these two, either alone or followed by another
separator. -/
theorem first_two_iff (separator : α) (items first second : List α) :
    (∃ others, items.splitOn separator = first :: second :: others) ↔
      separator ∉ first ∧ separator ∉ second ∧
        (items = first ++ separator :: second ∨
          ∃ rest, items = first ++ separator :: (second ++ separator :: rest)) := by
  constructor
  · rintro ⟨others, split⟩
    obtain ⟨absent, ⟨impossible, _⟩ | ⟨rest, whole, continued⟩⟩ :=
      (splitOn_eq_cons_iff _ _ _ _).mp split
    · simp at impossible
    · obtain ⟨free, ⟨_, rfl⟩ | ⟨further, rfl, _⟩⟩ := (splitOn_eq_cons_iff _ _ _ _).mp continued
      · exact ⟨absent, free, .inl whole⟩
      · exact ⟨absent, free, .inr ⟨further, whole⟩⟩
  · rintro ⟨absent, free, rfl | ⟨rest, rfl⟩⟩
    · exact ⟨[], (splitOn_eq_pair_iff _ _ _ _).mpr ⟨absent, free, rfl⟩⟩
    · refine ⟨rest.splitOn separator, ?_⟩
      rw [List.splitOn_append_cons_self_of_not_mem absent,
        List.splitOn_append_cons_self_of_not_mem free]

omit [BEq α] [LawfulBEq α] in
/-- A pattern without the separator occurs on one side of it. -/
theorem infix_of_infix_append_cons {separator : α} {pattern before after : List α}
    (free : separator ∉ pattern) (found : pattern <:+: before ++ separator :: after) :
    pattern <:+: before ∨ pattern <:+: after := by
  obtain ⟨left, right, whole⟩ := found
  rw [List.append_assoc, List.append_eq_append_iff] at whole
  obtain ⟨front, rfl, rest⟩ | ⟨front, rfl, rest⟩ := whole
  · rw [List.append_eq_append_iff] at rest
    obtain ⟨tail, rfl, _⟩ | ⟨tail, rfl, rest⟩ := rest
    · exact .inl ⟨left, tail, by simp⟩
    · cases tail with
      | nil => exact .inl ⟨left, [], by simp⟩
      | cons head tail =>
        obtain ⟨rfl, _⟩ := List.cons.inj rest
        exact absurd (List.mem_append_right _ List.mem_cons_self) free
  · cases front with
    | nil =>
      cases pattern with
      | nil => exact .inl List.nil_infix
      | cons head tail =>
        obtain ⟨rfl, _⟩ := List.cons.inj rest
        exact absurd List.mem_cons_self free
    | cons head front =>
      obtain ⟨rfl, rfl⟩ := List.cons.inj rest
      exact .inr ⟨front, right, by simp⟩

/-- A pattern without the separator occurs in a part where it occurs at all. -/
theorem infix_iff_splitOn {separator : α} {pattern : List α} (free : separator ∉ pattern)
    (items : List α) :
    pattern <:+: items ↔ ∃ part ∈ items.splitOn separator, pattern <:+: part := by
  generalize split : items.splitOn separator = parts
  induction parts generalizing items with
  | nil => exact absurd split (List.splitOn_ne_nil separator items)
  | cons first others ih =>
    obtain ⟨_, ⟨rfl, rfl⟩ | ⟨rest, rfl, later⟩⟩ :=
      (splitOn_eq_cons_iff separator items first others).mp split
    · simp
    · have inner := ih rest later
      constructor
      · intro found
        rcases infix_of_infix_append_cons free found with before | after
        · exact ⟨first, List.mem_cons_self, before⟩
        · obtain ⟨part, member, inside⟩ := inner.mp after
          exact ⟨part, List.mem_cons_of_mem _ member, inside⟩
      · rintro ⟨part, member, inside⟩
        rcases List.mem_cons.mp member with rfl | member
        · exact inside.trans (List.prefix_append _ _).isInfix
        · apply (inner.mpr ⟨part, member, inside⟩).trans
          exact ⟨first ++ [separator], [], by simp⟩

end Hadouken.Separation
