import Hadouken.Library.Members
import Mathlib.Algebra.BigOperators.Group.List.Basic
import Mathlib.Algebra.GroupWithZero.Nat
import Mathlib.Data.List.Induction

/-!
# Tallies

A tally counts how often each item of a list occurs. It is kept as named numbers,
and an item more makes its number one higher.
-/

namespace Hadouken.Tallies

universe u
variable {κ : Type u} [DecidableEq κ] [BEq κ] [LawfulBEq κ]

/-- One more of an item. -/
def bump (counts : List (κ × Nat)) (item : κ) : List (κ × Nat) :=
  assign item ((counts.lookup item).getD 0 + 1) counts

/-- The items of a list with their numbers, in the order of their first
occurrences. -/
def tally (items : List κ) : List (κ × Nat) := items.foldl bump []

omit [LawfulBEq κ] in
/-- The last item is counted last. -/
theorem tally_concat (items : List κ) (item : κ) :
    tally (items ++ [item]) = bump (tally items) item := by
  rw [tally, List.foldl_concat, ← tally]

/-- Every item has its number. -/
theorem lookup_tally (items : List κ) (item : κ) :
    (tally items).lookup item = if item ∈ items then some (items.count item) else none := by
  induction items using List.reverseRecOn with
  | nil => rfl
  | append_singleton items last ih =>
    rw [tally_concat, bump, lookup_assign, List.count_append]
    by_cases same : item = last
    · subst same
      rw [if_pos rfl, if_pos (by simp), ih]
      by_cases earlier : item ∈ items
      · simp [earlier]
      · simp [earlier, List.count_eq_zero_of_not_mem earlier]
    · have other : last ≠ item := Ne.symm same
      rw [if_neg same, ih]
      simp [same, other]

/-- Every item is counted once. -/
theorem nodup_tally (items : List κ) : ((tally items).map Prod.fst).Nodup := by
  induction items using List.reverseRecOn with
  | nil => exact List.nodup_nil
  | append_singleton items last ih =>
    rw [tally_concat]
    exact nodup_keys_assign _ _ _ ih

/-- What a tally holds: the items that occur, with their numbers. -/
theorem mem_tally_iff (items : List κ) (item : κ) (number : Nat) :
    (item, number) ∈ tally items ↔ 0 < number ∧ items.count item = number := by
  constructor
  · intro member
    have found := lookup_of_mem item number _ (nodup_tally items) member
    rw [lookup_tally] at found
    split at found
    · rename_i occurs
      obtain rfl := Option.some.inj found
      exact ⟨List.count_pos_iff.mpr occurs, rfl⟩
    · cases found
  · rintro ⟨positive, rfl⟩
    refine mem_of_lookup item _ _ ?_
    rw [lookup_tally, if_pos (List.count_pos_iff.mp positive)]

/-- Assigning a number changes the total by the difference. -/
theorem total_assign (item : κ) (number : Nat) (counts : List (κ × Nat)) :
    ((assign item number counts).map Prod.snd).sum + (counts.lookup item).getD 0 =
      (counts.map Prod.snd).sum + number := by
  induction counts with
  | nil => simp [assign]
  | cons entry rest ih =>
    rw [lookup_cons_ite]
    by_cases same : item = entry.1
    · simp only [assign, same, if_true, List.map_cons, List.sum_cons, Option.getD_some]
      omega
    · simp only [assign, same, if_false, List.map_cons, List.sum_cons]
      omega

/-- The numbers add up to the length of the list. -/
theorem total_tally (items : List κ) : ((tally items).map Prod.snd).sum = items.length := by
  induction items using List.reverseRecOn with
  | nil => rfl
  | append_singleton items last ih =>
    have total := total_assign last (((tally items).lookup last).getD 0 + 1) (tally items)
    rw [tally_concat, bump, List.length_append, List.length_singleton]
    omega

end Hadouken.Tallies
