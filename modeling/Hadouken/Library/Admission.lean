import Mathlib.Data.List.Nodup

/-!
# Admitting items once

Items arrive in order, each with a key. An item is admitted when it is accepted
and its key has not been seen, and its key counts as seen from then on. What is
admitted from a whole sequence is determined by the keys seen at first and the
accepted items alone, however the sequence is cut into parts.
-/

namespace Hadouken.Admission

universe u v
variable {α : Type u} {κ : Type v} [DecidableEq κ] (key : α → κ) (accept : α → Bool)

/-- The items admitted from a sequence, in their order. -/
def admitted : List κ → List α → List α
  | _, [] => []
  | seen, item :: rest =>
      if key item ∈ seen ∨ accept item = false then admitted seen rest
      else item :: admitted (seen ++ [key item]) rest

/-- An item that was seen, or is not accepted, is skipped. -/
theorem admitted_cons_skip (seen : List κ) (item : α) (rest : List α)
    (skipped : key item ∈ seen ∨ accept item = false) :
    admitted key accept seen (item :: rest) = admitted key accept seen rest := if_pos skipped

/-- A fresh item that is accepted is taken. -/
theorem admitted_cons_take (seen : List κ) (item : α) (rest : List α) (fresh : key item ∉ seen)
    (accepted : accept item = true) : admitted key accept seen (item :: rest) =
      item :: admitted key accept (seen ++ [key item]) rest :=
  if_neg (by simp [fresh, accepted])

/-- A second part goes on with what the first part has admitted. -/
theorem admitted_append (seen : List κ) (first second : List α) :
    admitted key accept seen (first ++ second) = admitted key accept seen first ++
      admitted key accept (seen ++ (admitted key accept seen first).map key) second := by
  induction first generalizing seen with
  | nil => simp [admitted]
  | cons item rest ih =>
    by_cases skipped : key item ∈ seen ∨ accept item = false
    · rw [List.cons_append, admitted_cons_skip _ _ _ _ _ skipped, admitted_cons_skip _ _ _ _ _ skipped]
      exact ih seen
    · rw [not_or, Bool.not_eq_false] at skipped
      rw [List.cons_append, admitted_cons_take _ _ _ _ _ skipped.1 skipped.2,
        admitted_cons_take _ _ _ _ _ skipped.1 skipped.2, ih]
      simp [List.append_assoc]

/-- The keys admitted are those of accepted items that were not seen at first. -/
theorem mem_admitted_iff (seen : List κ) (items : List α) (wanted : κ) :
    wanted ∈ (admitted key accept seen items).map key ↔
      wanted ∉ seen ∧ ∃ item ∈ items, key item = wanted ∧ accept item = true := by
  induction items generalizing seen with
  | nil => simp [admitted]
  | cons item rest ih =>
    by_cases skipped : key item ∈ seen ∨ accept item = false
    · rw [admitted_cons_skip _ _ _ _ _ skipped, ih]
      have noFirst : wanted ∉ seen → ¬ (key item = wanted ∧ accept item = true) := by
        rintro fresh ⟨rfl, accepted⟩
        rcases skipped with old | refused
        · exact fresh old
        · rw [accepted] at refused
          cases refused
      simp only [List.exists_mem_cons_iff]
      exact and_congr_right fun fresh => (or_iff_right (noFirst fresh)).symm
    · rw [not_or, Bool.not_eq_false] at skipped
      rw [admitted_cons_take _ _ _ _ _ skipped.1 skipped.2, List.map_cons, List.mem_cons, ih]
      simp only [List.exists_mem_cons_iff, List.mem_append, List.mem_singleton, not_or]
      by_cases same : wanted = key item
      · subst same
        simp [skipped.1, skipped.2]
      · simp [same, Ne.symm same]

/-- No key is admitted twice. -/
theorem nodup_admitted (seen : List κ) (items : List α) :
    ((admitted key accept seen items).map key).Nodup := by
  induction items generalizing seen with
  | nil => exact List.nodup_nil
  | cons item rest ih =>
    by_cases skipped : key item ∈ seen ∨ accept item = false
    · rw [admitted_cons_skip _ _ _ _ _ skipped]
      exact ih seen
    · rw [not_or, Bool.not_eq_false] at skipped
      rw [admitted_cons_take _ _ _ _ _ skipped.1 skipped.2, List.map_cons, List.nodup_cons]
      refine ⟨fun again => ?_, ih _⟩
      have fresh := ((mem_admitted_iff key accept _ rest (key item)).mp again).1
      exact fresh (by simp)

end Hadouken.Admission
