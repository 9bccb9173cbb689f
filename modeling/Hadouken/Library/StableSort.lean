import Mathlib.Data.List.Basic
import Mathlib.Order.Lattice

/-!
# Stable sorting by a key

Sorting by a key keeps the order of the items that share one. The sorted list is
made up of the buckets of the keys, taken in the order of the keys: this is what a
bucket sort computes.
-/

namespace Hadouken.StableSort

universe u v
variable {α : Type u} {κ : Type v} [LinearOrder κ] (key : α → κ)

/-- The comparison of two items by their keys. -/
def atMost (first second : α) : Bool := decide (key first ≤ key second)

/-- Sort by a key. -/
def sortBy (items : List α) : List α := items.mergeSort (atMost key)

/-- The items with one key, in their order. -/
def bucket (items : List α) (own : κ) : List α := items.filter fun item => key item = own

/-- It is transitive. -/
theorem atMost_trans (first second third : α) (lower : atMost key first second = true)
    (upper : atMost key second third = true) : atMost key first third = true :=
  decide_eq_true (le_trans (of_decide_eq_true lower) (of_decide_eq_true upper))

/-- It is total. -/
theorem atMost_total (first second : α) :
    (atMost key first second || atMost key second first) = true := by
  simpa [atMost] using le_total (key first) (key second)

/-- Sorting changes the order only. -/
theorem perm_sortBy (items : List α) : (sortBy key items).Perm items := List.mergeSort_perm _ _

/-- The keys ascend. -/
theorem pairwise_sortBy (items : List α) :
    (sortBy key items).Pairwise fun first second => key first ≤ key second := by
  have sorted := List.pairwise_mergeSort (atMost_trans key) (atMost_total key) items
  exact sorted.imp fun below => of_decide_eq_true below

/-- Sorting leaves each bucket as it was. -/
theorem bucket_sortBy (items : List α) (own : κ) :
    bucket key (sortBy key items) own = bucket key items own := by
  have within : (bucket key items own).Sublist (sortBy key items) := by
    refine List.sublist_mergeSort (atMost_trans key) (atMost_total key) ?_ List.filter_sublist
    refine List.pairwise_of_forall_mem_list fun first firstIn second secondIn => ?_
    rw [bucket, List.mem_filter, decide_eq_true_eq] at firstIn secondIn
    simp [atMost, firstIn.2, secondIn.2]
  have same : bucket key (bucket key items own) own = bucket key items own := by
    simp [bucket, List.filter_filter]
  have part : (bucket key items own).Sublist (bucket key (sortBy key items) own) := by
    rw [← same]
    exact within.filter _
  exact (part.eq_of_length ((perm_sortBy key items).symm.filter _).length_eq).symm

/-- In a sorted list the bucket of the lowest key comes first. -/
theorem bucket_append (items : List α) (own : κ) (least : ∀ item ∈ items, own ≤ key item)
    (sorted : items.Pairwise fun first second => key first ≤ key second) :
    bucket key items own ++ items.filter (fun item => key item ≠ own) = items := by
  induction items with
  | nil => rfl
  | cons item rest ih =>
    obtain ⟨below, sortedRest⟩ := List.pairwise_cons.mp sorted
    have leastRest : ∀ other ∈ rest, own ≤ key other := fun other member =>
      least other (List.mem_cons_of_mem _ member)
    have split := ih leastRest sortedRest
    by_cases same : key item = own
    · rw [bucket, List.filter_cons_of_pos (by simpa using same),
        List.filter_cons_of_neg (by simpa using same), List.cons_append, ← bucket, split]
    · have above : ∀ other ∈ rest, key other ≠ own := fun other member equal =>
        same (le_antisymm (equal ▸ below other member) (least item List.mem_cons_self))
      have none : bucket key (item :: rest) own = [] := by
        rw [bucket, List.filter_eq_nil_iff]
        intro other member
        rcases List.mem_cons.mp member with rfl | later
        · simpa using same
        · simpa using above other later
      have all : (item :: rest).filter (fun item => key item ≠ own) = item :: rest := by
        rw [List.filter_eq_self]
        intro other member
        rcases List.mem_cons.mp member with rfl | later
        · simpa using same
        · simpa using above other later
      rw [none, all, List.nil_append]

/-- A sorted list is made up of its buckets. The induction is on the keys, lowest
first. -/
theorem flatMap_bucket (keys : List κ) (ascending : keys.Pairwise (· < ·)) (items : List α)
    (covered : ∀ item ∈ items, key item ∈ keys)
    (sorted : items.Pairwise fun first second => key first ≤ key second) :
    keys.flatMap (bucket key items) = items := by
  induction keys generalizing items with
  | nil =>
    cases items with
    | nil => rfl
    | cons item rest => exact absurd (covered item List.mem_cons_self) List.not_mem_nil
  | cons own rest ih =>
    obtain ⟨below, ascendingRest⟩ := List.pairwise_cons.mp ascending
    have least : ∀ item ∈ items, own ≤ key item := by
      intro item member
      rcases List.mem_cons.mp (covered item member) with same | later
      · exact le_of_eq same.symm
      · exact le_of_lt (below _ later)
    have others : rest.flatMap (bucket key items) =
        rest.flatMap (bucket key (items.filter fun item => key item ≠ own)) := by
      refine List.flatMap_congr fun other member => ?_
      have distinct : other ≠ own := ne_of_gt (below other member)
      rw [bucket, bucket, List.filter_filter]
      refine List.filter_congr fun item _ => ?_
      by_cases here : key item = other
      · simp [here, distinct]
      · simp [here]
    have later := ih ascendingRest (items.filter fun item => key item ≠ own)
      (fun item member => by
        rw [List.mem_filter, decide_eq_true_eq] at member
        exact (List.mem_cons.mp (covered item member.1)).resolve_left member.2)
      (sorted.sublist List.filter_sublist)
    rw [List.flatMap_cons, others, later, bucket_append key items own least sorted]

/-- A bucket sort sorts stably. -/
theorem buckets_eq_sortBy (keys : List κ) (ascending : keys.Pairwise (· < ·)) (items : List α)
    (covered : ∀ item ∈ items, key item ∈ keys) :
    keys.flatMap (bucket key items) = sortBy key items := by
  have split := flatMap_bucket key keys ascending (sortBy key items)
    (fun item member => covered item ((perm_sortBy key items).mem_iff.mp member))
    (pairwise_sortBy key items)
  rw [← split]
  exact List.flatMap_congr fun own _ => (bucket_sortBy key items own).symm

end Hadouken.StableSort
