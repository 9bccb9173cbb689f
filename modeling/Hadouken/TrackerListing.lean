import Hadouken.Library.StableSort
import Hadouken.PropertiesRoundTrip

/-!
# The list of trackers

`explodeTrackers` sorts the trackers into an array of tiers that grows on demand,
and lists the tiers one after the other. While no tier is left out the array holds
the buckets of the trackers so far, and the listing is the one of the trackers
sorted by tier.
-/

namespace Hadouken.TorrentProperties

open StableSort

/-- The lines of some trackers. -/
def listing (trackers : List AnnounceEntry) : String :=
  trackers.foldl (fun result tracker => result ++ tracker.url ++ "\r\n") ""

/-- The trackers in the order of their tiers, those of one tier as they were. -/
def byTier (trackers : List AnnounceEntry) : List AnnounceEntry := sortBy AnnounceEntry.tier trackers

/-- The trackers are all listed, by tier. -/
def ListedByTier (trackers : List AnnounceEntry) : Prop :=
  explodeTrackers trackers = some (listing (byTier trackers))

/-- The tiers below a number with the URLs of the trackers in them. -/
def tiersOf (trackers : List AnnounceEntry) (number : Nat) : List (Option (List String)) :=
  (List.range number).map fun tier =>
    some ((bucket AnnounceEntry.tier trackers tier).map AnnounceEntry.url)

/-- A tier has the trackers of its number. -/
theorem getElem?_tiersOf (trackers : List AnnounceEntry) (number tier : Nat) (inside : tier < number) :
    (tiersOf trackers number)[tier]? =
      some (some ((bucket AnnounceEntry.tier trackers tier).map AnnounceEntry.url)) := by
  simp [tiersOf, inside]

/-- One tier more. -/
theorem tiersOf_succ (trackers : List AnnounceEntry) (number : Nat) :
    tiersOf trackers (number + 1) = tiersOf trackers number ++
      [some ((bucket AnnounceEntry.tier trackers number).map AnnounceEntry.url)] := by
  rw [tiersOf, List.range_succ, List.map_append, List.map_singleton, ← tiersOf]

/-- A tracker goes behind those of its tier. -/
theorem bucket_concat (trackers : List AnnounceEntry) (tracker : AnnounceEntry) (tier : Nat) :
    (bucket AnnounceEntry.tier (trackers ++ [tracker]) tier).map AnnounceEntry.url =
      (bucket AnnounceEntry.tier trackers tier).map AnnounceEntry.url ++
        if tracker.tier = tier then [tracker.url] else [] := by
  rw [bucket, List.filter_append, List.map_append, ← bucket]
  by_cases same : tracker.tier = tier <;> simp [same]

/-- A tracker of a tier that is there, or of the next one, goes to the end of its
bucket. -/
theorem addTracker_tiersOf (trackers : List AnnounceEntry) (tracker : AnnounceEntry) (number : Nat)
    (below : ∀ earlier ∈ trackers, earlier.tier < number) (noGap : tracker.tier ≤ number) :
    addTracker (tiersOf trackers number) tracker =
      some (tiersOf (trackers ++ [tracker]) (max number (tracker.tier + 1))) := by
  have length : (tiersOf trackers number).length = number := by simp [tiersOf]
  rcases Nat.lt_or_eq_of_le noGap with inside | next
  · have number_eq : max number (tracker.tier + 1) = number := by omega
    rw [addTracker, if_neg (by omega), pushUrl, getElem?_tiersOf trackers number _ inside, number_eq]
    refine congrArg some (List.ext_getElem? fun tier => ?_)
    by_cases within : tier < number
    · rw [getElem?_tiersOf _ number tier within, bucket_concat, List.getElem?_set,
        getElem?_tiersOf trackers number tier within]
      by_cases same : tracker.tier = tier
      · simp [same, length, within]
      · simp [same]
    · rw [List.getElem?_eq_none (by simp [tiersOf]; omega),
        List.getElem?_eq_none (by simp [tiersOf]; omega)]
  · have number_eq : max number (tracker.tier + 1) = number + 1 := by omega
    obtain ⟨added, _⟩ := addTracker_next (tiersOf trackers number) tracker
      (by simp [Filled, tiersOf]) (next.trans length.symm)
    have fresh : bucket AnnounceEntry.tier trackers number = [] := by
      rw [bucket, List.filter_eq_nil_iff]
      intro earlier member
      simpa using Nat.ne_of_lt (below earlier member)
    have kept : tiersOf (trackers ++ [tracker]) number = tiersOf trackers number := by
      refine List.map_congr_left fun tier member => ?_
      have other : tracker.tier ≠ tier := by
        rw [List.mem_range] at member
        omega
      rw [bucket_concat, if_neg other, List.append_nil]
    rw [added, number_eq, tiersOf_succ, kept, bucket_concat, fresh, if_pos next]
    rfl

/-- The first loop leaves the buckets of all trackers. -/
theorem fillTiers_eq (later earlier : List AnnounceEntry) (number : Nat)
    (below : ∀ tracker ∈ earlier, tracker.tier < number) (noGap : NoGapFrom number later) :
    ∃ last, later.foldlM addTracker (tiersOf earlier number) =
        some (tiersOf (earlier ++ later) last) ∧
      ∀ tracker ∈ earlier ++ later, tracker.tier < last := by
  induction later generalizing earlier number with
  | nil => exact ⟨number, by simp, by simpa using below⟩
  | cons tracker rest ih =>
    obtain ⟨first, noGapRest⟩ := (noGapFrom_cons number tracker rest).mp noGap
    have belowNext : ∀ own ∈ earlier ++ [tracker], own.tier < max number (tracker.tier + 1) := by
      intro own member
      rcases List.mem_append.mp member with before | here
      · exact lt_of_lt_of_le (below own before) (Nat.le_max_left _ _)
      · obtain rfl := List.mem_singleton.mp here
        omega
    obtain ⟨last, filled, bounded⟩ := ih (earlier ++ [tracker]) _ belowNext noGapRest
    refine ⟨last, ?_, by simpa using bounded⟩
    rw [List.foldlM_cons, addTracker_tiersOf earlier tracker number below first]
    simpa using filled

/-- The second loop lists the buckets. -/
theorem joinTiers_tiersOf (trackers : List AnnounceEntry) (number : Nat) :
    joinTiers (tiersOf trackers number) =
      some (listing ((List.range number).flatMap (bucket AnnounceEntry.tier trackers))) := by
  have general : ∀ (tiers : List Nat) (result : String),
      (tiers.map fun tier =>
        some ((bucket AnnounceEntry.tier trackers tier).map AnnounceEntry.url)).foldlM joinTier result =
      some ((tiers.flatMap (bucket AnnounceEntry.tier trackers)).foldl
        (fun result tracker => result ++ tracker.url ++ "\r\n") result) := by
    intro tiers
    induction tiers with
    | nil => intro result; rfl
    | cons tier rest ih =>
      intro result
      rw [List.map_cons, List.foldlM_cons, joinTier, Option.map_some, Option.bind_eq_bind,
        Option.bind_some, ih, List.flatMap_cons, List.foldl_append, List.foldl_map]
  exact general (List.range number) ""

/-- Where no tier is left out, the trackers are listed by tier. -/
theorem explodeTrackers_of_noGap (trackers : List AnnounceEntry) (noGap : NoGap trackers) :
    explodeTrackers trackers = some (listing (byTier trackers)) := by
  have start : NoGapFrom 0 trackers := by simpa [NoGapFrom, NoGap] using noGap
  obtain ⟨last, filled, bounded⟩ := fillTiers_eq trackers [] 0 (by simp) start
  have buckets := buckets_eq_sortBy AnnounceEntry.tier (List.range last) List.pairwise_lt_range
    trackers fun tracker member => List.mem_range.mpr (bounded tracker member)
  have run : trackers.foldlM addTracker [] = some (tiersOf trackers last) := filled
  rw [explodeTrackers, run, Option.bind_eq_bind, Option.bind_some, joinTiers_tiersOf, buckets, byTier]

/-- The trackers are listed by tier exactly where no tier is left out; otherwise
there is no answer. -/
theorem listedByTier_iff_noGap (trackers : List AnnounceEntry) :
    ListedByTier trackers ↔ NoGap trackers := by
  constructor
  · intro listed
    exact (explodeTrackers_isSome_iff trackers).mp (by rw [listed]; rfl)
  · exact explodeTrackers_of_noGap trackers

/-- Every tracker is in the list once. -/
theorem perm_byTier (trackers : List AnnounceEntry) : (byTier trackers).Perm trackers :=
  perm_sortBy AnnounceEntry.tier trackers

/-- A torrent whose one tracker is in the second tier. -/
theorem second_tier_alone_not_listed :
    explodeTrackers [⟨1, "udp://tracker"⟩] = none ∧ ¬ ListedByTier [⟨1, "udp://tracker"⟩] := by
  have thrown : explodeTrackers [⟨1, "udp://tracker"⟩] = none := by decide
  exact ⟨thrown, fun listed => by rw [ListedByTier, thrown] at listed; cases listed⟩

end Hadouken.TorrentProperties
