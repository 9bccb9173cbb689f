import Mathlib.Data.List.Nodup

/-!
# Moves of items in a queue

One item at a time moves by one place, or to one of the ends. A selection is
moved item by item, in the order it has in the queue. Single moves interact: an
item that moves up passes the one in front of it, and that one stays in front of
the next item that moves.

For the moves by one place, the whole selection is moved by one pass along the
queue. For the moves to an end, the outcome is known in closed form.
-/

namespace Hadouken.QueueMoves

universe u
variable {α : Type u}

section Passes

variable (selected : α → Bool)

/-- One pass up: the item in front is passed by the selected ones that follow,
until one that is not selected takes its place. -/
def passUp : α → List α → List α
  | carried, [] => [carried]
  | carried, item :: rest =>
      if selected item then item :: passUp carried rest else carried :: passUp item rest

/-- One pass down: two selected neighbours exchange their places twice. -/
def passDown : List α → List α
  | first :: second :: rest =>
      if selected first then
        if selected second then first :: second :: passDown rest
        else second :: first :: passDown rest
      else first :: passDown (second :: rest)
  | queue => queue

/-- A pass up that starts at an item that is not selected keeps the order of the
selected ones. -/
theorem filter_passUp_of_neg (carried : α) (rest : List α) (free : selected carried = false) :
    (passUp selected carried rest).filter selected = rest.filter selected := by
  induction rest generalizing carried with
  | nil => simp [passUp, free]
  | cons item rest ih =>
    cases chosen : selected item with
    | true => simp [passUp, chosen, ih carried free]
    | false => simp [passUp, chosen, free, ih item chosen]

/-- One that starts at a selected item loses the order at once if the next item
is selected too, and otherwise keeps it. -/
theorem filter_passUp_iff (first : α) (rest : List α) (nodup : (first :: rest).Nodup) :
    (passUp selected first rest).filter selected = (first :: rest).filter selected ↔
      ¬ ∃ second later, rest = second :: later ∧ selected first = true ∧
        selected second = true := by
  cases chosen : selected first with
  | false => simp [filter_passUp_of_neg selected first rest chosen, chosen]
  | true =>
    cases rest with
    | nil => simp [passUp, chosen]
    | cons second later =>
      cases both : selected second with
      | false => simp [passUp, both, chosen, filter_passUp_of_neg selected second later both]
      | true =>
        have different : second ≠ first := by
          rintro rfl
          exact (List.nodup_cons.mp nodup).1 List.mem_cons_self
        simp [passUp, both, chosen, different]

/-- A pass up moves a selected block in front of the item it carries. -/
theorem passUp_block (carried : α) (block rest : List α)
    (chosen : ∀ item ∈ block, selected item = true) :
    passUp selected carried (block ++ rest) = block ++ passUp selected carried rest := by
  induction block with
  | nil => rfl
  | cons item block ih =>
    rw [List.cons_append, passUp, if_pos (chosen item List.mem_cons_self),
      ih fun other member => chosen other (List.mem_cons_of_mem item member), List.cons_append]

/-- What is not selected stays. -/
theorem passUp_free (carried : α) (rest : List α) (free : ∀ item ∈ rest, selected item = false) :
    passUp selected carried rest = carried :: rest := by
  induction rest generalizing carried with
  | nil => rfl
  | cons item rest ih =>
    rw [passUp, free item List.mem_cons_self, ih item fun other member =>
      free other (List.mem_cons_of_mem item member)]
    simp

/-- In front of the block, the pass only takes up its predecessor. -/
theorem passUp_append_cons (carried : α) (before : List α) (item : α) (rest : List α)
    (free : ∀ other ∈ before ++ [item], selected other = false) :
    passUp selected carried (before ++ item :: rest) =
      carried :: (before ++ passUp selected item rest) := by
  induction before generalizing carried with
  | nil => simp [passUp, free item (by simp)]
  | cons first before ih =>
    rw [List.cons_append, passUp, free first (by simp), ih first fun other member =>
      free other (List.mem_cons_of_mem first member)]
    simp

/-- A pass down keeps the order of the selected items. -/
theorem filter_passDown (queue : List α) :
    (passDown selected queue).filter selected = queue.filter selected := by
  induction queue using passDown.induct selected with
  | case1 first second rest chosen both ih => simp [passDown, chosen, both, ih]
  | case2 first second rest chosen single ih => simp [passDown, chosen, single, ih]
  | case3 first second rest free ih =>
    rw [passDown, if_neg free, List.filter_cons_of_neg free, List.filter_cons_of_neg free, ih]
  | case4 queue short =>
    rw [passDown]
    exact short

/-- An item that is not selected stays in front. -/
theorem passDown_cons_of_neg (first : α) (rest : List α) (free : selected first = false) :
    passDown selected (first :: rest) = first :: passDown selected rest := by
  cases rest <;> simp [passDown, free]

/-- What is not selected stays, up to the first item that is. -/
theorem passDown_append (before rest : List α) (free : ∀ item ∈ before, selected item = false) :
    passDown selected (before ++ rest) = before ++ passDown selected rest := by
  induction before with
  | nil => rfl
  | cons first before ih =>
    rw [List.cons_append, passDown_cons_of_neg selected first _ (free first List.mem_cons_self),
      ih fun item member => free item (List.mem_cons_of_mem first member), List.cons_append]

end Passes

/-- The order is turned around unless there is at most one item. -/
theorem reverse_eq_iff {selection : List α} (distinct : selection.Nodup) :
    selection.reverse = selection ↔ selection.length ≤ 1 := by
  match selection with
  | [] => simp
  | [item] => simp
  | first :: second :: rest =>
    refine iff_of_false (fun same => ?_) (by simp)
    have last : (first :: second :: rest).getLast? = some first := by
      rw [← List.head?_reverse, same]
      rfl
    rw [List.getLast?_cons_cons] at last
    exact (List.nodup_cons.mp distinct).1 (List.mem_of_getLast? last)

section Moves

variable [DecidableEq α]

/-- The four moves of an item. -/
inductive Move where
  | up
  | down
  | top
  | bottom
deriving DecidableEq

/-- Exchange an item with the one in front of it, if there is one. -/
def moveUp (item : α) : List α → List α
  | first :: second :: rest =>
      if first = item then first :: second :: rest
      else if second = item then second :: first :: rest
      else first :: moveUp item (second :: rest)
  | queue => queue

/-- Exchange an item with the one behind it, if there is one. -/
def moveDown (item : α) : List α → List α
  | first :: second :: rest =>
      if first = item then second :: first :: rest
      else first :: moveDown item (second :: rest)
  | queue => queue

/-- To the front. -/
def moveTop (item : α) (queue : List α) : List α :=
  if item ∈ queue then item :: queue.erase item else queue

/-- To the end. -/
def moveBottom (item : α) (queue : List α) : List α :=
  if item ∈ queue then queue.erase item ++ [item] else queue

/-- One move of one item. An item outside of the queue moves nothing. -/
def Move.apply : Move → α → List α → List α
  | .up => moveUp
  | .down => moveDown
  | .top => moveTop
  | .bottom => moveBottom

/-- The move of each item of a selection, in turn. -/
def moveAll (move : Move) (selection queue : List α) : List α :=
  selection.foldl (fun queue item => move.apply item queue) queue

/-- The items are moved one after the other. -/
theorem moveAll_cons (move : Move) (item : α) (selection queue : List α) :
    moveAll move (item :: selection) queue = moveAll move selection (move.apply item queue) := rfl

/-- A move up changes the order only. -/
theorem moveUp_perm (item : α) (queue : List α) : (moveUp item queue).Perm queue := by
  induction queue using moveUp.induct item with
  | case1 rest => simp [moveUp]
  | case2 first rest different =>
    rw [moveUp, if_neg different, if_pos rfl]
    exact .swap first item rest
  | case3 first second rest different other ih =>
    rw [moveUp, if_neg different, if_neg other]
    exact ih.cons first
  | case4 queue short =>
    rw [moveUp]
    exact short

/-- So does a move down. -/
theorem moveDown_perm (item : α) (queue : List α) : (moveDown item queue).Perm queue := by
  induction queue using moveDown.induct item with
  | case1 second rest =>
    rw [moveDown, if_pos rfl]
    exact .swap item second rest
  | case2 first second rest different ih =>
    rw [moveDown, if_neg different]
    exact ih.cons first
  | case3 queue short =>
    rw [moveDown]
    exact short

/-- A move neither adds nor loses an item. -/
theorem apply_perm (move : Move) (item : α) (queue : List α) :
    (move.apply item queue).Perm queue := by
  cases move with
  | up => exact moveUp_perm item queue
  | down => exact moveDown_perm item queue
  | top =>
    show (moveTop item queue).Perm queue
    unfold moveTop
    split
    · rename_i inside
      exact (List.perm_cons_erase inside).symm
    · exact .refl queue
  | bottom =>
    show (moveBottom item queue).Perm queue
    unfold moveBottom
    split
    · rename_i inside
      exact List.perm_append_singleton item _ |>.trans (List.perm_cons_erase inside).symm
    · exact .refl queue

/-- A selection in the order of the queue is what the queue has of it. -/
theorem filter_mem_eq {selection queue : List α} (nodup : queue.Nodup)
    (selected : selection.Sublist queue) : queue.filter (· ∈ selection) = selection := by
  induction selected with
  | slnil => rfl
  | @cons selection queue first selected ih =>
    obtain ⟨fresh, nodup⟩ := List.nodup_cons.mp nodup
    rw [List.filter_cons_of_neg (by simpa using fun inside => fresh (selected.subset inside))]
    exact ih nodup
  | @cons_cons selection queue first selected ih =>
    obtain ⟨fresh, nodup⟩ := List.nodup_cons.mp nodup
    rw [List.filter_cons_of_pos (by simp)]
    have others : queue.filter (· ∈ first :: selection) = queue.filter (· ∈ selection) := by
      refine List.filter_congr fun item inside => ?_
      have different : item ≠ first := fun same => fresh (same ▸ inside)
      simp [different]
    rw [others, ih nodup]

section Selections

variable (selected : α → Bool)

/-- What is behind the front two items moves up as if the front one were not
there. -/
theorem moveAll_up_cons (front : α) (selection queue : List α) (nodup : selection.Nodup)
    (fresh : front ∉ selection) (next : ∀ item ∈ queue.head?, item ∉ selection) :
    moveAll .up selection (front :: queue) = front :: moveAll .up selection queue := by
  induction selection generalizing queue with
  | nil => rfl
  | cons item selection ih =>
    obtain ⟨other, nodup⟩ := List.nodup_cons.mp nodup
    obtain ⟨different, fresh⟩ := List.ne_and_not_mem_of_not_mem_cons fresh
    cases queue with
    | nil =>
      rw [moveAll_cons, moveAll_cons]
      exact ih [] nodup fresh (by simp)
    | cons second rest =>
      have apart : second ≠ item ∧ second ∉ selection :=
        List.ne_and_not_mem_of_not_mem_cons (next second rfl)
      have moved : Move.up.apply item (front :: second :: rest) =
          front :: Move.up.apply item (second :: rest) := by
        simp [Move.apply, moveUp, different, apart.1]
      rw [moveAll_cons, moveAll_cons, moved]
      refine ih _ nodup fresh fun head shown => ?_
      -- the new head is the old one, or the item that has just moved
      cases rest with
      | nil =>
        obtain rfl : second = head := by simpa [Move.apply, moveUp] using shown
        exact apart.2
      | cons third rest =>
        simp only [Move.apply, moveUp, apart.1, if_false] at shown
        split at shown
        · obtain rfl : third = head := by simpa using shown
          subst item
          exact other
        · obtain rfl : second = head := by simpa using shown
          exact apart.2

/-- Moving the selected items behind the front one up is one pass. -/
theorem moveAll_up_filter (carried : α) (rest : List α) (nodup : (carried :: rest).Nodup) :
    moveAll .up (rest.filter selected) (carried :: rest) = passUp selected carried rest := by
  induction rest generalizing carried with
  | nil => rfl
  | cons item rest ih =>
    obtain ⟨apart, nodupRest⟩ := List.nodup_cons.mp nodup
    obtain ⟨different, apart⟩ := List.ne_and_not_mem_of_not_mem_cons apart
    obtain ⟨fresh, nodupLater⟩ := List.nodup_cons.mp nodupRest
    have inside : ∀ other, other ∉ rest → other ∉ rest.filter selected :=
      fun other outside member => outside (List.mem_of_mem_filter member)
    have distinct := nodupLater.filter selected
    by_cases chosen : selected item = true
    · have moved : Move.up.apply item (carried :: item :: rest) = item :: carried :: rest := by
        simp [Move.apply, moveUp, different]
      rw [List.filter_cons_of_pos chosen, moveAll_cons, moved, passUp, if_pos chosen,
        moveAll_up_cons item _ (carried :: rest) distinct (inside item fresh)
          (by simpa using inside carried apart),
        ih carried (List.nodup_cons.mpr ⟨apart, nodupLater⟩)]
    · rw [List.filter_cons_of_neg chosen, passUp, if_neg chosen,
        moveAll_up_cons carried _ (item :: rest) distinct (inside carried apart)
          (by simpa using inside item fresh), ih item nodupRest]

/-- So it is where the front item is selected: it has nowhere to go. -/
theorem moveAll_up (first : α) (rest : List α) (nodup : (first :: rest).Nodup) :
    moveAll .up ((first :: rest).filter selected) (first :: rest) = passUp selected first rest := by
  rw [← moveAll_up_filter selected first rest nodup]
  by_cases chosen : selected first = true
  · have stays : Move.up.apply first (first :: rest) = first :: rest := by
      cases rest <;> simp [Move.apply, moveUp]
    rw [List.filter_cons_of_pos chosen, moveAll_cons, stays]
  · rw [List.filter_cons_of_neg chosen]

/-- Moving others down leaves the first item in front. -/
theorem moveAll_down_cons (front : α) (selection queue : List α) (fresh : front ∉ selection) :
    moveAll .down selection (front :: queue) = front :: moveAll .down selection queue := by
  induction selection generalizing queue with
  | nil => rfl
  | cons item selection ih =>
    obtain ⟨different, fresh⟩ := List.ne_and_not_mem_of_not_mem_cons fresh
    have moved : Move.down.apply item (front :: queue) = front :: Move.down.apply item queue := by
      cases queue <;> simp [Move.apply, moveDown, different]
    rw [moveAll_cons, moveAll_cons, moved, ih _ fresh]

/-- Moving the selected items down is one pass. -/
theorem moveAll_down (queue : List α) (nodup : queue.Nodup) :
    moveAll .down (queue.filter selected) queue = passDown selected queue := by
  induction queue using passDown.induct selected with
  | case1 first second rest chosen both ih =>
    obtain ⟨apart, nodup⟩ := List.nodup_cons.mp nodup
    obtain ⟨different, apart⟩ := List.ne_and_not_mem_of_not_mem_cons apart
    obtain ⟨fresh, nodup⟩ := List.nodup_cons.mp nodup
    have moved : Move.down.apply second (Move.down.apply first (first :: second :: rest)) =
        first :: second :: rest := by
      simp [Move.apply, moveDown]
    rw [List.filter_cons_of_pos chosen, List.filter_cons_of_pos both, moveAll_cons, moveAll_cons,
      moved, passDown, if_pos chosen, if_pos both,
      moveAll_down_cons _ _ _ fun member => apart (List.mem_of_mem_filter member),
      moveAll_down_cons _ _ _ fun member => fresh (List.mem_of_mem_filter member), ih nodup]
  | case2 first second rest chosen single ih =>
    obtain ⟨apart, nodup⟩ := List.nodup_cons.mp nodup
    obtain ⟨different, apart⟩ := List.ne_and_not_mem_of_not_mem_cons apart
    obtain ⟨fresh, nodup⟩ := List.nodup_cons.mp nodup
    have moved : Move.down.apply first (first :: second :: rest) = second :: first :: rest := by
      simp [Move.apply, moveDown]
    rw [List.filter_cons_of_pos chosen, List.filter_cons_of_neg single, moveAll_cons, moved,
      passDown, if_pos chosen, if_neg single,
      moveAll_down_cons _ _ _ fun member => fresh (List.mem_of_mem_filter member),
      moveAll_down_cons _ _ _ fun member => apart (List.mem_of_mem_filter member), ih nodup]
  | case3 first second rest free ih =>
    obtain ⟨apart, nodup⟩ := List.nodup_cons.mp nodup
    rw [List.filter_cons_of_neg free, passDown, if_neg free,
      moveAll_down_cons _ _ _ fun member => apart (List.mem_of_mem_filter member), ih nodup]
  | case4 queue short =>
    cases queue with
    | nil => rfl
    | cons first rest =>
      cases rest with
      | nil =>
        by_cases chosen : selected first <;>
          simp [chosen, moveAll, Move.apply, moveDown, passDown]
      | cons second rest => exact absurd rfl (short first second rest)

end Selections

section Ends

variable {selection queue : List α}

/-- What is left of a queue without an item, as far as it is not selected. -/
theorem filter_erase (item : α) (nodup : queue.Nodup) :
    (queue.erase item).filter (· ∉ selection) = queue.filter (· ∉ item :: selection) := by
  rw [nodup.erase_eq_filter, List.filter_filter]
  refine List.filter_congr fun other _ => ?_
  by_cases same : other = item <;> simp [same]

/-- Items that are moved to the end stand there in their order. -/
theorem moveAll_bottom (nodup : queue.Nodup) (distinct : selection.Nodup)
    (inside : ∀ item ∈ selection, item ∈ queue) :
    moveAll .bottom selection queue = queue.filter (· ∉ selection) ++ selection := by
  induction selection generalizing queue with
  | nil => simp [moveAll]
  | cons item selection ih =>
    obtain ⟨fresh, distinct⟩ := List.nodup_cons.mp distinct
    have moved : Move.bottom.apply item queue = queue.erase item ++ [item] :=
      if_pos (inside item List.mem_cons_self)
    have nodupMoved := (apply_perm .bottom item queue).nodup_iff.mpr nodup
    have insideMoved : ∀ other ∈ selection, other ∈ Move.bottom.apply item queue :=
      fun other member => (apply_perm .bottom item queue).mem_iff.mpr
        (inside other (List.mem_cons_of_mem item member))
    rw [moveAll_cons, ih nodupMoved distinct insideMoved, moved, List.filter_append,
      filter_erase item nodup]
    simp [fresh]

/-- Items that are moved to the front stand there in the opposite order. -/
theorem moveAll_top (nodup : queue.Nodup) (distinct : selection.Nodup)
    (inside : ∀ item ∈ selection, item ∈ queue) :
    moveAll .top selection queue = selection.reverse ++ queue.filter (· ∉ selection) := by
  induction selection generalizing queue with
  | nil => simp [moveAll]
  | cons item selection ih =>
    obtain ⟨fresh, distinct⟩ := List.nodup_cons.mp distinct
    have moved : Move.top.apply item queue = item :: queue.erase item :=
      if_pos (inside item List.mem_cons_self)
    have nodupMoved := (apply_perm .top item queue).nodup_iff.mpr nodup
    have insideMoved : ∀ other ∈ selection, other ∈ Move.top.apply item queue :=
      fun other member => (apply_perm .top item queue).mem_iff.mpr
        (inside other (List.mem_cons_of_mem item member))
    rw [moveAll_cons, ih nodupMoved distinct insideMoved, moved,
      List.filter_cons_of_pos (by simpa using fresh), filter_erase item nodup]
    simp

end Ends

end Moves

end Hadouken.QueueMoves
