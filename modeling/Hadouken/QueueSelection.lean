import Hadouken.Perform

/-!
# Moving a selection in the queue

`webui.perform` moves each torrent of its list by itself, in the order of the
list, whatever the direction. That is the right order for a move towards the
bottom end and, but for the two torrents at the top, for a step up.
-/

namespace Hadouken.QueueSelection

open QueueMoves TorrentFiles Perform Batches

/-- The action that asks for a move. -/
def actionOf : Move → String
  | .up => "queueup"
  | .down => "queuedown"
  | .top => "queuetop"
  | .bottom => "queuebottom"

/-- The queue after a request. -/
def queueAfter (move : Move) (selection : List InfoHash) (session : Session) : List InfoHash :=
  (method (actionOf move) selection session).1.queue

/-- The selected torrents keep their order, and a block that is to move by one
place does, if there is a place. -/
structure MovedTogether (move : Move) (queue selection after : List InfoHash) : Prop where
  order : after.filter (· ∈ selection) = selection
  down : move = .down → ∀ above next below, queue = above ++ (selection ++ next :: below) →
    after = above ++ next :: (selection ++ below)
  up : move = .up → ∀ above next below, queue = above ++ next :: (selection ++ below) →
    after = above ++ (selection ++ next :: below)

/-- Two torrents in a row are not both at the top, for a step up, nor in a block
that could go down, for a step down; one torrent at most is moved to the top. -/
def Separate : Move → List InfoHash → List InfoHash → Prop
  | .up, queue, selection =>
      ¬ ∃ first second rest, queue = first :: second :: rest ∧ first ∈ selection ∧
        second ∈ selection
  | .down, queue, selection =>
      ¬ (2 ≤ selection.length ∧
        ∃ above next below, queue = above ++ (selection ++ next :: below))
  | .top, _, selection => selection.length ≤ 1
  | .bottom, _, _ => True

/-- A request moves its torrents one by one. -/
theorem queueAfter_eq (move : Move) (selection : List InfoHash) (session : Session)
    (inside : ∀ hash ∈ selection, hash ∈ session.queue) :
    queueAfter move selection session = moveAll move selection session.queue := by
  have loop : each (Session.performOne (actionOf move)) selection session =
      (selection.foldl (fun session hash => session.moveQueue move hash) session, true) := by
    refine each_eq_foldl _ (fun later : Session => later.torrents = session.torrents) selection
      session rfl ?_
    intro later same hash member
    refine ⟨?_, same⟩
    obtain ⟨torrent, found⟩ := Option.isSome_iff_exists.mp
      (session.present hash (inside hash member))
    rw [← same] at found
    simp only [Session.performOne, found, Option.bind_eq_bind, Option.bind_some]
    cases move <;> rfl
  rw [queueAfter, method, loop]
  clear loop inside
  induction selection generalizing session with
  | nil => rfl
  | cons hash rest ih => exact ih (session.moveQueue move hash)

section Blocks

variable {queue selection : List InfoHash}

/-- The parts of a queue around a block are not selected. -/
theorem not_mem_around {above below : List InfoHash} (nodup : (above ++ (selection ++ below)).Nodup) :
    (∀ item ∈ above, decide (item ∈ selection) = false) ∧
      ∀ item ∈ below, decide (item ∈ selection) = false := by
  rw [List.nodup_append', List.nodup_append'] at nodup
  obtain ⟨_, ⟨_, _, apart⟩, around⟩ := nodup
  constructor
  · intro item member
    exact decide_eq_false fun inside => around member (List.mem_append_left below inside)
  · intro item member
    exact decide_eq_false fun inside => apart inside member

/-- The selection stands between others. -/
theorem sublist_around (above below : List InfoHash) :
    selection.Sublist (above ++ (selection ++ below)) :=
  (List.sublist_append_left selection below).trans (List.sublist_append_right above _)

/-- A block that has a torrent above it moves up as a whole. -/
theorem up_block {above below : List InfoHash} {next : InfoHash}
    (nodup : (above ++ next :: (selection ++ below)).Nodup) :
    moveAll .up selection (above ++ next :: (selection ++ below)) =
      above ++ (selection ++ next :: below) := by
  have regrouped : above ++ next :: (selection ++ below) =
      (above ++ [next]) ++ (selection ++ below) := by simp
  obtain ⟨upper, under⟩ := not_mem_around (regrouped ▸ nodup)
  have chosen := filter_mem_eq nodup (regrouped ▸ sublist_around (above ++ [next]) below)
  have block : passUp (· ∈ selection) next (selection ++ below) = selection ++ next :: below := by
    rw [passUp_block _ next selection below fun item member => decide_eq_true member,
      passUp_free _ next below under]
  cases above with
  | nil =>
    have passed := moveAll_up (· ∈ selection) next (selection ++ below) nodup
    rw [List.nil_append] at chosen
    rw [chosen, block] at passed
    exact passed
  | cons first above =>
    have passed := moveAll_up (· ∈ selection) first (above ++ next :: (selection ++ below)) nodup
    rw [List.cons_append] at chosen
    rw [chosen, passUp_append_cons _ first above next _ fun item member =>
      upper item (List.mem_cons_of_mem first member), block] at passed
    exact passed

/-- A block that has a torrent below it moves down exactly when it is a single
torrent: the first two of a longer one stay. -/
theorem down_block {above below : List InfoHash} {next : InfoHash}
    (nodup : (above ++ (selection ++ next :: below)).Nodup) :
    moveAll .down selection (above ++ (selection ++ next :: below)) =
        above ++ next :: (selection ++ below) ↔ selection.length ≤ 1 := by
  obtain ⟨upper, under⟩ := not_mem_around nodup
  have passed := moveAll_down (· ∈ selection) _ nodup
  rw [filter_mem_eq nodup (sublist_around above (next :: below)),
    passDown_append _ above _ upper] at passed
  rw [passed, List.append_cancel_left_eq]
  have free : passDown (· ∈ selection) below = below := by
    have stays := passDown_append (· ∈ selection) below [] fun item member =>
      under item (List.mem_cons_of_mem next member)
    simpa [passDown] using stays
  have last := under next List.mem_cons_self
  cases selection with
  | nil => simpa [passDown_cons_of_neg] using free
  | cons first rest =>
    cases rest with
    | nil =>
      have different : next ≠ first := by simpa using last
      simpa [passDown, different] using free
    | cons second rest =>
      refine iff_of_false (fun same => ?_) (by simp)
      have head : first = next := by
        have heads := congrArg List.head? same
        simpa [passDown] using heads
      subst head
      simp at last

end Blocks

/-- A selection in the order of the queue is moved together exactly when it is
separate. -/
theorem movedTogether_iff_separate (session : Session) (move : Move) (selection : List InfoHash)
    (ordered : selection.Sublist session.queue) :
    MovedTogether move session.queue selection (queueAfter move selection session) ↔
      Separate move session.queue selection := by
  rw [queueAfter_eq move selection session fun hash member => ordered.subset member]
  have nodup := session.nodup
  have distinct := nodup.sublist ordered
  have chosen := filter_mem_eq nodup ordered
  generalize session.queue = queue at ordered nodup chosen ⊢
  cases move with
  | up =>
    have order : (moveAll .up selection queue).filter (· ∈ selection) = selection ↔
        Separate .up queue selection := by
      cases queue with
      | nil =>
        obtain rfl := List.sublist_nil.mp ordered
        simp [moveAll, Separate]
      | cons first rest =>
        have passed := moveAll_up (· ∈ selection) first rest nodup
        have kept := filter_passUp_iff (· ∈ selection) first rest nodup
        rw [chosen] at passed kept
        rw [passed, kept]
        simp [Separate]
    exact ⟨fun together => order.mp together.order, fun separate =>
      ⟨order.mpr separate, by simp, fun _ above next below split => by
        rw [split] at nodup ⊢
        exact up_block nodup⟩⟩
  | down =>
    have order : (moveAll .down selection queue).filter (· ∈ selection) = selection := by
      have passed := moveAll_down (· ∈ selection) queue nodup
      rw [chosen] at passed
      rw [passed, filter_passDown, chosen]
    constructor
    · rintro together ⟨long, above, next, below, split⟩
      have moved := together.down rfl above next below split
      rw [split] at nodup moved
      have short := (down_block nodup).mp moved
      omega
    · intro separate
      refine ⟨order, fun _ above next below split => ?_, by simp⟩
      have short : selection.length ≤ 1 := by
        by_contra long
        exact separate ⟨by omega, above, next, below, split⟩
      rw [split] at nodup ⊢
      exact (down_block nodup).mpr short
  | top =>
    have own : selection.filter (· ∈ selection) = selection :=
      List.filter_eq_self.mpr fun hash member => by simpa using member
    have order : (moveAll .top selection queue).filter (· ∈ selection) = selection ↔
        selection.length ≤ 1 := by
      rw [moveAll_top nodup distinct fun hash member => ordered.subset member,
        ← reverse_eq_iff distinct, List.filter_append, List.filter_reverse, List.filter_filter, own]
      simp
    exact ⟨fun together => order.mp together.order, fun single =>
      ⟨order.mpr single, by simp, by simp⟩⟩
  | bottom =>
    refine iff_of_true ⟨?_, by simp, by simp⟩ trivial
    rw [moveAll_bottom nodup distinct fun hash member => ordered.subset member]
    simp [List.filter_filter]

/-- A third hash, for runs on fixed inputs. -/
def third : InfoHash where
  hex := List.replicate 40 '2'
  length_eq := List.length_replicate
  digits c member := by
    rw [List.eq_of_mem_replicate member]
    decide

/-- A session with a queue of torrents, none of which is checked. -/
def queued (queue : List InfoHash) (nodup : queue.Nodup) : Session where
  torrents hash := if hash ∈ queue then some ⟨false, false, true, 0⟩ else none
  queue := queue
  nodup := nodup
  present hash member := by simp [member]
  store := fun _ => none
  removed := []

/-- The lower two of three torrents go to the bottom in their order. -/
theorem two_to_the_bottom :
    [.ones, third].Sublist (queued [.zero, .ones, third] (by decide)).queue ∧
      MovedTogether .bottom (queued [.zero, .ones, third] (by decide)).queue [.ones, third]
        (queueAfter .bottom [.ones, third] (queued [.zero, .ones, third] (by decide))) := by
  have ordered : [.ones, third].Sublist (queued [.zero, .ones, third] (by decide)).queue := by
    decide
  exact ⟨ordered, (movedTogether_iff_separate _ .bottom _ ordered).mpr trivial⟩

/-- The two torrents above a third one stay where they are, as each of them goes
down past the other. -/
theorem two_above_a_third_stay :
    [.zero, InfoHash.ones].Sublist (queued [.zero, .ones, third] (by decide)).queue ∧
      ¬ MovedTogether .down (queued [.zero, .ones, third] (by decide)).queue [.zero, .ones]
        (queueAfter .down [.zero, .ones] (queued [.zero, .ones, third] (by decide))) := by
  refine ⟨by decide, fun together => ?_⟩
  have moved := together.down rfl [] third [] rfl
  have stayed : queueAfter .down [.zero, .ones] (queued [.zero, .ones, third] (by decide)) =
      [.zero, .ones, third] := by
    decide
  rw [stayed] at moved
  exact absurd moved (by decide)

end Hadouken.QueueSelection
