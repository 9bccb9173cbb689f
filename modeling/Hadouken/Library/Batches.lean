import Mathlib.Data.List.Perm.Basic
import Mathlib.Data.Option.Basic

/-!
# Batches of items

A loop takes the items of a batch one after the other until one has no result;
what was done before it stays done. The outcome is the state that is left, and
whether the loop came to its end.

Items that commute, up to a relation on states, may come in any order; where each of
them makes a change of its own, it is enough that the changes commute. The
relation need only be reflexive on the states that occur, so that it can carry an
invariant. Items that settle, and leave other settled items alone, may come again.
-/

namespace Hadouken.Batches

universe u v w x
variable {σ : Type u} {τ : Type v} {ι : Type w}

/-- The state after the items of a batch, up to one without a result. -/
def each (one : σ → ι → Option σ) : List ι → σ → σ × Bool
  | [], state => (state, true)
  | item :: rest, state =>
      match one state item with
      | some next => each one rest next
      | none => (state, false)

variable {one : σ → ι → Option σ}

/-- A step that is made is followed by the rest. -/
theorem each_cons_some {state next : σ} {item : ι} (rest : List ι)
    (stepped : one state item = some next) : each one (item :: rest) state = each one rest next := by
  rw [each, stepped]

/-- A step that is not made ends the batch. -/
theorem each_cons_none {state : σ} {item : ι} (rest : List ι) (stuck : one state item = none) :
    each one (item :: rest) state = (state, false) := by
  rw [each, stuck]

/-- What each item keeps, the batch keeps. -/
theorem each_invariant {invariant : σ → Prop} (items : List ι) (state : σ)
    (kept : ∀ state, ∀ item ∈ items, ∀ next, invariant state → one state item = some next →
      invariant next)
    (initial : invariant state) : invariant (each one items state).1 := by
  induction items generalizing state with
  | nil => exact initial
  | cons item rest ih =>
    cases stepped : one state item with
    | none =>
      rw [each_cons_none rest stepped]
      exact initial
    | some next =>
      rw [each_cons_some rest stepped]
      exact ih next (fun state later member =>
        kept state later (List.mem_cons_of_mem item member))
        (kept state item List.mem_cons_self next initial stepped)

/-- A batch on more data does with a part of them what the batch on the part
does. -/
theorem each_map {other : τ → ι → Option τ} (part : σ → τ)
    (rounds : ∀ state item, (one state item).map part = other (part state) item)
    (items : List ι) (state : σ) :
    (part (each one items state).1, (each one items state).2) = each other items (part state) := by
  induction items generalizing state with
  | nil => rfl
  | cons item rest ih =>
    have round := rounds state item
    cases stepped : one state item with
    | none =>
      rw [stepped, Option.map_none] at round
      rw [each_cons_none rest stepped, each_cons_none rest round.symm]
    | some next =>
      rw [stepped, Option.map_some] at round
      rw [each_cons_some rest stepped, each_cons_some rest round.symm, ih next]

/-- A batch whose items all have a result comes to its end, folding them. -/
theorem each_eq_foldl (next : σ → ι → σ) (invariant : σ → Prop) (items : List ι) (state : σ)
    (initial : invariant state)
    (rounds : ∀ state, invariant state → ∀ item ∈ items,
      one state item = some (next state item) ∧ invariant (next state item)) :
    each one items state = (items.foldl next state, true) := by
  induction items generalizing state with
  | nil => rfl
  | cons item rest ih =>
    obtain ⟨stepped, kept⟩ := rounds state initial item List.mem_cons_self
    rw [each_cons_some rest stepped, List.foldl_cons]
    exact ih (next state item) kept fun later held other member =>
      rounds later held other (List.mem_cons_of_mem item member)

/-- A batch whose items all have a result comes to its end, and what each of them
brings about holds there, as what held before does, if the items behind it leave it
alone. -/
theorem each_establishes (invariant : σ → Prop) (holds : ι → σ → Prop) (apart : ι → ι → Prop)
    (items : List ι) (state : σ) (initial : invariant state) (distinct : items.Pairwise apart)
    (rounds : ∀ state, invariant state → ∀ item ∈ items, ∃ next, one state item = some next ∧
      invariant next ∧ holds item next ∧
      ∀ other, apart other item → holds other state → holds other next) :
    (each one items state).2 = true ∧ (∀ item ∈ items, holds item (each one items state).1) ∧
      ∀ other, (∀ item ∈ items, apart other item) → holds other state →
        holds other (each one items state).1 := by
  induction items generalizing state with
  | nil => exact ⟨rfl, by simp, fun _ _ held => held⟩
  | cons first rest ih =>
    obtain ⟨apartFirst, distinctRest⟩ := List.pairwise_cons.mp distinct
    obtain ⟨next, stepped, kept, own, others⟩ := rounds state initial first List.mem_cons_self
    obtain ⟨ended, established, lasting⟩ := ih next kept distinctRest fun state held item member =>
      rounds state held item (List.mem_cons_of_mem first member)
    rw [each_cons_some rest stepped]
    refine ⟨ended, fun item member => ?_, fun other apartAll held => ?_⟩
    · rcases List.mem_cons.mp member with rfl | later
      · exact lasting item apartFirst own
      · exact established item later
    · exact lasting other (fun item member => apartAll item (List.mem_cons_of_mem first member))
        (others other (apartAll first List.mem_cons_self) held)

/-- An item that never changes anything may be left out. -/
theorem each_skip (item : ι) (idle : ∀ state, one state item = some state)
    (before after : List ι) (state : σ) :
    each one (before ++ item :: after) state = each one (before ++ after) state := by
  induction before generalizing state with
  | nil => exact each_cons_some after (idle state)
  | cons first before ih =>
    cases stepped : one state first with
    | none => rw [List.cons_append, List.cons_append, each_cons_none _ stepped,
        each_cons_none _ stepped]
    | some next =>
      rw [List.cons_append, List.cons_append, each_cons_some _ stepped, each_cons_some _ stepped,
        ih next]

section Order

/-- Results that are related stay so when they are continued alike. -/
theorem rel_map {R : σ → σ → Prop} {S : τ → τ → Prop} {first second : Option σ} {f g : σ → τ}
    (related : Option.Rel R first second) (continued : ∀ a b, R a b → S (f a) (g b)) :
    Option.Rel S (first.map f) (second.map g) := by
  cases related with
  | none => exact .none
  | some own => exact .some (continued _ _ own)

variable (R : σ → σ → Prop)

/-- Both outcomes come to the end, with related states, or neither does. -/
def Agree (first second : σ × Bool) : Prop :=
  first.2 = second.2 ∧ (first.2 = true → R first.1 second.1)

variable {R}

/-- What agrees twice agrees. -/
theorem Agree.trans {first second third : σ × Bool}
    (transitive : ∀ a b c, R a b → R b c → R a c) (earlier : Agree R first second)
    (later : Agree R second third) : Agree R first third :=
  ⟨earlier.1.trans later.1, fun ended =>
    transitive _ _ _ (earlier.2 ended) (later.2 (earlier.1 ▸ ended))⟩

/-- A batch has agreeing outcomes on related states. -/
theorem each_congr
    (congruent : ∀ a b, R a b → ∀ item, Option.Rel R (one a item) (one b item))
    (items : List ι) (first second : σ) (related : R first second) :
    Agree R (each one items first) (each one items second) := by
  induction items generalizing first second with
  | nil => exact ⟨rfl, fun _ => related⟩
  | cons item rest ih =>
    have own := congruent first second related item
    cases left : one first item with
    | none =>
      rw [left] at own
      cases right : one second item with
      | none =>
        rw [each_cons_none rest left, each_cons_none rest right]
        exact ⟨rfl, fun ended => absurd ended (by simp)⟩
      | some next =>
        rw [right] at own
        cases own
    | some firstNext =>
      rw [left] at own
      cases right : one second item with
      | none =>
        rw [right] at own
        cases own
      | some secondNext =>
        rw [right] at own
        rw [each_cons_some rest left, each_cons_some rest right]
        cases own with
        | some nextRelated => exact ih firstNext secondNext nextRelated

/-- Two items in front of a batch that commute may be exchanged. -/
theorem each_swap
    (congruent : ∀ a b, R a b → ∀ item, Option.Rel R (one a item) (one b item))
    (first second : ι) (rest : List ι) (state : σ)
    (commute : Option.Rel R ((one state first).bind fun next => one next second)
      ((one state second).bind fun next => one next first)) :
    Agree R (each one (first :: second :: rest) state) (each one (second :: first :: rest) state) := by
  have unfolded : ∀ a b, each one (a :: b :: rest) state =
      match (one state a).bind fun next => one next b with
      | some next => each one rest next
      | none => ((each one [a, b] state).1, false) := by
    intro a b
    cases stepped : one state a with
    | none => simp [each, stepped]
    | some next => cases later : one next b <;> simp [each, stepped, later]
  rw [unfolded first second, unfolded second first]
  generalize (one state first).bind (fun next => one next second) = left at commute ⊢
  generalize (one state second).bind (fun next => one next first) = right at commute ⊢
  cases commute with
  | none => exact ⟨rfl, fun ended => absurd ended (by simp)⟩
  | some related => exact each_congr congruent rest _ _ related

/-- A batch of items that commute has agreeing outcomes in every order. The
induction is on the reordering, with the state as it is after the items that both
orders have in front. -/
theorem each_perm (transitive : ∀ a b c, R a b → R b c → R a c)
    (congruent : ∀ a b, R a b → ∀ item, Option.Rel R (one a item) (one b item))
    (apart : ι → ι → Prop) (symmetric : ∀ a b, apart a b → apart b a)
    (commute : ∀ state, R state state → ∀ a b, apart a b →
      Option.Rel R ((one state a).bind fun next => one next b)
        ((one state b).bind fun next => one next a))
    {items others : List ι} (reordered : items.Perm others) (distinct : items.Pairwise apart)
    (state : σ) (fine : R state state) : Agree R (each one items state) (each one others state) := by
  induction reordered generalizing state with
  | nil => exact ⟨rfl, fun _ => fine⟩
  | cons item _ ih =>
    have own := congruent state state fine item
    cases stepped : one state item with
    | none =>
      rw [each_cons_none _ stepped, each_cons_none _ stepped]
      exact ⟨rfl, fun ended => absurd ended (by simp)⟩
    | some next =>
      rw [stepped] at own
      rw [each_cons_some _ stepped, each_cons_some _ stepped]
      cases own with
      | some nextFine => exact ih (List.pairwise_cons.mp distinct).2 next nextFine
  | swap first second rest =>
    have apartHeads := (List.pairwise_cons.mp distinct).1 first List.mem_cons_self
    exact each_swap congruent second first rest state (commute state fine second first apartHeads)
  | trans reorderedFirst _ ihFirst ihSecond =>
    have between := (reorderedFirst.pairwise_iff fun related => symmetric _ _ related).mp distinct
    exact Agree.trans transitive (ihFirst distinct state fine) (ihSecond between state fine)

end Order

section Changes

variable {κ : Type x} {R : σ → σ → Prop} (change : ι → Option (Option κ)) (make : σ → κ → Option σ)

/-- Items of which each throws, changes nothing, or makes its change, whatever the
state is. -/
def making (state : σ) (item : ι) : Option σ :=
  (change item).bind fun made => made.elim (some state) (make state)

variable {change make}

/-- A change that throws makes nothing. -/
theorem making_none {item : ι} (throws : change item = none) (state : σ) :
    making change make state item = none := by
  rw [making, throws, Option.bind_none]

/-- No change leaves the state. -/
theorem making_idle {item : ι} (idle : change item = some none) (state : σ) :
    making change make state item = some state := by
  rw [making, idle, Option.bind_some, Option.elim_none]

/-- A change is made. -/
theorem making_some {item : ι} {made : κ} (changes : change item = some (some made)) (state : σ) :
    making change make state item = make state made := by
  rw [making, changes, Option.bind_some, Option.elim_some]

/-- Items do the same to related states where their changes do. -/
theorem making_congr
    (congruent : ∀ a b, R a b → ∀ item made, change item = some (some made) →
      Option.Rel R (make a made) (make b made))
    (first second : σ) (related : R first second) (item : ι) :
    Option.Rel R (making change make first item) (making change make second item) := by
  cases changes : change item with
  | none =>
    rw [making_none changes, making_none changes]
    exact .none
  | some made =>
    cases made with
    | none =>
      rw [making_idle changes, making_idle changes]
      exact .some related
    | some made =>
      rw [making_some changes, making_some changes]
      exact congruent first second related item made changes

/-- Items commute where their changes do. -/
theorem making_comm
    (congruent : ∀ a b, R a b → ∀ item made, change item = some (some made) →
      Option.Rel R (make a made) (make b made))
    (state : σ) (fine : R state state) (first second : ι)
    (commute : ∀ made other, change first = some (some made) → change second = some (some other) →
      Option.Rel R ((make state made).bind fun next => make next other)
        ((make state other).bind fun next => make next made)) :
    Option.Rel R
      ((making change make state first).bind fun next => making change make next second)
      ((making change make state second).bind fun next => making change make next first) := by
  have own := making_congr congruent state state fine
  cases changesFirst : change first with
  | none =>
    simp only [making_none changesFirst, Option.bind_none, Option.bind_fun_none]
    exact .none
  | some made =>
    cases made with
    | none =>
      simp only [making_idle changesFirst, Option.bind_some, Option.bind_fun_some]
      exact own second
    | some made =>
      cases changesSecond : change second with
      | none =>
        simp only [making_none changesSecond, Option.bind_none, Option.bind_fun_none]
        exact .none
      | some other =>
        cases other with
        | none =>
          simp only [making_idle changesSecond, Option.bind_some, Option.bind_fun_some]
          exact own first
        | some other =>
          simp only [making_some changesFirst, making_some changesSecond]
          exact commute made other changesFirst changesSecond

end Changes

section Again

/-- An item that changes nothing any more. -/
def Settled (one : σ → ι → Option σ) (state : σ) (item : ι) : Prop := one state item = some state

/-- Settled items in front of a batch are passed by. -/
theorem each_append_settled (settled rest : List ι) (state : σ)
    (all : ∀ item ∈ settled, Settled one state item) :
    each one (settled ++ rest) state = each one rest state := by
  induction settled with
  | nil => rfl
  | cons item settled ih =>
    rw [List.cons_append, each_cons_some _ (all item List.mem_cons_self)]
    exact ih fun other member => all other (List.mem_cons_of_mem item member)

/-- A batch whose items settle is the same again, however it ends: the items that
were done are settled, and the one it stopped at has no result again. The
induction moves the items that are done in front of the batch. -/
theorem each_each (apart : ι → ι → Prop)
    (settles : ∀ state item next, one state item = some next → Settled one next item)
    (kept : ∀ state item other next, apart item other → Settled one state item →
      one state other = some next → Settled one next item)
    (items : List ι) (state : σ) (distinct : items.Pairwise apart) :
    each one items (each one items state).1 = each one items state := by
  have general : ∀ (done items : List ι) (state : σ), (done ++ items).Pairwise apart →
      (∀ item ∈ done, Settled one state item) →
      each one (done ++ items) (each one items state).1 = each one items state := by
    intro done items
    induction items generalizing done with
    | nil =>
      intro state _ all
      exact each_append_settled done [] state all
    | cons item rest ih =>
      intro state distinct all
      cases stepped : one state item with
      | none =>
        rw [each_cons_none rest stepped, each_append_settled done _ _ all,
          each_cons_none rest stepped]
      | some next =>
        rw [each_cons_some rest stepped, List.append_cons]
        refine ih (done ++ [item]) next (by simpa using distinct) fun other member => ?_
        rcases List.mem_append.mp member with earlier | own
        · refine kept state other item next ?_ (all other earlier) stepped
          exact (List.pairwise_append.mp distinct).2.2 other earlier item List.mem_cons_self
        · obtain rfl := List.mem_singleton.mp own
          exact settles state other next stepped
  exact general [] items state distinct (by simp)

end Again

end Hadouken.Batches
