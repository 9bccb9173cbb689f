import Hadouken.ConfigWrites
import Hadouken.Library.Batches
import Hadouken.Library.MemberOrder

/-!
# Writes to the configuration in any order

Two writes whose keys part at some point commute, up to the order of members: each
needs the same nodes on the way, whichever of them creates those. A node that holds
no members is the same for both. A write that has been made changes nothing when it
is made again, also after others.

The parts of the keys are neither array indices nor the length.
-/

namespace Hadouken.ConfigWrites

open Script Config Batches

/-- The key is made of ordinary names. -/
def Ordinary (path : List String) : Prop := ∀ part ∈ path, Value.ordinary part = true

/-- The parts are looked at. -/
instance (path : List String) : Decidable (Ordinary path) := by
  unfold Ordinary
  infer_instance

section Recursion

variable {cfg : Value} {members : Members} {elem : String} {rest : List String} {value : Value}

/-- What a write puts in place of an entry. -/
def setBelow (node : Value) : List String → Value → Option Value
  | [], value => some value
  | next :: rest, value => setKey (opened node) (next :: rest) value

/-- A write to a node with members puts a new entry there. -/
theorem setKey_named (held : cfg.named? = some members) (plain : Value.ordinary elem = true) :
    setKey cfg (elem :: rest) value =
      (setBelow (entry members elem) rest value).map fun child =>
        cfg.withNamed (assign elem child members) := by
  have read := Value.member_named held plain
  have put := fun child => Value.assignMember_named child held plain
  cases rest with
  | nil => exact put value
  | cons next rest =>
    by_cases truthy : (entry members elem).truthy = true
    · have own : ((members.lookup elem).getD .undefined).truthy = true := truthy
      simp only [setKey, read, Option.bind_eq_bind, Option.bind_some, if_pos own, setBelow, opened,
        if_pos truthy, put]
      exact (Option.map_eq_bind ..).symm
    · have own : ¬ ((members.lookup elem).getD .undefined).truthy = true := truthy
      have after := Value.named?_withNamed held (assign elem (.object []) members)
      have readAfter := Value.member_named after plain
      have putAfter := fun child => Value.assignMember_named child after plain
      rw [lookup_assign_self, Option.getD_some] at readAfter
      simp only [setKey, read, Option.bind_eq_bind, Option.bind_some, if_neg own, setBelow, opened,
        if_neg truthy, put, readAfter, putAfter, Value.withNamed_withNamed, assign_assign]
      exact (Option.map_eq_bind ..).symm

/-- A node without members is left as it is, where a write gets through. -/
theorem setKey_unnamed (other : cfg.named? = none) (path : List String)
    (noLength : "length" ∉ path) (value : Value) :
    setKey cfg path value = if reaches cfg path then some cfg else none := by
  have still : isHolder cfg = false := by
    cases cfg <;> first | rfl | cases other
  cases path with
  | nil => rfl
  | cons elem path =>
    have through := setKey_isSome elem path cfg value noLength
    have plain : elem ≠ "length" := fun same => noLength (by simp [same])
    cases done : setKey cfg (elem :: path) value with
    | none =>
      rw [done] at through
      rw [if_neg (by simp [← through])]
    | some written =>
      rw [done] at through
      have reached : reaches cfg (elem :: path) = true := through.symm
      rw [if_pos reached]
      cases path with
      | nil => rw [assignMember_of_not_holder cfg written elem value still done]
      | cons next rest =>
        rcases setKey_cons cfg written elem next rest value plain done with
          ⟨_, rfl⟩ | ⟨holder, _⟩
        · rfl
        · cases still.symm.trans holder

end Recursion

/-- Keys that part behind a name they share go on behind it. -/
theorem diverge_below {elem : String} {rest others : List String}
    (parts : diverge (elem :: rest) (elem :: others) = true) :
    ∃ next below second further, rest = next :: below ∧ others = second :: further ∧
      diverge rest others = true := by
  have deeper : diverge rest others = true := by simpa [diverge] using parts
  cases rest with
  | nil => cases deeper
  | cons next below =>
    cases others with
    | nil => cases deeper
    | cons second further => exact ⟨next, below, second, further, rfl, rfl, deeper⟩

/-- No part is the length of an array. -/
theorem noLength_of_ordinary {path : List String} (plain : Ordinary path) : "length" ∉ path :=
  fun member => absurd (plain "length" member) (by decide)

/-- Neither is the first. -/
theorem ne_length_of_ordinary {part : String} {path : List String}
    (plain : Ordinary (part :: path)) : part ≠ "length" := fun same =>
  noLength_of_ordinary plain (by simp [same])

/-- The rest of an ordinary path is ordinary. -/
theorem ordinary_tail {part : String} {path : List String} (plain : Ordinary (part :: path)) :
    Ordinary path := fun other member => plain other (List.mem_cons_of_mem part member)

/-- Nodes that are alike are opened alike. -/
theorem alike_opened {first second : Value} (alike : Alike first second) :
    Alike (opened first) (opened second) := by
  rw [opened, opened, alike.truthy]
  split
  · exact alike
  · exact .refl _

/-- Alike values are written alike. -/
theorem setKey_congr (path : List String) (plain : Ordinary path) (value first second : Value)
    (alike : Alike first second) :
    Option.Rel Alike (setKey first path value) (setKey second path value) := by
  induction path generalizing first second with
  | nil => exact .some alike
  | cons elem rest ih =>
    have plainElem := plain elem List.mem_cons_self
    have named := alike.named
    cases left : first.named? with
    | none =>
      obtain rfl := alike.eq_of_unnamed left
      cases setKey second (elem :: rest) value with
      | none => exact .none
      | some written => exact .some (.refl written)
    | some members =>
      cases right : second.named? with
      | none =>
        rw [left, right] at named
        cases named
      | some others =>
        rw [left, right] at named
        cases named with
        | some related =>
          rw [setKey_named left plainElem, setKey_named right plainElem]
          have below : Option.Rel Alike (setBelow (entry members elem) rest value)
              (setBelow (entry others elem) rest value) := by
            cases rest with
            | nil => exact .some (.refl value)
            | cons next rest =>
              exact ih (ordinary_tail plain) _ _ (alike_opened (related.entry elem))
          exact rel_map below fun child other alikeChild =>
            alike.withNamed (related.assign elem alikeChild)

/-- Two writes to a node without members leave it as it is, where both get through. -/
theorem setKey_unnamed_twice {cfg : Value} (held : cfg.named? = none) (path other : List String)
    (plain : Ordinary path) (otherPlain : Ordinary other) (value another : Value) :
    ((setKey cfg path value).bind fun written => setKey written other another) =
      if reaches cfg path && reaches cfg other then some cfg else none := by
  rw [setKey_unnamed held path (noLength_of_ordinary plain)]
  cases reaches cfg path with
  | false => rfl
  | true =>
    rw [if_pos rfl, Option.bind_some, setKey_unnamed held other (noLength_of_ordinary otherPlain),
      Bool.true_and]

section Same

variable {cfg : Value} {members : Members} {elem : String} {value another : Value}

/-- An entry that is assigned is read back. -/
theorem entry_assign_self (child : Value) : entry (assign elem child members) elem = child := by
  simp [entry]

/-- The others are as they were. -/
theorem entry_assign_of_ne {first : String} (distinct : first ≠ elem) (child : Value) :
    entry (assign elem child members) first = entry members first := by
  simp [entry, distinct]

/-- Two writes below one entry. -/
theorem setKey_twice (held : cfg.named? = some members) (plain : Value.ordinary elem = true)
    (next second : String) (rest others : List String) (noLength : next ≠ "length") :
    ((setKey cfg (elem :: next :: rest) value).bind fun written =>
        setKey written (elem :: second :: others) another) =
      ((setKey (opened (entry members elem)) (next :: rest) value).bind fun child =>
        setKey child (second :: others) another).map fun child =>
          cfg.withNamed (assign elem child members) := by
  rw [setKey_named held plain, setBelow]
  cases below : setKey (opened (entry members elem)) (next :: rest) value with
  | none => rfl
  | some child =>
    have truthy := truthy_child (entry members elem) child value next rest noLength below
    rw [Option.map_some, Option.bind_some, Option.bind_some,
      setKey_named (Value.named?_withNamed held _) plain, entry_assign_self, setBelow, opened,
      if_pos truthy]
    simp only [Value.withNamed_withNamed, assign_assign]

/-- Two writes to different entries. -/
theorem setKey_apart (held : cfg.named? = some members) (plain : Value.ordinary elem = true)
    (first : String) (firstPlain : Value.ordinary first = true) (distinct : first ≠ elem)
    (rest others : List String) :
    ((setKey cfg (elem :: rest) value).bind fun written =>
        setKey written (first :: others) another) =
      (setBelow (entry members elem) rest value).bind fun child =>
        (setBelow (entry members first) others another).map fun other =>
          cfg.withNamed (assign first other (assign elem child members)) := by
  rw [setKey_named held plain]
  cases setBelow (entry members elem) rest value with
  | none => rfl
  | some child =>
    rw [Option.map_some, Option.bind_some, Option.bind_some,
      setKey_named (Value.named?_withNamed held _) firstPlain, entry_assign_of_ne distinct]
    simp only [Value.withNamed_withNamed]

end Same

/-- Writes whose keys part commute. The induction follows the part the keys have in
common; where they part, two names of one node are written. -/
theorem setKey_comm (path other : List String) (cfg value another : Value)
    (parts : diverge path other = true) (plain : Ordinary path) (otherPlain : Ordinary other) :
    Option.Rel Alike
      ((setKey cfg path value).bind fun written => setKey written other another)
      ((setKey cfg other another).bind fun written => setKey written path value) := by
  induction path generalizing cfg other with
  | nil => cases parts
  | cons elem rest ih =>
    cases other with
    | nil => cases parts
    | cons first others =>
      have plainElem := plain elem List.mem_cons_self
      have plainFirst := otherPlain first List.mem_cons_self
      cases held : cfg.named? with
      | none =>
        rw [setKey_unnamed_twice held _ _ plain otherPlain,
          setKey_unnamed_twice held _ _ otherPlain plain, Bool.and_comm]
        split
        · exact .some (.refl cfg)
        · exact .none
      | some members =>
        by_cases same : elem = first
        · subst same
          obtain ⟨next, rest, second, others, rfl, rfl, deeper⟩ := diverge_below parts
          rw [setKey_twice held plainElem next second rest others
              (ne_length_of_ordinary (ordinary_tail plain)),
            setKey_twice held plainElem second next others rest
              (ne_length_of_ordinary (ordinary_tail otherPlain))]
          exact rel_map (ih _ _ deeper (ordinary_tail plain) (ordinary_tail otherPlain))
            fun child another alike =>
              (Alike.refl cfg).withNamed ((AlikeMembers.refl members).assign elem alike)
        · rw [setKey_apart held plainElem first plainFirst (Ne.symm same),
            setKey_apart held plainFirst elem plainElem same]
          cases setBelow (entry members elem) rest value with
          | none =>
            cases setBelow (entry members first) others another <;> exact .none
          | some child =>
            cases setBelow (entry members first) others another with
            | none => exact .none
            | some own =>
              exact .some ((Alike.refl cfg).withNamed (AlikeMembers.assign_comm members same child own))

/-- What is read after a write elsewhere was there before, or is undefined. -/
theorem findKey_of_setKey (path other : List String) (cfg written value found : Value)
    (parts : diverge path other = true) (plain : Ordinary path) (otherPlain : Ordinary other)
    (done : setKey cfg path value = some written) (read : findKey written other = some found) :
    findKey cfg other = some found ∨ found = .undefined := by
  induction path generalizing cfg written other with
  | nil => cases parts
  | cons elem rest ih =>
    cases other with
    | nil => cases parts
    | cons first others =>
      have plainElem := plain elem List.mem_cons_self
      have plainFirst := otherPlain first List.mem_cons_self
      cases held : cfg.named? with
      | none =>
        rw [setKey_unnamed held _ (noLength_of_ordinary plain)] at done
        split at done
        · obtain rfl := Option.some.inj done
          exact .inl read
        · cases done
      | some members =>
        rw [setKey_named held plainElem] at done
        obtain ⟨child, below, rfl⟩ := Option.map_eq_some_iff.mp done
        have member := Value.member_named held plainFirst
        have memberAfter := Value.member_named
          (Value.named?_withNamed held (assign elem child members)) plainFirst
        by_cases same : elem = first
        · subst same
          obtain ⟨next, rest, second, others, rfl, rfl, deeper⟩ := diverge_below parts
          have truthy := truthy_child _ child value next rest
            (ne_length_of_ordinary (ordinary_tail plain)) below
          rw [lookup_assign_self, Option.getD_some] at memberAfter
          rw [findKey_of_truthy _ child elem _ memberAfter truthy] at read
          have earlier := ih _ _ _ deeper (ordinary_tail plain) (ordinary_tail otherPlain)
            below read
          by_cases kept : (entry members elem).truthy = true
          · rw [findKey_of_truthy cfg (entry members elem) elem _ member kept]
            rwa [opened, if_pos kept] at earlier
          · rw [opened, if_neg kept] at earlier
            rcases earlier with empty | undefined
            · exact .inr (Option.some.inj empty).symm
            · exact .inr undefined
        · rw [findKey_cons, memberAfter,
            lookup_assign_of_ne elem first child members (Ne.symm same), ← member, ← findKey_cons]
            at read
          exact .inl read

section Again

variable {cfg written value : Value}

/-- A write that was made changes nothing when it is made again. -/
theorem setKey_again (path : List String) (plain : Ordinary path)
    (done : setKey cfg path value = some written) : setKey written path value = some written := by
  induction path generalizing cfg written with
  | nil => rfl
  | cons elem rest ih =>
    have plainElem := plain elem List.mem_cons_self
    cases held : cfg.named? with
    | none =>
      rw [setKey_unnamed held _ (noLength_of_ordinary plain)] at done
      split at done
      · rename_i reached
        obtain rfl := Option.some.inj done
        rw [setKey_unnamed held _ (noLength_of_ordinary plain), if_pos reached]
      · cases done
    | some members =>
      rw [setKey_named held plainElem] at done
      obtain ⟨child, below, rfl⟩ := Option.map_eq_some_iff.mp done
      have again : setBelow child rest value = some child := by
        cases rest with
        | nil => exact below
        | cons next rest =>
          have truthy := truthy_child (entry members elem) child value next rest
            (ne_length_of_ordinary (ordinary_tail plain)) below
          rw [setBelow, opened, if_pos truthy]
          exact ih (ordinary_tail plain) below
      rw [setKey_named (Value.named?_withNamed held _) plainElem, entry_assign_self, again,
        Option.map_some, Value.withNamed_withNamed, assign_assign]

/-- It stays made after writes whose keys part from its own. -/
theorem setKey_kept (path other : List String) (another : Value)
    (parts : diverge path other = true) (plain : Ordinary path) (otherPlain : Ordinary other)
    (made : setKey cfg path value = some cfg) (done : setKey cfg other another = some written) :
    setKey written path value = some written := by
  induction path generalizing cfg written other with
  | nil => cases parts
  | cons elem rest ih =>
    cases other with
    | nil => cases parts
    | cons first others =>
      have plainElem := plain elem List.mem_cons_self
      have plainFirst := otherPlain first List.mem_cons_self
      cases held : cfg.named? with
      | none =>
        rw [setKey_unnamed held _ (noLength_of_ordinary otherPlain)] at done
        split at done
        · obtain rfl := Option.some.inj done
          exact made
        · cases done
      | some members =>
        rw [setKey_named held plainElem] at made
        rw [setKey_named held plainFirst] at done
        obtain ⟨child, below, unchanged⟩ := Option.map_eq_some_iff.mp made
        obtain ⟨own, ownBelow, rfl⟩ := Option.map_eq_some_iff.mp done
        -- the entry is the value that is written
        have there : members.lookup elem = some child := by
          have names := congrArg Value.named? unchanged
          rw [Value.named?_withNamed held, held] at names
          rw [← Option.some.inj names, lookup_assign_self]
        have isChild : entry members elem = child := by rw [entry, there, Option.getD_some]
        rw [setKey_named (Value.named?_withNamed held _) plainElem]
        by_cases same : elem = first
        · subst same
          obtain ⟨next, rest, second, others, rfl, rfl, deeper⟩ := diverge_below parts
          have truthy := truthy_child _ child value next rest
            (ne_length_of_ordinary (ordinary_tail plain)) below
          have ownTruthy := truthy_child _ own another second others
            (ne_length_of_ordinary (ordinary_tail otherPlain)) ownBelow
          rw [setBelow, isChild, opened, if_pos truthy] at below ownBelow
          have deeperMade := ih (second :: others) deeper (ordinary_tail plain)
            (ordinary_tail otherPlain) below ownBelow
          rw [entry_assign_self, setBelow, opened, if_pos ownTruthy, deeperMade,
            Option.map_some, Value.withNamed_withNamed, assign_assign]
        · have thereAfter : (assign first own members).lookup elem = some child := by
            rw [lookup_assign_of_ne first elem own members same, there]
          rw [entry_assign_of_ne same, below, Option.map_some, Value.withNamed_withNamed,
            assign_of_lookup elem child _ thereAfter]

end Again

end Hadouken.ConfigWrites
