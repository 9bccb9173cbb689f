import Hadouken.Config

/-!
# Writes to the configuration

What `config.set` does to the other entries and to its own, whatever stands on
the way to them. A node that can hold members is an object or an array. A falsy
node on the way is replaced by an object; a truthy one that holds no members
makes the write throw or swallows it.

A part of a key is never the length of an array.
-/

namespace Hadouken.ConfigWrites

open Script Config

/-- The value keeps the members that are set in it. -/
def isHolder : Value → Bool
  | .object _ | .array _ _ => true
  | _ => false

/-- The value has named children in the property tree. -/
def isObject : Value → Bool
  | .object _ => true
  | _ => false

/-- The named child in the property tree. -/
def treeMember : Value → String → Option Value
  | .object members, part => members.lookup part
  | _, _ => none

/-- What holds no members is no object. -/
theorem isObject_of_not_holder (value : Value) (still : isHolder value = false) :
    isObject value = false := by
  cases value <;> first | rfl | cases still

/-- What holds members is truthy. -/
theorem truthy_of_isHolder (value : Value) (holder : isHolder value = true) :
    value.truthy = true := by
  cases value <;> first | rfl | cases holder

section Members

variable (target written : Value) (part other : String) (value : Value)

/-- A canonical index is read off its name. -/
theorem arrayIndex_inj (index : Nat) (first : Value.arrayIndex part = some index)
    (second : Value.arrayIndex other = some index) : part = other := by
  have canonical : ∀ name, Value.arrayIndex name = some index → toString index = name := by
    intro name found
    rw [Value.arrayIndex, Option.filter_eq_some_iff] at found
    exact eq_of_beq found.2
  rw [← canonical part first, canonical other second]

/-- A list that is resized and changed at one index reads as before elsewhere. -/
theorem getD_set_resize (items : List Value) (index read : Nat) (distinct : read ≠ index) :
    ((Value.resize items (max items.length (index + 1))).set index value)[read]?.getD .undefined =
      items[read]?.getD .undefined := by
  rw [List.getElem?_set_ne (Ne.symm distinct), Value.resize, List.getElem?_take]
  split
  · rw [List.getElem?_append]
    split
    · rfl
    · rename_i beyond
      rw [List.getElem?_replicate, List.getElem?_eq_none (Nat.le_of_not_lt beyond)]
      split <;> rfl
  · rw [List.getElem?_eq_none (by omega)]

/-- An object stays an object, an array an array, and what holds no members is
left as it is. -/
theorem assignMember_cases (done : target.assignMember part value = some written) :
    (∃ members, target = .object members ∧ written = .object (assign part value members)) ∨
      (∃ items named others names, target = .array items named ∧ written = .array others names) ∨
      (isHolder target = false ∧ written = target) := by
  cases target with
  | object members => exact .inl ⟨members, rfl, (Option.some.inj done).symm⟩
  | array items named =>
    refine .inr (.inl ⟨items, named, ?_⟩)
    simp only [Value.assignMember] at done
    split at done
    · obtain ⟨_, _, rfl⟩ := Option.map_eq_some_iff.mp done
      exact ⟨_, _, rfl, rfl⟩
    · split at done
      · exact ⟨_, _, rfl, (Option.some.inj done).symm⟩
      · exact ⟨_, _, rfl, (Option.some.inj done).symm⟩
  | undefined => cases done
  | null => cases done
  | _ => exact .inr (.inr ⟨rfl, (Option.some.inj done).symm⟩)

/-- What holds no members swallows an assignment. -/
theorem assignMember_of_not_holder (still : isHolder target = false)
    (done : target.assignMember part value = some written) : written = target := by
  rcases assignMember_cases target written part value done with
    ⟨_, rfl, _⟩ | ⟨_, _, _, _, rfl, _⟩ | ⟨_, same⟩
  · cases still
  · cases still
  · exact same

/-- An assignment makes nothing a holder, and nothing else. -/
theorem isHolder_assignMember (done : target.assignMember part value = some written) :
    isHolder written = isHolder target := by
  rcases assignMember_cases target written part value done with
    ⟨_, rfl, rfl⟩ | ⟨_, _, _, _, rfl, rfl⟩ | ⟨_, rfl⟩ <;> rfl

/-- It makes nothing an object, and nothing else. -/
theorem isObject_assignMember (done : target.assignMember part value = some written) :
    isObject written = isObject target := by
  rcases assignMember_cases target written part value done with
    ⟨_, rfl, rfl⟩ | ⟨_, _, _, _, rfl, rfl⟩ | ⟨_, rfl⟩ <;> rfl

/-- What is set reads back, where members are held. -/
theorem member_assignMember_self (noLength : part ≠ "length") (holder : isHolder target = true)
    (done : target.assignMember part value = some written) :
    written.member part = some value := by
  cases target with
  | object members =>
    obtain rfl := Option.some.inj done
    simp
  | array items named =>
    simp only [Value.assignMember, if_neg noLength] at done
    split at done
    · rename_i index found
      obtain rfl := Option.some.inj done
      have inside : index < (Value.resize items (max items.length (index + 1))).length := by
        simp only [Value.resize, List.length_take, List.length_append, List.length_replicate]
        omega
      simp [Value.member, noLength, found, inside]
    · rename_i found
      obtain rfl := Option.some.inj done
      simp [Value.member, noLength, found]
  | _ => cases holder

/-- The other members read as before. -/
theorem member_assignMember_of_ne (distinct : other ≠ part) (noLength : part ≠ "length")
    (otherNoLength : other ≠ "length") (done : target.assignMember part value = some written) :
    written.member other = target.member other := by
  cases target with
  | object members =>
    obtain rfl := Option.some.inj done
    simp [distinct]
  | array items named =>
    simp only [Value.assignMember, if_neg noLength] at done
    split at done
    · rename_i index found
      obtain rfl := Option.some.inj done
      simp only [Value.member, if_neg otherNoLength]
      cases own : Value.arrayIndex other with
      | none => rfl
      | some read =>
        have apart : read ≠ index := by
          rintro rfl
          exact distinct (arrayIndex_inj other part read own found)
        simp only [getD_set_resize value items index read apart]
    · obtain rfl := Option.some.inj done
      simp only [Value.member, if_neg otherNoLength]
      cases own : Value.arrayIndex other with
      | none => simp [distinct]
      | some read => rfl
  | undefined => cases done
  | null => cases done
  | _ => obtain rfl := Option.some.inj done; rfl

/-- The other members stay. -/
theorem treeMember_assignMember_of_ne (distinct : other ≠ part)
    (done : target.assignMember part value = some written) :
    treeMember written other = treeMember target other := by
  rcases assignMember_cases target written part value done with
    ⟨members, rfl, rfl⟩ | ⟨_, _, _, _, rfl, rfl⟩ | ⟨_, rfl⟩
  · exact lookup_assign_of_ne part other value members distinct
  · rfl
  · rfl

/-- The assigned member is read back. -/
theorem treeMember_assignMember_self (object : isObject target = true)
    (done : target.assignMember part value = some written) :
    treeMember written part = some value := by
  cases target with
  | object members =>
    obtain rfl := Option.some.inj done
    exact lookup_assign_self part value members
  | _ => cases object

end Members

section Nodes

/-- The write does not throw: it gets to its last node, and there to a value
that has properties. -/
def reaches : Value → List String → Bool
  | _, [] => true
  | cfg, [_] =>
      match cfg with
      | .undefined | .null => false
      | _ => true
  | cfg, elem :: rest =>
      match cfg.member elem with
      | none => false
      | some node => if node.truthy then reaches node rest else isHolder cfg || reaches node rest

/-- The write is not swallowed. -/
def takes : Value → List String → Bool
  | _, [] => false
  | cfg, [_] => isHolder cfg
  | cfg, elem :: rest =>
      isHolder cfg && (cfg.member elem).any fun node => !node.truthy || takes node rest

/-- The written entry is one of the property tree. -/
def takesTree : Value → List String → Bool
  | _, [] => false
  | cfg, [_] => isObject cfg
  | cfg, elem :: rest =>
      isObject cfg && (cfg.member elem).any fun node => !node.truthy || takesTree node rest

/-- The keys part at some point. -/
def diverge : List String → List String → Bool
  | first :: rest, second :: others => if first = second then diverge rest others else true
  | _, _ => false

/-- The value that `set` goes on with: a falsy one is replaced first. -/
def opened (node : Value) : Value := if node.truthy then node else .object []

/-- What one step of a write does to a node that holds members. -/
structure Stepped (cfg written : Value) (elem : String) (child : Value) : Prop where
  holder : isHolder written = isHolder cfg
  object : isObject written = isObject cfg
  own : written.member elem = some child
  tree : isObject cfg = true → treeMember written elem = some child
  others : ∀ other, other ≠ elem → other ≠ "length" →
    written.member other = cfg.member other ∧ treeMember written other = treeMember cfg other

/-- A member of a holder is assigned and the others stay. -/
theorem stepped_assignMember (cfg written : Value) (elem : String) (value : Value)
    (noLength : elem ≠ "length") (holder : isHolder cfg = true)
    (done : cfg.assignMember elem value = some written) : Stepped cfg written elem value where
  holder := isHolder_assignMember cfg written elem value done
  object := isObject_assignMember cfg written elem value done
  own := member_assignMember_self cfg written elem value noLength holder done
  tree object := treeMember_assignMember_self cfg written elem value object done
  others other distinct otherNoLength :=
    ⟨member_assignMember_of_ne cfg written elem other value distinct noLength otherNoLength done,
      treeMember_assignMember_of_ne cfg written elem other value distinct done⟩

/-- Of two changes of one member the later one stays. -/
theorem Stepped.trans {cfg changed written : Value} {elem : String} {child base : Value}
    (second : Stepped changed written elem child) (first : Stepped cfg changed elem base) :
    Stepped cfg written elem child where
  holder := second.holder.trans first.holder
  object := second.object.trans first.object
  own := second.own
  tree object := second.tree (first.object.trans object)
  others other distinct noLength :=
    ⟨(second.others other distinct noLength).1.trans (first.others other distinct noLength).1,
      (second.others other distinct noLength).2.trans (first.others other distinct noLength).2⟩

/-- A write on the way: a node that holds no members stays, another one gets a
new child, written from the old child or from an empty object. -/
theorem setKey_cons (cfg written : Value) (elem next : String) (rest : List String) (value : Value)
    (noLength : elem ≠ "length")
    (done : setKey cfg (elem :: next :: rest) value = some written) :
    (isHolder cfg = false ∧ written = cfg) ∨
      (isHolder cfg = true ∧ ∃ node child, cfg.member elem = some node ∧
        setKey (opened node) (next :: rest) value = some child ∧
        Stepped cfg written elem child) := by
  simp only [setKey, Option.bind_eq_bind, Option.bind_eq_some_iff] at done
  obtain ⟨node, read, done⟩ := done
  by_cases truthy : node.truthy = true
  · simp only [if_pos truthy, Option.bind_some, Option.bind_eq_some_iff] at done
    obtain ⟨base, basis, child, below, put⟩ := done
    obtain rfl : node = base := Option.some.inj (read.symm.trans basis)
    cases holder : isHolder cfg with
    | false => exact .inl ⟨rfl, assignMember_of_not_holder cfg written elem _ holder put⟩
    | true =>
      refine .inr ⟨rfl, node, child, read, ?_, stepped_assignMember _ _ _ _ noLength holder put⟩
      rw [opened, if_pos truthy, below]
  · simp only [if_neg truthy, Option.bind_eq_some_iff] at done
    obtain ⟨changed, replaced, base, basis, child, below, put⟩ := done
    cases holder : isHolder cfg with
    | false =>
      obtain rfl := assignMember_of_not_holder cfg changed elem _ holder replaced
      exact .inl ⟨rfl, assignMember_of_not_holder _ written elem _ holder put⟩
    | true =>
      have first := stepped_assignMember _ _ _ _ noLength holder replaced
      have second := stepped_assignMember _ _ _ _ noLength (first.holder.trans holder) put
      obtain rfl : .object [] = base := Option.some.inj (first.own.symm.trans basis)
      refine .inr ⟨rfl, node, child, read, ?_, second.trans first⟩
      rw [opened, if_neg truthy, below]

/-- What another key reads, and whether it can be written, is as before. -/
structure Framed (cfg written : Value) (other : List String) : Prop where
  key : ∀ value, findKey cfg other = some value → findKey written other = some value
  node : treeLookup written other = treeLookup cfg other
  takes : takes written other = takes cfg other
  takesTree : takesTree written other = takesTree cfg other
  reaches : reaches written other = reaches cfg other

/-- What two writes leave alone, both together do. -/
theorem Framed.trans {cfg changed written : Value} {other : List String}
    (later : Framed changed written other) (earlier : Framed cfg changed other) :
    Framed cfg written other where
  key value read := later.key value (earlier.key value read)
  node := later.node.trans earlier.node
  takes := later.takes.trans earlier.takes
  takesTree := later.takesTree.trans earlier.takesTree
  reaches := later.reaches.trans earlier.reaches

/-- A path is followed member by member. -/
theorem treeLookup_cons (cfg : Value) (part : String) (rest : List String) :
    treeLookup cfg (part :: rest) =
      (treeMember cfg part).bind fun node => treeLookup node rest := by
  cases cfg <;> rfl

/-- `findKey` goes on from what it finds, until there is nothing. -/
theorem findKey_cons (cfg : Value) (part : String) (rest : List String) :
    findKey cfg (part :: rest) = (cfg.member part).bind fun node =>
      match node with
      | .undefined => some .undefined
      | _ => findKey node rest := by
  rw [findKey]
  cases cfg.member part with
  | none => rfl
  | some node => cases node <;> rfl

/-- A key that parts here. -/
theorem framed_of_stepped (cfg written child : Value) (elem other : String) (rest : List String)
    (holder : isHolder cfg = true) (stepped : Stepped cfg written elem child)
    (distinct : other ≠ elem) (noLength : other ≠ "length") :
    Framed cfg written (other :: rest) := by
  obtain ⟨member, named⟩ := stepped.others other distinct noLength
  constructor
  · intro value read
    rw [findKey_cons, member, ← findKey_cons, read]
  · rw [treeLookup_cons, treeLookup_cons, named]
  · cases rest with
    | nil => exact stepped.holder
    | cons next rest => simp only [takes, stepped.holder, member]
  · cases rest with
    | nil => exact stepped.object
    | cons next rest => simp only [takesTree, stepped.object, member]
  · cases rest with
    | nil =>
      have both : ∀ value, isHolder value = true → reaches value [other] = true := by
        intro value holds
        cases value <;> first | rfl | cases holds
      rw [both cfg holder, both written (stepped.holder.trans holder)]
    | cons next rest => simp only [reaches, stepped.holder, member]

/-- Writing a key leaves the kind of the node as it is. -/
theorem isHolder_setKey (cfg written : Value) (elem : String) (rest : List String) (value : Value)
    (noLength : elem ≠ "length") (done : setKey cfg (elem :: rest) value = some written) :
    isHolder written = isHolder cfg := by
  cases rest with
  | nil => exact isHolder_assignMember cfg written elem value done
  | cons next rest =>
    rcases setKey_cons cfg written elem next rest value noLength done with
      ⟨_, rfl⟩ | ⟨_, _, _, _, _, stepped⟩
    · rfl
    · exact stepped.holder

/-- A child written below keeps a truthy node truthy, and is truthy where the
node was replaced. -/
theorem truthy_child (node child value : Value) (next : String) (rest : List String)
    (noLength : next ≠ "length")
    (below : setKey (opened node) (next :: rest) value = some child) : child.truthy = true := by
  cases holder : isHolder (opened node) with
  | true =>
    have same := isHolder_setKey _ child next rest value noLength below
    exact truthy_of_isHolder child (same.trans holder)
  | false =>
    have truthy : node.truthy = true := by
      by_contra falsy
      rw [opened, if_neg falsy] at holder
      cases holder
    rw [opened, if_pos truthy] at below holder
    obtain rfl : child = node := by
      cases rest with
      | nil => exact assignMember_of_not_holder node child next value holder below
      | cons second rest =>
        rcases setKey_cons node child next second rest value noLength below with
          ⟨_, same⟩ | ⟨holds, _⟩
        · exact same
        · cases holder.symm.trans holds
    exact truthy

section Reading

variable (cfg node : Value) (part next : String) (rest : List String)

/-- Behind a truthy node the search goes on there. -/
theorem findKey_of_truthy (read : cfg.member part = some node) (truthy : node.truthy = true) :
    findKey cfg (part :: rest) = findKey node rest := by
  rw [findKey_cons, read]
  cases node <;> first | rfl | cases truthy

/-- Below a falsy node nothing is defined. -/
theorem findKey_of_falsy (value : Value) (read : cfg.member part = some node)
    (falsy : node.truthy = false) (noLength : next ≠ "length")
    (found : findKey cfg (part :: next :: rest) = some value) : value = .undefined := by
  rw [findKey_cons, read, Option.bind_some] at found
  cases node with
  | undefined => exact (Option.some.inj found).symm
  | null => cases found
  | string text =>
    obtain rfl : text = "" := by simpa [Value.truthy] using falsy
    have unread : (Value.string "").member next = some .undefined := by
      simp only [Value.member, if_neg noLength]
      split <;> rfl
    simp only [findKey_cons, unread, Option.bind_some, Option.some.injEq] at found
    exact found.symm
  | boolean flag => exact (Option.some.inj found).symm
  | number number => exact (Option.some.inj found).symm
  | array items named => cases falsy
  | object members => cases falsy
  | function identity => cases falsy
  | error thrown => cases falsy

/-- Nothing is below a falsy node. -/
theorem treeLookup_of_falsy (falsy : node.truthy = false) :
    treeLookup node (next :: rest) = none := by
  cases node <;> first | rfl | cases falsy

/-- In an object the named child is what a script reads. -/
theorem treeMember_of_member (object : isObject cfg = true) (read : cfg.member part = some node) :
    treeMember cfg part = some node ∨ (treeMember cfg part = none ∧ node = .undefined) := by
  cases cfg with
  | object members =>
    have same : (members.lookup part).getD .undefined = node := Option.some.inj read
    cases held : members.lookup part with
    | none => exact .inr ⟨held, by rw [← same, held]; rfl⟩
    | some own => exact .inl (by rw [treeMember, held, ← same, held]; rfl)
  | _ => cases object

/-- Only objects have members in the tree. -/
theorem treeMember_of_not_object (other : isObject cfg = false) : treeMember cfg part = none := by
  cases cfg <;> first | rfl | cases other

end Reading

/-- An empty object takes every write. -/
theorem takes_empty (part : String) (rest : List String) :
    takes (.object []) (part :: rest) = true := by
  cases rest <;> rfl

/-- An empty object takes any path. -/
theorem takesTree_empty (part : String) (rest : List String) :
    takesTree (.object []) (part :: rest) = true := by
  cases rest <;> rfl

/-- Any path gets through in an empty object. -/
theorem reaches_empty (part : String) (rest : List String) :
    reaches (.object []) (part :: rest) = true := by
  cases rest <;> rfl

/-- A lookup in what is no object finds nothing, before a write and after it. -/
theorem treeLookup_of_object {cfg written child : Value} {elem : String} (rest : List String)
    (stepped : Stepped cfg written elem child)
    (inside : isObject cfg = true →
      treeLookup written (elem :: rest) = treeLookup cfg (elem :: rest)) :
    treeLookup written (elem :: rest) = treeLookup cfg (elem :: rest) := by
  cases object : isObject cfg with
  | false =>
    rw [treeLookup_cons, treeLookup_cons, treeMember_of_not_object cfg elem object,
      treeMember_of_not_object written elem (stepped.object.trans object)]
  | true => exact inside object

/-- A key below the same member, from what is below. -/
theorem framed_below (cfg written node child : Value) (elem next : String) (rest : List String)
    (noLength : next ≠ "length") (holder : isHolder cfg = true)
    (read : cfg.member elem = some node) (stepped : Stepped cfg written elem child)
    (truthy : child.truthy = true) (below : Framed (opened node) child (next :: rest)) :
    Framed cfg written (elem :: next :: rest) := by
  have after := findKey_of_truthy written child elem (next :: rest) stepped.own truthy
  by_cases kept : node.truthy = true
  · rw [opened, if_pos kept] at below
    constructor
    · intro value found
      rw [findKey_of_truthy cfg node elem (next :: rest) read kept] at found
      rw [after]
      exact below.key value found
    · apply treeLookup_of_object (next :: rest) stepped
      intro object
      rw [treeLookup_cons, treeLookup_cons]
      rcases treeMember_of_member cfg node elem object read with named | ⟨_, rfl⟩
      · rw [named, stepped.tree object, Option.bind_some, Option.bind_some, below.node]
      · cases kept
    · simp [takes, stepped.holder, stepped.own, read, truthy, kept, below.takes]
    · simp [takesTree, stepped.object, stepped.own, read, truthy, kept, below.takesTree]
    · simp [reaches, stepped.own, read, truthy, kept, below.reaches]
  · have falsy : node.truthy = false := by simpa using kept
    rw [opened, if_neg kept] at below
    constructor
    · intro value found
      obtain rfl := findKey_of_falsy cfg node elem next rest value read falsy noLength found
      rw [after]
      exact below.key _ rfl
    · apply treeLookup_of_object (next :: rest) stepped
      intro object
      rw [treeLookup_cons, treeLookup_cons, stepped.tree object, Option.bind_some, below.node]
      rcases treeMember_of_member cfg node elem object read with named | ⟨named, _⟩
      · rw [named, Option.bind_some, treeLookup_of_falsy node next rest falsy]
        rfl
      · rw [named]
        rfl
    · simp [takes, stepped.holder, stepped.own, read, truthy, falsy, below.takes, takes_empty]
    · simp [takesTree, stepped.object, stepped.own, read, truthy, falsy, below.takesTree,
        takesTree_empty]
    · simp [reaches, stepped.own, read, truthy, falsy, holder, below.reaches, reaches_empty]

/-- A write leaves the keys that part from its own as they were. -/
theorem framed_setKey (path other : List String) (cfg written value : Value)
    (parts : diverge path other = true) (noLength : "length" ∉ path)
    (otherNoLength : "length" ∉ other) (done : setKey cfg path value = some written) :
    Framed cfg written other := by
  induction path generalizing cfg written other with
  | nil => cases parts
  | cons elem rest ih =>
    cases other with
    | nil => cases parts
    | cons first others =>
      have plain : elem ≠ "length" := fun same => noLength (same ▸ List.mem_cons_self)
      have otherPlain : first ≠ "length" := fun same => otherNoLength (same ▸ List.mem_cons_self)
      cases rest with
      | nil =>
        have distinct : first ≠ elem := by
          rintro rfl
          simp [diverge] at parts
        cases holder : isHolder cfg with
        | false =>
          obtain rfl := assignMember_of_not_holder cfg written elem value holder done
          exact ⟨fun _ found => found, rfl, rfl, rfl, rfl⟩
        | true =>
          exact framed_of_stepped cfg written value elem first others holder
            (stepped_assignMember cfg written elem value plain holder done) distinct otherPlain
      | cons next rest =>
        rcases setKey_cons cfg written elem next rest value plain done with
          ⟨_, rfl⟩ | ⟨holder, node, child, read, below, stepped⟩
        · exact ⟨fun _ found => found, rfl, rfl, rfl, rfl⟩
        · by_cases same : elem = first
          · subst same
            have parted : diverge (next :: rest) others = true := by simpa [diverge] using parts
            cases others with
            | nil => cases parted
            | cons second others =>
              have deeper := ih (second :: others) (opened node) child parted
                (fun member => noLength (List.mem_cons_of_mem _ member))
                (fun member => otherNoLength (List.mem_cons_of_mem _ member)) below
              have nextPlain : next ≠ "length" := fun same => noLength (by simp [same])
              have secondPlain : second ≠ "length" := fun same => otherNoLength (by simp [same])
              exact framed_below cfg written node child elem second others secondPlain holder read
                stepped (truthy_child node child value next rest nextPlain below) deeper
          · exact framed_of_stepped cfg written child elem first others holder stepped
              (Ne.symm same) otherPlain

/-- What a write leaves at its own key: the value, or what stood there where the
write is swallowed. -/
structure Placed (cfg written : Value) (path : List String) (value : Value) : Prop where
  key : findKey written path = if takes cfg path then some value else findKey cfg path
  node : treeLookup written path = if takesTree cfg path then some value else treeLookup cfg path

/-- An assignment places a value at the last part. -/
theorem placed_assignMember (cfg written : Value) (part : String) (value : Value)
    (noLength : part ≠ "length") (done : cfg.assignMember part value = some written) :
    Placed cfg written [part] value := by
  cases holder : isHolder cfg with
  | false =>
    obtain rfl := assignMember_of_not_holder cfg written part value holder done
    have noObject := isObject_of_not_holder written holder
    exact ⟨by simp [takes, holder], by simp [takesTree, noObject]⟩
  | true =>
    have stepped := stepped_assignMember cfg written part value noLength holder done
    constructor
    · rw [findKey_cons, stepped.own, takes, if_pos holder, Option.bind_some]
      cases value <;> rfl
    · rw [treeLookup_cons, takesTree]
      cases object : isObject cfg with
      | false =>
        rw [treeMember_of_not_object written part (stepped.object.trans object), treeLookup_cons,
          treeMember_of_not_object cfg part object]
        rfl
      | true =>
        rw [stepped.tree object]
        rfl

/-- A write puts its value at its key, unless it is swallowed. -/
theorem placed_setKey (part : String) (path : List String) (cfg written value : Value)
    (noLength : "length" ∉ part :: path) (done : setKey cfg (part :: path) value = some written) :
    Placed cfg written (part :: path) value := by
  induction path generalizing part cfg written with
  | nil =>
    exact placed_assignMember cfg written part value (fun same => noLength (by simp [same])) done
  | cons next rest ih =>
    have plain : part ≠ "length" := fun same => noLength (by simp [same])
    have nextPlain : next ≠ "length" := fun same => noLength (by simp [same])
    rcases setKey_cons cfg written part next rest value plain done with
      ⟨still, rfl⟩ | ⟨holder, node, child, read, below, stepped⟩
    · have noObject := isObject_of_not_holder written still
      exact ⟨by simp [takes, still], by simp [takesTree, noObject]⟩
    · have truthy := truthy_child node child value next rest nextPlain below
      have own := ih next (opened node) child
        (fun member => noLength (List.mem_cons_of_mem _ member)) below
      constructor
      · rw [findKey_of_truthy written child part (next :: rest) stepped.own truthy, own.key]
        by_cases kept : node.truthy = true
        · rw [findKey_of_truthy cfg node part (next :: rest) read kept]
          simp [takes, holder, read, kept, opened]
        · simp [takes, holder, read, kept, opened, takes_empty]
      · rw [treeLookup_cons written]
        cases object : isObject cfg with
        | false =>
          rw [treeMember_of_not_object written part (stepped.object.trans object), treeLookup_cons,
            treeMember_of_not_object cfg part object]
          simp [takesTree, object]
        | true =>
          rw [stepped.tree object, Option.bind_some, own.node]
          by_cases kept : node.truthy = true
          · have named : treeMember cfg part = some node := by
              rcases treeMember_of_member cfg node part object read with named | ⟨_, rfl⟩
              · exact named
              · cases kept
            rw [treeLookup_cons cfg, named]
            simp [takesTree, object, read, kept, opened]
          · simp [takesTree, object, read, kept, opened, takesTree_empty]

/-- An assignment throws where reading does. -/
theorem isSome_assignMember (cfg : Value) (part : String) (value : Value)
    (noLength : part ≠ "length") :
    (cfg.assignMember part value).isSome = (cfg.member part).isSome := by
  cases cfg with
  | array items named =>
    simp only [Value.assignMember, Value.member, if_neg noLength]
    split <;> rfl
  | string text =>
    simp only [Value.assignMember, Value.member, if_neg noLength]
    split <;> rfl
  | error thrown =>
    simp only [Value.assignMember, Value.member]
    split
    · rfl
    · split <;> rfl
  | _ => rfl

/-- A child is put back wherever it could be read. -/
theorem isSome_put (cfg : Value) (part : String) (noLength : part ≠ "length") (node : Value)
    (read : cfg.member part = some node) (child : Option Value) :
    (child.bind fun value => cfg.assignMember part value).isSome = child.isSome := by
  cases child with
  | none => rfl
  | some value => rw [Option.bind_some, isSome_assignMember cfg part value noLength, read]; rfl

/-- A write throws exactly where it does not get through. -/
theorem setKey_isSome (part : String) (path : List String) (cfg value : Value)
    (noLength : "length" ∉ part :: path) :
    (setKey cfg (part :: path) value).isSome = reaches cfg (part :: path) := by
  induction path generalizing part cfg with
  | nil =>
    have plain : part ≠ "length" := fun same => noLength (by simp [same])
    rw [setKey, isSome_assignMember cfg part value plain]
    cases cfg with
    | undefined => rfl
    | null => rfl
    | object members => rfl
    | boolean flag => rfl
    | number number => rfl
    | function identity => rfl
    | array items named =>
      simp only [Value.member, if_neg plain, reaches]
      split <;> rfl
    | string text =>
      simp only [Value.member, if_neg plain, reaches]
      split <;> rfl
    | error thrown =>
      simp only [Value.member, reaches]
      split
      · rfl
      · split <;> rfl
  | cons next rest ih =>
    have plain : part ≠ "length" := fun same => noLength (by simp [same])
    have below := fun node => ih next node fun member => noLength (List.mem_cons_of_mem _ member)
    cases read : cfg.member part with
    | none => simp [setKey, reaches, read]
    | some node =>
      by_cases truthy : node.truthy = true
      · simp only [setKey, read, Option.bind_eq_bind, Option.bind_some, if_pos truthy, reaches]
        rw [isSome_put cfg part plain node read, below]
      · obtain ⟨changed, replaced⟩ := Option.isSome_iff_exists.mp
          ((isSome_assignMember cfg part (.object []) plain).trans (by rw [read]; rfl))
        simp only [setKey, read, Option.bind_eq_bind, Option.bind_some, if_neg truthy, replaced,
          reaches]
        cases holder : isHolder cfg with
        | false =>
          obtain rfl := assignMember_of_not_holder cfg changed part _ holder replaced
          rw [read, Option.bind_some, isSome_put _ part plain node read, below, Bool.false_or]
        | true =>
          have own := member_assignMember_self cfg changed part _ plain holder replaced
          rw [own, Option.bind_some, isSome_put _ part plain _ own, below, reaches_empty,
            Bool.true_or]

end Nodes

end Hadouken.ConfigWrites
