import Hadouken.Library.Json

/-!
# The configuration

The configuration is one object that the scripts read and write by keys of
several parts, and that is written as JSON on exit. The application reads the
same file as a property tree, in which only objects have named children.

Keys are given as the parts they are split into. A result is absent where the
script throws.
-/

namespace Hadouken.Config

open Script

/-- `findKey(key)` of config.js. -/
def findKey : Value → List String → Option Value
  | val, [] => some val
  | val, part :: rest => do
      match ← val.member part with
      | .undefined => return .undefined
      | val => findKey val rest

/-- `config.set(key, val)`. Objects are shared in the script; here the changed
entry is put back into what holds it. -/
def setKey : Value → List String → Value → Option Value
  | cfg, [], _ => some cfg
  | cfg, [last], val => cfg.assignMember last val
  | cfg, elem :: rest, val => do
      let cfg ← if (← cfg.member elem).truthy then some cfg else cfg.assignMember elem (.object [])
      let child ← setKey (← cfg.member elem) rest val
      cfg.assignMember elem child

/-- The node of the property tree under a key. -/
def treeLookup : Value → List String → Option Value
  | node, [] => some node
  | .object members, part :: rest => (members.lookup part).bind fun node => treeLookup node rest
  | _, _ :: _ => none

/-- `saveConfig` followed by a start: the configuration is written as JSON and
read again. -/
def reload (config : Value) : Option Value := (Json.ofValue config).map Json.toValue

/-- A configuration of JSON values survives the file. -/
theorem reload_plain (config : Value) (plain : Json.Plain config) : reload config = some config := by
  obtain ⟨document, encoded, decoded⟩ := Json.toValue_ofValue config plain
  rw [reload, encoded, Option.map_some, decoded]

/-- The entry of an object under a name. -/
def entry (members : Members) (part : String) : Value := (members.lookup part).getD .undefined

/-- The members of an entry, if it is an object. -/
def membersOf : Value → Members
  | .object members => members
  | _ => []

/-- Members can be set in the entry: it is an object, or `set` makes it one. -/
def Open (members : Members) (part : String) : Prop :=
  (entry members part).truthy = false ∨ ∃ inner, members.lookup part = some (.object inner)

/-- The configuration with one member of one section set. -/
def withMember (members : Members) (part name : String) (value : Value) : Members :=
  assign part (.object (assign name value (membersOf (entry members part)))) members

section Sections

variable (members : Members) (part name : String) (value : Value)

/-- Setting a member of an open section does not throw. -/
theorem setKey_open (opened : Open members part) :
    setKey (.object members) [part, name] value =
      some (.object (withMember members part name value)) := by
  rcases opened with falsy | ⟨inner, found⟩
  · have none_ : membersOf (entry members part) = [] := by
      cases held : entry members part with
      | object inner => rw [held] at falsy; cases falsy
      | _ => rfl
    have skipped : ((members.lookup part).getD .undefined).truthy = false := falsy
    simp [setKey, skipped, withMember, none_, assign_assign]
  · simp [setKey, found, withMember, entry, membersOf]

/-- The section is an object afterwards. -/
theorem open_withMember : Open (withMember members part name value) part := by
  exact .inr ⟨_, lookup_assign_self _ _ _⟩

/-- The member reads back as set. -/
theorem findKey_withMember_self :
    findKey (.object (withMember members part name value)) [part, name] = some value := by
  cases value <;> simp [findKey, withMember]

/-- Every other member of the section reads as before. -/
theorem findKey_withMember_of_ne (opened : Open members part)
    (readable : entry members part ≠ .null) (other : String) (rest : List String)
    (distinct : other ≠ name) (noLength : other ≠ "length") :
    findKey (.object (withMember members part name value)) (part :: other :: rest) =
      findKey (.object members) (part :: other :: rest) := by
  have after : findKey (.object (withMember members part name value)) (part :: other :: rest) =
      findKey (.object (membersOf (entry members part))) (other :: rest) := by
    simp [findKey, withMember, distinct]
  have before : findKey (.object members) (part :: other :: rest) =
      match entry members part with
      | .undefined => some .undefined
      | held => findKey held (other :: rest) := by
    simp only [findKey, Value.member_object, entry]
    rfl
  rw [after, before]
  rcases opened with falsy | ⟨inner, found⟩
  · cases held : entry members part with
    | undefined => rfl
    | null => exact absurd held readable
    | boolean own => rfl
    | number own => rfl
    | string text =>
      obtain rfl : text = "" := by
        rw [held] at falsy
        simpa [Value.truthy] using falsy
      have unread : (Value.string "").member other = some .undefined := by
        simp only [Value.member, if_neg noLength]
        split <;> rfl
      simp [findKey, unread, membersOf]
    | array items named => rw [held] at falsy; cases falsy
    | object inner => rw [held] at falsy; cases falsy
    | function identity => rw [held] at falsy; cases falsy
    | error thrown => rw [held] at falsy; cases falsy
  · have held : entry members part = .object inner := by rw [entry, found, Option.getD_some]
    rw [held]
    rfl

/-- An entry that is written is found. -/
theorem treeLookup_withMember_self :
    treeLookup (.object (withMember members part name value)) [part, name] = some value := by
  simp [treeLookup, withMember]

/-- The property tree of every other member is as before. -/
theorem treeLookup_withMember_of_ne (other : String) (distinct : other ≠ name) :
    treeLookup (.object (withMember members part name value)) [part, other] =
      treeLookup (.object members) [part, other] := by
  have after : treeLookup (.object (withMember members part name value)) [part, other] =
      (membersOf (entry members part)).lookup other := by
    simp [treeLookup, withMember, distinct]
  rw [after, entry, treeLookup]
  cases held : members.lookup part with
  | none => rfl
  | some own => cases own <;> simp [membersOf, treeLookup]

/-- A plain configuration stays plain. -/
theorem plain_withMember (plain : Json.Plain (.object members)) (plainValue : Json.Plain value) :
    Json.Plain (.object (withMember members part name value)) := by
  have section_ : ((membersOf (entry members part)).map Prod.fst).Nodup ∧
      Json.PlainMembers (membersOf (entry members part)) := by
    unfold entry
    cases held : members.lookup part with
    | none => exact ⟨List.nodup_nil, trivial⟩
    | some own =>
      have plainOwn := Json.plain_lookup members part own plain.2 held
      cases own with
      | object inner => exact plainOwn
      | _ => exact ⟨List.nodup_nil, trivial⟩
  refine ⟨nodup_keys_assign _ _ _ plain.1, Json.plainMembers_assign _ _ _ ?_ plain.2⟩
  exact ⟨nodup_keys_assign _ _ _ section_.1, Json.plainMembers_assign _ _ _ plainValue section_.2⟩

end Sections

end Hadouken.Config
