import Hadouken.Library.Values

/-!
# JSON documents

A JSON text is represented by the document it spells. Encoding follows the
script encoder: what has no JSON text is left out of objects and becomes `null`
in arrays, an error object has no members to write, and nesting beyond the
encoder's limit is an error. Decoding writes the members in their order, so
that the last of several members with one name stays.
-/

namespace Hadouken.Script

/-- A JSON document. -/
inductive Json where
  | null
  | boolean (value : Bool)
  | number (value : ℚ)
  | string (text : String)
  | array (items : List Json)
  | object (members : List (String × Json))

namespace Json

mutual

/-- The document of a value, if it has one. -/
def ofValue : Value → Option Json
  | .undefined | .function _ => none
  | .null | .number .nan | .number (.infinite _) => some .null
  | .boolean value => some (.boolean value)
  | .number (.finite value) => some (.number value)
  | .string text => some (.string text)
  | .array items _ => some (.array (ofItems items))
  | .object members => some (.object (ofMembers members))
  | .error _ => some (.object [])

/-- The documents of the items of an array, `null` where there is none. -/
def ofItems : List Value → List Json
  | [] => []
  | value :: rest => (ofValue value).getD .null :: ofItems rest

/-- The members of an object that have a document. -/
def ofMembers : List (String × Value) → List (String × Json)
  | [] => []
  | (name, value) :: rest =>
      match ofValue value with
      | some document => (name, document) :: ofMembers rest
      | none => ofMembers rest

end

/-- The encoder with its limit on nesting: an error beyond it, and otherwise
the document, if there is one. -/
def encode (limit : Nat) (value : Value) : Option (Option Json) :=
  if value.depth ≤ limit then some (ofValue value) else none

mutual

/-- The value a document decodes to. -/
def toValue : Json → Value
  | .null => .null
  | .boolean value => .boolean value
  | .number value => .number (.finite value)
  | .string text => .string text
  | .array items => .array (toItems items) []
  | .object members => .object (toMembers members [])

/-- The items of an array. -/
def toItems : List Json → List Value
  | [] => []
  | document :: rest => toValue document :: toItems rest

/-- The members of an object, after those decoded so far. -/
def toMembers : List (String × Json) → Members → Members
  | [], decoded => decoded
  | (name, document) :: rest, decoded => toMembers rest (assign name (toValue document) decoded)

end

mutual

/-- The document with every number replaced: with what the numbers of a text are
read back as, where they are not read back as written. -/
def mapNumbers (reread : ℚ → ℚ) : Json → Json
  | .null => .null
  | .boolean value => .boolean value
  | .number value => .number (reread value)
  | .string text => .string text
  | .array items => .array (mapItems reread items)
  | .object members => .object (mapMembers reread members)

/-- The same for the items of an array. -/
def mapItems (reread : ℚ → ℚ) : List Json → List Json
  | [] => []
  | document :: rest => mapNumbers reread document :: mapItems reread rest

/-- The same for the members of an object. -/
def mapMembers (reread : ℚ → ℚ) : List (String × Json) → List (String × Json)
  | [] => []
  | (name, document) :: rest => (name, mapNumbers reread document) :: mapMembers reread rest

end

/-- Exactly the encodable values have a document. -/
theorem ofValue_isSome (value : Value) : (ofValue value).isSome = value.encodable := by
  cases value with
  | number value => cases value <;> rfl
  | _ => rfl

/-- A member with a document is written, whatever the other members are. -/
theorem ofMembers_cons_isSome (name key : String) (value : Value) (rest : Members) :
    ((ofMembers ((name, value) :: rest)).lookup key).isSome =
      ((key == name && value.encodable) || ((ofMembers rest).lookup key).isSome) := by
  rw [ofMembers, ← ofValue_isSome]
  cases ofValue value with
  | none => simp
  | some document =>
    by_cases same : key = name
    · simp [lookup_cons_ite, same]
    · simp [lookup_cons_ite, same]

mutual

/-- The values a document can decode to: no value without a document, no special
number, and no name twice in one object. -/
def Plain : Value → Prop
  | .undefined | .function _ | .error _ => False
  | .null | .boolean _ | .string _ => True
  | .number value => ∃ rational, value = .finite rational
  | .array items named => named = [] ∧ PlainItems items
  | .object members => (members.map Prod.fst).Nodup ∧ PlainMembers members

/-- All items of an array are plain. -/
def PlainItems : List Value → Prop
  | [] => True
  | value :: rest => Plain value ∧ PlainItems rest

/-- All members of an object are plain. -/
def PlainMembers : List (String × Value) → Prop
  | [] => True
  | (_, value) :: rest => Plain value ∧ PlainMembers rest

end

/-- A plain value that is written keeps the members plain. -/
theorem plainMembers_assign (key : String) (value : Value) (members : Members)
    (plain : Plain value) (others : PlainMembers members) :
    PlainMembers (assign key value members) := by
  induction members with
  | nil => exact ⟨plain, trivial⟩
  | cons member rest ih =>
    obtain ⟨name, old⟩ := member
    by_cases same : key = name
    · simp only [assign, same, if_true]
      exact ⟨plain, others.2⟩
    · simp only [assign, same, if_false]
      exact ⟨others.1, ih others.2⟩

mutual

/-- What a document decodes to is plain. -/
theorem plain_toValue : ∀ document : Json, Plain (toValue document)
  | .null | .boolean _ | .string _ => trivial
  | .number value => ⟨value, rfl⟩
  | .array items => ⟨rfl, plain_toItems items⟩
  | .object members => plain_toMembers members [] List.nodup_nil trivial

/-- The items of an array decode to plain values. -/
theorem plain_toItems : ∀ documents : List Json, PlainItems (toItems documents)
  | [] => trivial
  | document :: rest => ⟨plain_toValue document, plain_toItems rest⟩

/-- The members of an object decode to plain values under distinct names. -/
theorem plain_toMembers : ∀ (documents : List (String × Json)) (decoded : Members),
    (decoded.map Prod.fst).Nodup → PlainMembers decoded →
      ((toMembers documents decoded).map Prod.fst).Nodup ∧
        PlainMembers (toMembers documents decoded)
  | [], _, nodup, plain => ⟨nodup, plain⟩
  | (name, document) :: rest, decoded, nodup, plain =>
    plain_toMembers rest _ (nodup_keys_assign name _ decoded nodup)
      (plainMembers_assign name _ decoded (plain_toValue document) plain)

end

mutual

/-- A plain value is recovered from its document. -/
theorem toValue_ofValue : ∀ value : Value, Plain value →
    ∃ document, ofValue value = some document ∧ toValue document = value
  | .null, _ => ⟨_, rfl, rfl⟩
  | .boolean _, _ => ⟨_, rfl, rfl⟩
  | .string _, _ => ⟨_, rfl, rfl⟩
  | .number _, ⟨_, rfl⟩ => ⟨_, rfl, rfl⟩
  | .array items _, ⟨rfl, plain⟩ => ⟨_, rfl, by rw [toValue, toItems_ofItems items plain]⟩
  | .object members, ⟨nodup, plain⟩ => ⟨_, rfl, by
      rw [toValue, toMembers_ofMembers members [] plain nodup (by simp)]
      rfl⟩

/-- Plain items are recovered from their documents. -/
theorem toItems_ofItems : ∀ items : List Value, PlainItems items → toItems (ofItems items) = items
  | [], _ => rfl
  | value :: rest, ⟨plain, others⟩ => by
    obtain ⟨document, encoded, decoded⟩ := toValue_ofValue value plain
    rw [ofItems, encoded, toItems, toItems_ofItems rest others, Option.getD_some, decoded]

/-- Plain members are recovered, behind members of other names. -/
theorem toMembers_ofMembers : ∀ (members decoded : Members), PlainMembers members →
    (members.map Prod.fst).Nodup →
    (∀ name ∈ members.map Prod.fst, name ∉ decoded.map Prod.fst) →
    toMembers (ofMembers members) decoded = decoded ++ members
  | [], decoded, _, _, _ => by simp [ofMembers, toMembers]
  | (name, value) :: rest, decoded, ⟨plain, others⟩, nodup, fresh => by
    obtain ⟨document, encoded, same⟩ := toValue_ofValue value plain
    obtain ⟨unused, restNodup⟩ := List.nodup_cons.mp nodup
    have new : name ∉ decoded.map Prod.fst := fresh name List.mem_cons_self
    have restFresh : ∀ other ∈ rest.map Prod.fst,
        other ∉ (decoded ++ [(name, value)]).map Prod.fst := by
      intro other member inside
      rw [List.map_append, List.mem_append] at inside
      rcases inside with before | last
      · exact fresh other (List.mem_cons_of_mem _ member) before
      · obtain rfl : other = name := by simpa using last
        exact unused member
    simp only [ofMembers, encoded, toMembers, same]
    rw [assign_of_not_mem name value decoded new,
      toMembers_ofMembers rest _ others restNodup restFresh]
    simp

end

section Rereading

variable (reread : ℚ → ℚ)

/-- Replacing numbers replaces those of a member that is written. -/
theorem mapMembers_assign (key : String) (value : Value) (members : Members) :
    Value.mapMembers reread (assign key value members) =
      assign key (value.mapNumbers reread) (Value.mapMembers reread members) := by
  induction members with
  | nil => rfl
  | cons member rest ih =>
    obtain ⟨name, old⟩ := member
    by_cases same : key = name
    · simp [assign, same, Value.mapMembers]
    · simp [assign, same, Value.mapMembers, ih]

mutual

/-- A document with other numbers decodes to the value with these numbers. -/
theorem toValue_mapNumbers : ∀ document : Json,
    toValue (document.mapNumbers reread) = (toValue document).mapNumbers reread
  | .null | .boolean _ | .number _ | .string _ => rfl
  | .array items => by
    rw [mapNumbers, toValue, toValue, Value.mapNumbers, toItems_mapItems items]
  | .object members => by
    rw [mapNumbers, toValue, toValue, Value.mapNumbers, ← toMembers_mapMembers members []]
    rfl

/-- The items of an array decode so. -/
theorem toItems_mapItems : ∀ documents : List Json,
    toItems (mapItems reread documents) = Value.mapItems reread (toItems documents)
  | [] => rfl
  | document :: rest => by
    rw [mapItems, toItems, toItems, Value.mapItems, toValue_mapNumbers document,
      toItems_mapItems rest]

/-- The members of an object decode so, after those that are decoded already. -/
theorem toMembers_mapMembers : ∀ (documents : List (String × Json)) (decoded : Members),
    toMembers (mapMembers reread documents) (Value.mapMembers reread decoded) =
      Value.mapMembers reread (toMembers documents decoded)
  | [], _ => rfl
  | (name, document) :: rest, decoded => by
    rw [mapMembers, toMembers, toMembers, toValue_mapNumbers document, ← mapMembers_assign,
      toMembers_mapMembers rest]

end

mutual

/-- A value with other numbers has the document with these numbers. -/
theorem ofValue_mapNumbers : ∀ value : Value,
    ofValue (value.mapNumbers reread) = (ofValue value).map (mapNumbers reread)
  | .undefined | .null | .boolean _ | .string _ | .function _ | .error _ => rfl
  | .number .nan | .number (.infinite _) | .number (.finite _) => rfl
  | .array items named => by
    rw [Value.mapNumbers, ofValue, ofValue, Option.map_some, mapNumbers, ofItems_mapItems items]
  | .object members => by
    rw [Value.mapNumbers, ofValue, ofValue, Option.map_some, mapNumbers,
      ofMembers_mapMembers members]

/-- The items of an array have such documents. -/
theorem ofItems_mapItems : ∀ items : List Value,
    ofItems (Value.mapItems reread items) = mapItems reread (ofItems items)
  | [] => rfl
  | value :: rest => by
    rw [Value.mapItems, ofItems, ofItems, mapItems, ofValue_mapNumbers value,
      ofItems_mapItems rest]
    cases ofValue value <;> rfl

/-- The members of an object have such documents, or none. -/
theorem ofMembers_mapMembers : ∀ members : Members,
    ofMembers (Value.mapMembers reread members) = mapMembers reread (ofMembers members)
  | [] => rfl
  | (name, value) :: rest => by
    rw [Value.mapMembers, ofMembers, ofMembers, ofValue_mapNumbers value,
      ofMembers_mapMembers rest]
    cases ofValue value <;> rfl

end

end Rereading

mutual

/-- Numbers that are read back as written leave a document as it is. -/
@[simp] theorem mapNumbers_id : ∀ document : Json, document.mapNumbers id = document
  | .null | .boolean _ | .number _ | .string _ => rfl
  | .array items => by rw [mapNumbers, mapItems_id items]
  | .object members => by rw [mapNumbers, mapMembers_id members]

/-- The items of an array stay. -/
theorem mapItems_id : ∀ items : List Json, mapItems id items = items
  | [] => rfl
  | document :: rest => by rw [mapItems, mapNumbers_id document, mapItems_id rest]

/-- The members of an object stay. -/
theorem mapMembers_id : ∀ members : List (String × Json), mapMembers id members = members
  | [] => rfl
  | (_, document) :: rest => by rw [mapMembers, mapNumbers_id document, mapMembers_id rest]

end

/-- Under every key a plain object holds a plain value. -/
theorem plain_lookup (members : Members) (key : String) (value : Value)
    (plain : PlainMembers members) (found : members.lookup key = some value) : Plain value := by
  induction members with
  | nil => simp at found
  | cons member rest ih =>
    obtain ⟨name, own⟩ := member
    rw [lookup_cons_ite] at found
    split at found
    · obtain rfl := Option.some.inj found
      exact plain.1
    · exact ih plain.2 found

/-- Every item of a plain array is plain. -/
theorem plain_getElem (items : List Value) (index : Nat) (value : Value)
    (plain : PlainItems items) (found : items[index]? = some value) : Plain value := by
  induction items generalizing index with
  | nil => simp at found
  | cons item rest ih =>
    cases index with
    | zero =>
      obtain rfl : item = value := by simpa using found
      exact plain.1
    | succ index => exact ih index plain.2 (by simpa using found)

/-- What is read of a plain value is plain, or not there. -/
theorem plain_member (value read : Value) (key : String) (plain : Plain value)
    (found : value.member key = some read) : read = .undefined ∨ Plain read := by
  cases value with
  | object members =>
    obtain rfl := Option.some.inj found
    cases own : members.lookup key with
    | none => exact .inl rfl
    | some stored => exact .inr (plain_lookup members key stored plain.2 own)
  | array items named =>
    obtain ⟨rfl, plainItems⟩ := plain
    simp only [Value.member] at found
    split at found
    · obtain rfl := Option.some.inj found
      exact .inr ⟨_, rfl⟩
    · split at found
      · rename_i index _
        obtain rfl := Option.some.inj found
        cases own : items[index]? with
        | none => exact .inl rfl
        | some item => exact .inr (plain_getElem items index item plainItems own)
      · obtain rfl := Option.some.inj found
        exact .inl rfl
  | string text =>
    simp only [Value.member] at found
    split at found
    · obtain rfl := Option.some.inj found
      exact .inr ⟨_, rfl⟩
    · split at found
      · rename_i index _
        obtain rfl := Option.some.inj found
        cases own : text.toList[index]? with
        | none => exact .inl rfl
        | some c => exact .inr trivial
      · obtain rfl := Option.some.inj found
        exact .inl rfl
  | undefined => exact absurd plain id
  | function identity => exact absurd plain id
  | error thrown => exact absurd plain id
  | null => simp [Value.member] at found
  | boolean own =>
    obtain rfl := Option.some.inj found
    exact .inl rfl
  | number own =>
    obtain rfl := Option.some.inj found
    exact .inl rfl

end Json

end Hadouken.Script
