import Hadouken.Library.Simulation
import Hadouken.Library.ValueStack
import Hadouken.MetadataStore

/-!
# Calls of `metadata`

One native function reads all data of a torrent, reads or writes one key, and
moves the data of an old info hash. It takes its strings as C strings, up to a
NUL, and puts what it reads into a plain object, in which `__proto__` becomes no
property.

The reference is a map of maps of values. A call that throws leaves it as it is,
and so does a migration from a torrent to itself.

Values are stored as JSON texts. The digits of a number may be read back as a number
next to it, and the reference keeps what was written.
-/

namespace Hadouken.MetadataCalls

open Script ValueStack MetadataStore Simulation

/-- A call through a handle that reports this info hash. -/
inductive Call where
  | readAll (infoHash : String)
  | read (infoHash key : String)
  | write (infoHash key : String) (value : Json)

/-- The torrents a call may change. -/
def Call.touched : Call → List String
  | .write infoHash key value =>
      if cString key = migrateKey then
        match value with
        | .string old => [infoHash, cString old]
        | _ => []
      else [infoHash]
  | _ => []

/-- The object that `metadata()` builds. -/
def ownMembers (map : MetadataMap) : Members :=
  map.values.filter fun entry => entry.1 ≠ "__proto__"

/-- The JSON encoder and decoder: the limit on nesting, and what the digits printed
for a number are read back as. -/
structure Encoder where
  limit : Nat
  reread : ℚ → ℚ

/-- The write of one key: a text is stored, and stands for what it is decoded to. -/
def writeKey (encoder : Encoder) (store : Store) (infoHash key : String) (value : Value) :
    Store × Option Value :=
  if value.depth ≤ encoder.limit then
    match setMetadata store infoHash key (value.mapNumbers encoder.reread) with
    | some written => (written, some .undefined)
    | none => (store, none)
  else (store, none)

/-- `torrent_handle_wrapper::metadata`: the store it leaves, and what it returns
unless it throws. -/
def call (encoder : Encoder) (store : Store) : Call → Store × Option Value
  | .readAll infoHash =>
      match store infoHash with
      | none => (store, some .null)
      | some map => (store, some (.object (ownMembers map)))
  | .read infoHash key => (store, some (metadataOf store infoHash (cString key)))
  | .write infoHash key value =>
      if cString key = migrateKey then
        match value with
        | .string old => (migrate store infoHash (cString old), some .undefined)
        | _ => (store, none)
      else writeKey encoder store infoHash (cString key) value.toValue

/-- A map from info hash to key to value. -/
abbrev Reference := String → Option (String → Option Value)

/-- What a call is answered with. -/
inductive Answer where
  | thrown
  | done
  | entry (value : Value)
  | entries (held : Option (String → Option Value))

/-- The entries of the old hash move to the new one, and replace what is there. -/
def Reference.migrate (reference : Reference) (infoHash old : String) : Reference :=
  if old = infoHash then reference
  else
    match reference old with
    | none => reference
    | some held => Function.update (Function.update reference infoHash (some held)) old none

/-- One key of one torrent. -/
def Reference.put (reference : Reference) (infoHash key : String) (value : Value) : Reference :=
  Function.update reference infoHash
    (some (Function.update ((reference infoHash).getD fun _ => none) key (some value)))

/-- A call of the reference, with the limit on nesting. -/
def Reference.call (limit : Nat) (reference : Reference) : Call → Reference × Answer
  | .readAll infoHash => (reference, .entries (reference infoHash))
  | .read infoHash key =>
      (reference, .entry (((reference infoHash).bind fun held => held key).getD .null))
  | .write infoHash key value =>
      if key = migrateKey then
        match value with
        | .string old => (reference.migrate infoHash old, .done)
        | _ => (reference, .thrown)
      else if value.toValue.depth ≤ limit then
        (reference.put infoHash key value.toValue, .done)
      else (reference, .thrown)

/-- What is returned is the reference's answer. An object is known by its own
members. -/
def Agree : Option Value → Answer → Prop
  | none, .thrown => True
  | some value, .done => value = .undefined
  | some value, .entry held => value = held
  | some value, .entries none => value = .null
  | some value, .entries (some held) =>
      ∃ members, value = .object members ∧ ∀ key, members.lookup key = held key
  | _, _ => False

/-- The values the store holds. -/
def heldValues (store : Store) : Reference := fun infoHash =>
  (store infoHash).map fun map key => valueOf (some map) key

/-- Its C string is the text itself. -/
def NulFree (text : String) : Prop := cString text = text

/-- The characters are looked at. -/
instance (text : String) : Decidable (NulFree text) := by unfold NulFree; infer_instance

/-- The numbers of a value that is not too deep to be written are read back as they
were. -/
def ReadAlike (encoder : Encoder) (value : Json) : Prop :=
  value.toValue.depth ≤ encoder.limit → value.toValue.mapNumbers encoder.reread = value.toValue

/-- Strings have no NUL, numbers that are written are read back, an object has no
member `__proto__` to show, and no torrent that has data migrates to itself. -/
def Plain (encoder : Encoder) (store : Store) : Call → Prop
  | .readAll infoHash => ∀ map, store infoHash = some map → "__proto__" ∉ map.entries.map Prod.fst
  | .read _ key => NulFree key
  | .write infoHash key value =>
      NulFree key ∧ (key = migrateKey → ∀ old, value = .string old →
        NulFree old ∧ (old = infoHash → store infoHash = none)) ∧
      (key ≠ migrateKey → ReadAlike encoder value)

/-- A call that throws changes nothing, and no call changes a torrent that it is
not about. -/
def Framed (encoder : Encoder) (store : Store) (input : Call) : Prop :=
  ((call encoder store input).2 = none → (call encoder store input).1 = store) ∧
    ∀ other ∉ input.touched, (call encoder store input).1 other = store other

section Steps

variable (encoder : Encoder) (store : Store) (infoHash : String)

/-- Without `__proto__` the object shows all data. -/
theorem ownMembers_eq (map : MetadataMap) (plain : "__proto__" ∉ map.entries.map Prod.fst) :
    ownMembers map = map.values := by
  refine List.filter_eq_self.mpr fun entry member => ?_
  rw [decide_eq_true_eq]
  rintro proto
  refine plain ?_
  rw [← map.keys_values, ← proto]
  exact List.mem_map_of_mem member

/-- Moving a map moves what it holds. -/
theorem heldValues_migrate (old : String) (apart : old = infoHash → store infoHash = none) :
    heldValues (migrate store infoHash old) = (heldValues store).migrate infoHash old := by
  cases held : store old with
  | none =>
    have missing : heldValues store old = none := by simp [heldValues, held]
    rw [migrate_none store infoHash old held, Reference.migrate, missing]
    split <;> rfl
  | some map =>
    have distinct : old ≠ infoHash := by
      rintro rfl
      rw [apart rfl] at held
      cases held
    have found : heldValues store old = some (fun key => valueOf (some map) key) := by
      simp [heldValues, held]
    rw [migrate_some store infoHash old map held, Reference.migrate, if_neg distinct, found]
    funext other
    by_cases emptied : other = old
    · subst emptied
      simp [heldValues]
    · by_cases target : other = infoHash
      · subst target
        simp [heldValues, emptied]
      · simp [heldValues, emptied, target]

/-- Writing a key writes what is held under it. -/
theorem heldValues_written (key : String) (value : Json) (ordinary : key ≠ migrateKey) :
    ∃ written, setMetadata store infoHash key value.toValue = some written ∧
      heldValues written = (heldValues store).put infoHash key value.toValue := by
  obtain ⟨document, encoded, decoded⟩ := Json.toValue_ofValue _ (Json.plain_toValue value)
  obtain ⟨written, wrote, elsewhere, held, read⟩ :=
    setMetadata_spec store infoHash key _ document ordinary encoded
  refine ⟨written, wrote, ?_⟩
  obtain ⟨map, own⟩ := Option.isSome_iff_exists.mp held
  have before : ∀ tested, valueOf (store infoHash) tested =
      ((heldValues store infoHash).getD fun _ => none) tested := by
    intro tested
    cases earlier : store infoHash with
    | none => simp [heldValues, earlier, valueOf, documentOf]
    | some map => simp [heldValues, earlier]
  funext other
  by_cases same : other = infoHash
  · subst same
    rw [Reference.put, Function.update_self, heldValues, own, Option.map_some]
    refine congrArg some (funext fun tested => ?_)
    rw [valueOf, ← own, read]
    by_cases written : tested = key
    · subst written
      simp [decoded]
    · rw [if_neg written, Function.update_of_ne written, ← before, valueOf]
  · simp [heldValues, Reference.put, elsewhere other same, same]

/-- What one call preserves: the store and the reference hold the same, and the
answers agree. -/
theorem call_matches (input : Call) (plain : Plain encoder store input) :
    heldValues (call encoder store input).1 = ((heldValues store).call encoder.limit input).1 ∧
      Agree (call encoder store input).2 ((heldValues store).call encoder.limit input).2 := by
  cases input with
  | readAll infoHash =>
    cases held : store infoHash with
    | none => simp [call, Reference.call, heldValues, held, Agree]
    | some map =>
      have shown := ownMembers_eq map (plain map held)
      simp only [call, held, Reference.call, true_and]
      have found : heldValues store infoHash = some (fun key => valueOf (some map) key) := by
        simp [heldValues, held]
      rw [found, shown]
      exact ⟨map.values, rfl, lookup_values_eq map⟩
  | read infoHash key =>
    have whole : cString key = key := plain
    refine ⟨rfl, ?_⟩
    cases held : store infoHash with
    | none => simp [call, Reference.call, heldValues, held, Agree, metadataOf, documentOf]
    | some map =>
      cases found : documentOf (some map) key with
      | none =>
        simp [call, whole, Reference.call, heldValues, held, Agree, metadataOf, found, valueOf]
      | some document =>
        simp [call, whole, Reference.call, heldValues, held, Agree, metadataOf, found, valueOf]
  | write infoHash key value =>
    obtain ⟨whole, migrates, alike⟩ := plain
    have same : cString key = key := whole
    by_cases migrating : key = migrateKey
    · cases value with
      | string old =>
        obtain ⟨wholeOld, apart⟩ := migrates migrating old rfl
        have sameOld : cString old = old := wholeOld
        simp only [call, same, if_pos migrating, Reference.call, sameOld]
        exact ⟨heldValues_migrate store infoHash old apart, rfl⟩
      | _ =>
        simp only [call, same, if_pos migrating, Reference.call]
        exact ⟨trivial, trivial⟩
    · by_cases shallow : value.toValue.depth ≤ encoder.limit
      · obtain ⟨written, wrote, values⟩ := heldValues_written store infoHash key value migrating
        simp only [call, same, if_neg migrating, Reference.call, writeKey, if_pos shallow,
          alike migrating shallow, wrote]
        exact ⟨values, rfl⟩
      · simp only [call, same, if_neg migrating, Reference.call, writeKey, if_neg shallow]
        exact ⟨trivial, trivial⟩

/-- Every call is framed. -/
theorem framed_call (input : Call) : Framed encoder store input := by
  unfold Framed
  cases input with
  | readAll infoHash =>
    cases held : store infoHash <;> simp [call, held]
  | read infoHash key => simp [call]
  | write infoHash key value =>
    by_cases migrating : cString key = migrateKey
    · cases value with
      | string old =>
        simp only [call, if_pos migrating, Call.touched, List.mem_cons, List.not_mem_nil, or_false,
          not_or]
        refine ⟨(nomatch ·), fun other ⟨apart, elsewhere⟩ => ?_⟩
        cases held : store (cString old) with
        | none => rw [migrate_none store infoHash _ held]
        | some map =>
          rw [migrate_some store infoHash _ map held, Function.update_of_ne elsewhere,
            Function.update_of_ne apart]
      | _ => simp [call, migrating]
    · simp only [call, if_neg migrating, writeKey, Call.touched, List.mem_singleton]
      split
      · obtain ⟨document, encoded, _⟩ := Json.toValue_ofValue _
          (Json.plain_toValue (value.mapNumbers encoder.reread))
        rw [Json.toValue_mapNumbers] at encoded
        obtain ⟨written, wrote, elsewhere, _⟩ :=
          setMetadata_spec store infoHash (cString key) _ document migrating encoded
        rw [wrote]
        exact ⟨(nomatch ·), elsewhere⟩
      · exact ⟨fun _ => rfl, fun _ _ => rfl⟩

end Steps

/-- The calls of a run answer as the reference does, and leave what it leaves,
if none of them has a string with a NUL, writes a number that is read back as
another, shows a member `__proto__` or migrates data of a torrent to itself. No
call whatever changes more than it should. -/
theorem calls_match_reference (encoder : Encoder) (store : Store) (calls : List Call)
    (plain : GuardedRun (call encoder) (Plain encoder) store calls) :
    List.Forall₂ Agree (outputs (call encoder) store calls)
        (outputs (Reference.call encoder.limit) (heldValues store) calls) ∧
      heldValues (after (call encoder) store calls) =
        after (Reference.call encoder.limit) (heldValues store) calls ∧
      ∀ state input, Framed encoder state input := by
  obtain ⟨answers, final⟩ := simulates heldValues Agree
    (fun state input allowed => call_matches encoder state input allowed) calls store plain
  exact ⟨answers, final, framed_call encoder⟩

/-- An encoder for runs on fixed inputs, without numbers. -/
def thousandDeep : Encoder := ⟨1000, id⟩

/-- A label is written and read. -/
theorem calls_match_reference_label :
    List.Forall₂ Agree
        (outputs (call thousandDeep) (fun _ => none)
          [.write "1" "label" (.string "linux"), .readAll "1"])
        (outputs (Reference.call 1000) (heldValues fun _ => none)
          [.write "1" "label" (.string "linux"), .readAll "1"]) ∧
      heldValues (after (call thousandDeep) (fun _ => none)
          [.write "1" "label" (.string "linux"), .readAll "1"]) =
        after (Reference.call 1000) (heldValues fun _ => none)
          [.write "1" "label" (.string "linux"), .readAll "1"] ∧
      ∀ state input, Framed thousandDeep state input :=
  calls_match_reference thousandDeep (fun _ => none)
    [.write "1" "label" (.string "linux"), .readAll "1"]
    ⟨⟨by decide, fun migrating => absurd migrating (by decide), fun _ _ => rfl⟩,
      fun map held => by obtain rfl := Option.some.inj held; decide, trivial⟩

/-- A label is lost where its torrent migrates to itself. -/
theorem own_hash_loses_label :
    ¬ List.Forall₂ Agree
      (outputs (call thousandDeep) (fun _ => none) [.write "1" "label" (.string "linux"),
        .write "1" "_migrate" (.string "1"), .read "1" "label"])
      (outputs (Reference.call 1000) (heldValues fun _ => none)
        [.write "1" "label" (.string "linux"), .write "1" "_migrate" (.string "1"),
          .read "1" "label"]) := by
  rintro (_ | ⟨_, _ | ⟨_, _ | ⟨read, _⟩⟩⟩)
  have null : Value.null = .string "linux" := read
  cases null

end Hadouken.MetadataCalls
