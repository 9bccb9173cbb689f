import Hadouken.Library.Json
import Mathlib.Logic.Function.Basic

/-!
# Metadata of torrents

`torrent_handle_wrapper::metadata` keeps a map of JSON texts for each info
hash, under the hash the handle reports at the moment of the call. The texts
are represented by the documents they are read as: a number that is written
stands for the one its digits give. A map carries the facts its only writer
keeps: no key twice, and never the key that migrates.
-/

namespace Hadouken.MetadataStore

open Script

/-- The key that is an order and not metadata. -/
def migrateKey : String := "_migrate"

/-- The metadata of a torrent, with distinct keys. -/
structure MetadataMap where
  entries : List (String × Json)
  nodup : (entries.map Prod.fst).Nodup
  ordinary : migrateKey ∉ entries.map Prod.fst

namespace MetadataMap

/-- No metadata. -/
def empty : MetadataMap := ⟨[], List.nodup_nil, List.not_mem_nil⟩

/-- `metadata_[info_hash][key] = val`. -/
def put (map : MetadataMap) (key : String) (document : Json) (distinct : key ≠ migrateKey) :
    MetadataMap where
  entries := assign key document map.entries
  nodup := nodup_keys_assign key document map.entries map.nodup
  ordinary := by
    rw [keys_assign]
    split
    · exact map.ordinary
    · simp [map.ordinary, Ne.symm distinct]

/-- The object all the texts decode to. -/
def values (map : MetadataMap) : Members := map.entries.map fun entry => (entry.1, entry.2.toValue)

/-- The values have the keys of their documents. -/
@[simp] theorem keys_values (map : MetadataMap) :
    map.values.map Prod.fst = map.entries.map Prod.fst := by
  simp [values]

/-- A value is that of its document. -/
theorem lookup_values (map : MetadataMap) (key : String) :
    map.values.lookup key = (map.entries.lookup key).map Json.toValue :=
  lookup_map Json.toValue key map.entries

/-- The document `JSON.stringify` makes of the object. -/
def document (map : MetadataMap) : Json := .object (Json.ofMembers map.values)

/-- The members of the object are plain values under distinct names. -/
theorem values_plain (map : MetadataMap) : Json.Plain (.object map.values) := by
  have members : ∀ entries : List (String × Json),
      Json.PlainMembers (entries.map fun entry => (entry.1, entry.2.toValue)) := by
    intro entries
    induction entries with
    | nil => trivial
    | cons entry rest ih => exact ⟨Json.plain_toValue entry.2, ih⟩
  exact ⟨by rw [keys_values]; exact map.nodup, members map.entries⟩

/-- The object of a map survives being written as JSON and read again. -/
theorem toValue_document (map : MetadataMap) : map.document.toValue = .object map.values := by
  obtain ⟨document, encoded, decoded⟩ := Json.toValue_ofValue _ map.values_plain
  obtain rfl : map.document = document := Option.some.inj encoded
  exact decoded

end MetadataMap

section Rereading

variable (reread : ℚ → ℚ)

/-- The map with its numbers as they are read back from its text. -/
def MetadataMap.readBack (map : MetadataMap) : MetadataMap where
  entries := map.entries.map fun entry => (entry.1, entry.2.mapNumbers reread)
  nodup := by simpa [Function.comp_def] using map.nodup
  ordinary := by simpa [Function.comp_def] using map.ordinary

/-- Its values are those of the map, with these numbers. -/
theorem MetadataMap.values_readBack (map : MetadataMap) :
    (map.readBack reread).values = Value.mapMembers reread map.values := by
  have listed : ∀ entries : List (String × Json),
      (entries.map fun entry => (entry.1, entry.2.mapNumbers reread)).map
          (fun entry => (entry.1, entry.2.toValue)) =
        Value.mapMembers reread (entries.map fun entry => (entry.1, entry.2.toValue)) := by
    intro entries
    induction entries with
    | nil => rfl
    | cons entry rest ih =>
      rw [List.map_cons, List.map_cons, List.map_cons, Value.mapMembers,
        Json.toValue_mapNumbers, ih]
  exact listed map.entries

/-- Its document is the document of the map, with these numbers. -/
theorem MetadataMap.document_readBack (map : MetadataMap) :
    (map.readBack reread).document = map.document.mapNumbers reread := by
  rw [document, document, values_readBack, Json.ofMembers_mapMembers, Json.mapNumbers]

end Rereading

/-- The static map `metadata_`, by info hash. -/
abbrev Store := String → Option MetadataMap

/-- The document stored under a key, if the hash has a map that holds the key. -/
def documentOf (map : Option MetadataMap) (key : String) : Option Json :=
  map.bind fun map => map.entries.lookup key

/-- The value stored under a key. -/
def valueOf (map : Option MetadataMap) (key : String) : Option Value :=
  (documentOf map key).map Json.toValue

/-- Under each key the map that is read back holds the same, with its numbers as
they are read. -/
theorem valueOf_readBack (reread : ℚ → ℚ) (map : Option MetadataMap) (key : String) :
    valueOf (map.map (MetadataMap.readBack reread)) key =
      (valueOf map key).map (Value.mapNumbers reread) := by
  cases map with
  | none => rfl
  | some map =>
    have found : (map.readBack reread).entries.lookup key =
        (map.entries.lookup key).map (Json.mapNumbers reread) :=
      lookup_map (Json.mapNumbers reread) key map.entries
    simp only [valueOf, documentOf, Option.map_some, Option.bind_some, found, Option.map_map]
    exact congrArg (fun decoded => (map.entries.lookup key).map decoded)
      (funext fun document => Json.toValue_mapNumbers reread document)

/-- The values of a map are what is read under its keys. -/
theorem lookup_values_eq (map : MetadataMap) (key : String) :
    map.values.lookup key = valueOf (some map) key :=
  map.lookup_values key

/-- `metadata()`: all data of the torrent. -/
def metadata (store : Store) (infoHash : String) : Value :=
  match store infoHash with
  | none => .null
  | some map => .object map.values

/-- `metadata(key)`: the data of one key. -/
def metadataOf (store : Store) (infoHash key : String) : Value :=
  match documentOf (store infoHash) key with
  | none => .null
  | some document => document.toValue

/-- The migration: the new hash takes the whole map of the old one, which is
erased. The erasure comes last, also where both hashes are the same. -/
def migrate (store : Store) (infoHash old : String) : Store :=
  match store old with
  | some map => Function.update (Function.update store infoHash (some map)) old none
  | none => store

/-- From a hash without metadata nothing is moved. -/
theorem migrate_none (store : Store) (infoHash old : String) (absent : store old = none) :
    migrate store infoHash old = store := by
  simp [migrate, absent]

/-- Metadata are moved and their old place is empty. -/
theorem migrate_some (store : Store) (infoHash old : String) (map : MetadataMap)
    (held : store old = some map) : migrate store infoHash old =
      Function.update (Function.update store infoHash (some map)) old none := by
  simp [migrate, held]

/-- `metadata(key, value)`. It has no result where it throws: on a value without
a JSON text, and on a migration from what is no text. -/
def setMetadata (store : Store) (infoHash key : String) (value : Value) : Option Store :=
  if migrating : key = migrateKey then
    match value with
    | .string old => some (migrate store infoHash old)
    | _ => none
  else
    (Json.ofValue value).map fun document =>
      Function.update store infoHash
        (some (((store infoHash).getD .empty).put key document migrating))

/-- A write is read back under its key, and leaves the other keys and the other
hashes as they are. -/
theorem setMetadata_spec (store : Store) (infoHash key : String) (value : Value)
    (document : Json) (ordinary : key ≠ migrateKey) (encoded : Json.ofValue value = some document) :
    ∃ written, setMetadata store infoHash key value = some written ∧
      (∀ other ≠ infoHash, written other = store other) ∧
      (written infoHash).isSome = true ∧
      ∀ tested, documentOf (written infoHash) tested =
        if tested = key then some document else documentOf (store infoHash) tested := by
  refine ⟨_, by unfold setMetadata; rw [dif_neg ordinary, encoded, Option.map_some], ?_, ?_, ?_⟩
  · intro other distinct
    exact Function.update_of_ne distinct _ _
  · rw [Function.update_self]
    rfl
  · intro tested
    rw [Function.update_self]
    show (assign key document _).lookup tested = _
    rw [lookup_assign]
    cases held : store infoHash with
    | none => rfl
    | some map => rfl

/-- `Object.keys`, which throws on what is no object. -/
def objectKeys : Value → Option (List String)
  | .object members => some (members.map Prod.fst)
  | .array items named => some ((List.range items.length).map toString ++ named.map Prod.fst)
  | .error _ | .function _ => some []
  | _ => none

/-- The options given to a torrent without its own, from the configured default
options. -/
def defaultedOptions (defaultOptions : Value) : Option Members := do
  let defaults := defaultOptions.orElse (.object [])
  return [("seedRatio", (← defaults.member "seedRatio").orElse (.integer 2)),
    ("seedTime", (← defaults.member "seedTime").orElse (.integer 0)),
    ("seedAction", (← defaults.member "seedAction").orElse (.string "pause"))]

/-- The operands of the debug line about assigned options convert to text. -/
def logged (conversions : Conversions) (options : Members) : Option Unit := do
  for option in options do
    let _ ← conversions.concatText option.2

/-- The metadata an added torrent gets: that of its parameters, which is the
document the engine stored with them, and default options where it has none. -/
def completed (conversions : Conversions) (defaultOptions : Value) (metadata : Option Json) :
    Option Value := do
  let metadata := ((metadata.map Json.toValue).getD .null).orElse (.object [])
  let options ← metadata.member "options"
  if options.truthy then some metadata
  else do
    let options ← defaultedOptions defaultOptions
    let metadata ← metadata.assignMember "options" (.object options)
    logged conversions options
    pure metadata

/-- Write the listed members of an object, in order. A write that throws is the
last. -/
def setAll (infoHash : String) (object : Value) : List String → Store → Store
  | [], store => store
  | key :: rest, store =>
      match (object.member key).bind fun value => setMetadata store infoHash key value with
      | some written => setAll infoHash object rest written
      | none => store

/-- The handler of `torrent.add`, for an add without an error: the store it
leaves, also where it throws. -/
def torrentAdd (conversions : Conversions) (defaultOptions : Value) (infoHash : String)
    (metadata : Option Json) (store : Store) : Store :=
  match completed conversions defaultOptions metadata with
  | none => store
  | some metadata =>
      match objectKeys metadata with
      | none => store
      | some keys => setAll infoHash metadata keys store

/-- The key of the mark that a recheck leaves. -/
def pauseKey : String := "_pauseAfterRecheck"

/-- The handler of `torrent.checked`. -/
def torrentChecked (infoHash : String) (store : Store) : Store :=
  if (metadataOf store infoHash pauseKey).truthy then
    (setMetadata store infoHash pauseKey (.boolean false)).getD store
  else store

/-- A finished check changes the internal key alone. -/
theorem torrentChecked_frame (infoHash : String) (store : Store) :
    (∀ other ≠ infoHash, torrentChecked infoHash store other = store other) ∧
      (store infoHash = none → torrentChecked infoHash store infoHash = none) ∧
      ((store infoHash).isSome = true → (torrentChecked infoHash store infoHash).isSome = true) ∧
      ∀ key, key ≠ pauseKey →
        documentOf (torrentChecked infoHash store infoHash) key =
          documentOf (store infoHash) key := by
  obtain ⟨written, wrote, elsewhere, held, read⟩ := setMetadata_spec store infoHash pauseKey
    (.boolean false) (.boolean false) (by decide) rfl
  unfold torrentChecked
  by_cases paused : (metadataOf store infoHash pauseKey).truthy = true
  · rw [if_pos paused, wrote, Option.getD_some]
    refine ⟨elsewhere, ?_, fun _ => held, ?_⟩
    · intro none
      simp [metadataOf, documentOf, none, Value.truthy] at paused
    · intro key distinct
      rw [read, if_neg distinct]
  · rw [if_neg paused]
    exact ⟨fun _ _ => rfl, id, id, fun _ _ => rfl⟩

/-- The default options are plain where the configured ones are. -/
theorem defaultedOptions_plain (defaultOptions : Value)
    (plain : defaultOptions = .undefined ∨ Json.Plain defaultOptions) :
    ∃ ratio time action, Json.Plain ratio ∧ Json.Plain time ∧ Json.Plain action ∧
      defaultedOptions defaultOptions =
        some [("seedRatio", ratio), ("seedTime", time), ("seedAction", action)] := by
  have plainDefaults : Json.Plain (defaultOptions.orElse (.object [])) := by
    unfold Value.orElse
    split
    · rename_i truthy
      rcases plain with rfl | plain
      · cases truthy
      · exact plain
    · exact ⟨List.nodup_nil, trivial⟩
  have option : ∀ key fallback, Json.Plain fallback → ∃ stored,
      (defaultOptions.orElse (.object [])).member key = some stored ∧
        Json.Plain (stored.orElse fallback) := by
    intro key fallback plainFallback
    have present : (defaultOptions.orElse (.object [])).truthy = true := by
      unfold Value.orElse
      split
      · assumption
      · rfl
    obtain ⟨stored, read⟩ := Value.member_of_truthy _ key present
    refine ⟨stored, read, ?_⟩
    unfold Value.orElse
    split
    · rename_i truthy
      rcases Json.plain_member _ stored key plainDefaults read with rfl | plain
      · cases truthy
      · exact plain
    · exact plainFallback
  obtain ⟨ratio, readRatio, plainRatio⟩ := option "seedRatio" (.integer 2) ⟨_, rfl⟩
  obtain ⟨time, readTime, plainTime⟩ := option "seedTime" (.integer 0) ⟨_, rfl⟩
  obtain ⟨action, readAction, plainAction⟩ := option "seedAction" (.string "pause") trivial
  refine ⟨_, _, _, plainRatio, plainTime, plainAction, ?_⟩
  simp [defaultedOptions, readRatio, readTime, readAction]

/-- Writing the members of an object reads back as written, and touches one hash
alone. A key met twice is written with the same value. -/
theorem setAll_spec (infoHash : String) (members : Members) (keys : List String) (store : Store)
    (writable : ∀ key ∈ keys, key ≠ migrateKey ∧
      ∃ document, Json.ofValue ((members.lookup key).getD .undefined) = some document) :
    (∀ other ≠ infoHash, setAll infoHash (.object members) keys store other = store other) ∧
      (keys ≠ [] → (setAll infoHash (.object members) keys store infoHash).isSome = true) ∧
      ∀ tested, documentOf (setAll infoHash (.object members) keys store infoHash) tested =
        if tested ∈ keys then Json.ofValue ((members.lookup tested).getD .undefined)
        else documentOf (store infoHash) tested := by
  induction keys generalizing store with
  | nil => simp [setAll]
  | cons key rest ih =>
    obtain ⟨ordinary, document, encoded⟩ := writable key List.mem_cons_self
    obtain ⟨first, wrote, firstElsewhere, firstHeld, firstRead⟩ :=
      setMetadata_spec store infoHash key _ document ordinary encoded
    obtain ⟨restElsewhere, restHeld, restRead⟩ :=
      ih first fun other member => writable other (List.mem_cons_of_mem _ member)
    have unfolded : setAll infoHash (.object members) (key :: rest) store =
        setAll infoHash (.object members) rest first := by
      simp [setAll, wrote]
    rw [unfolded]
    refine ⟨?_, ?_, ?_⟩
    · intro other distinct
      rw [restElsewhere other distinct, firstElsewhere other distinct]
    · intro _
      by_cases last : rest = []
      · subst last
        exact firstHeld
      · exact restHeld last
    · intro tested
      rw [restRead, firstRead]
      by_cases later : tested ∈ rest
      · simp [later]
      · by_cases same : tested = key
        · subst same
          simp [later, encoded]
        · simp [later, same]

/-- The options of a torrent without its own. -/
def defaultsOf (defaultOptions : Value) : Members := (defaultedOptions defaultOptions).getD []

/-- The stored options count as there. -/
def HasOptions (map : Option MetadataMap) : Prop :=
  ((valueOf map "options").getD .undefined).truthy = true

/-- The metadata are looked at. -/
instance (map : Option MetadataMap) : Decidable (HasOptions map) := by
  unfold HasOptions; infer_instance

/-- The members stored for a torrent that is added with these data. -/
def completion (options : Members) (source : Option MetadataMap) : Members :=
  let own := (source.map MetadataMap.values).getD []
  if HasOptions source then own else assign "options" (.object options) own

/-- What the handler writes is the completion with the default options, if it
needs none or they can be logged. -/
theorem completed_eq (conversions : Conversions) (defaultOptions : Value)
    (source : Option MetadataMap) :
    completed conversions defaultOptions (source.map MetadataMap.document) =
      if HasOptions source then some (.object (completion [] source))
      else (defaultedOptions defaultOptions).bind fun options =>
        (logged conversions options).map fun _ => .object (completion options source) := by
  have own : (((source.map MetadataMap.document).map Json.toValue).getD .null).orElse (.object []) =
      .object ((source.map MetadataMap.values).getD []) := by
    cases source with
    | none => rfl
    | some map =>
      rw [Option.map_some, Option.map_some, Option.getD_some, map.toValue_document]
      rfl
  have stored : ((source.map MetadataMap.values).getD []).lookup "options" =
      valueOf source "options" := by
    cases source with
    | none => rfl
    | some map => exact lookup_values_eq map "options"
  unfold completed
  rw [own]
  by_cases has : HasOptions source
  · rw [if_pos has, completion, if_pos has]
    unfold HasOptions at has
    simp [stored, has]
  · have lacking : ¬ ((valueOf source "options").getD .undefined).truthy = true := has
    simp only [Value.member_object, stored, Option.bind_eq_bind, Option.bind_some, completion,
      if_neg has, if_neg lacking]
    cases defaultedOptions defaultOptions with
    | none => rfl
    | some options =>
      simp only [Option.bind_some, Value.assignMember_object]
      cases logged conversions options <;> rfl

/-- The handler gets past the default options: it needs none, or it can log them. -/
def Completes (conversions : Conversions) (options : Members) (source : Option MetadataMap) : Prop :=
  HasOptions source ∨ logged conversions options = some ()

/-- The options are checked one after the other. -/
instance decidableCompletes (conversions : Conversions) (options : Members)
    (source : Option MetadataMap) : Decidable (Completes conversions options source) := by
  unfold Completes; infer_instance

/-- Options that can be logged let every add pass. -/
theorem Completes.of_logged {conversions : Conversions} {options : Members}
    (source : Option MetadataMap) (loggable : logged conversions options = some ()) :
    Completes conversions options source := .inr loggable

/-- There the handler writes the completion, and else it throws. -/
theorem completed_document (conversions : Conversions) (defaultOptions : Value) (options : Members)
    (defaulted : defaultedOptions defaultOptions = some options) (source : Option MetadataMap) :
    completed conversions defaultOptions (source.map MetadataMap.document) =
      if Completes conversions options source then some (.object (completion options source))
      else none := by
  rw [completed_eq, defaulted, Option.bind_some]
  by_cases has : HasOptions source
  · have completes : Completes conversions options source := .inl has
    rw [if_pos has, if_pos completes, completion, completion, if_pos has, if_pos has]
  · rw [if_neg has]
    cases logs : logged conversions options with
    | none =>
      have throws : ¬ Completes conversions options source := by simp [Completes, has, logs]
      rw [if_neg throws, Option.map_none]
    | some done =>
      have completes : Completes conversions options source := .inr logs
      rw [if_pos completes, Option.map_some]

/-- In any case it writes some completion, or nothing. -/
theorem completed_cases (conversions : Conversions) (defaultOptions : Value)
    (source : Option MetadataMap) (value : Value)
    (written : completed conversions defaultOptions (source.map MetadataMap.document) =
      some value) : ∃ options, value = .object (completion options source) := by
  rw [completed_eq] at written
  split at written
  · exact ⟨[], (Option.some.inj written).symm⟩
  · obtain ⟨options, _, logs⟩ := Option.bind_eq_some_iff.mp written
    obtain ⟨_, _, same⟩ := Option.map_eq_some_iff.mp logs
    exact ⟨options, same.symm⟩

/-- A completion has no key that migrates. -/
theorem completion_ordinary (options : Members) (source : Option MetadataMap) :
    migrateKey ∉ (completion options source).map Prod.fst := by
  have own : migrateKey ∉ ((source.map MetadataMap.values).getD []).map Prod.fst := by
    cases source with
    | none => exact List.not_mem_nil
    | some map => simpa using map.ordinary
  have distinct : migrateKey ≠ "options" := by decide
  unfold completion
  dsimp only
  split
  · exact own
  · rw [keys_assign]
    split
    · exact own
    · simp [own, distinct]

/-- A completion with plain options has plain values, options among them. -/
theorem completion_plain (options : Members) (plain : Json.Plain (.object options))
    (source : Option MetadataMap) :
    Json.PlainMembers (completion options source) ∧
      "options" ∈ (completion options source).map Prod.fst := by
  have own : Json.PlainMembers ((source.map MetadataMap.values).getD []) := by
    cases source with
    | none => trivial
    | some map => exact map.values_plain.2
  unfold completion
  by_cases has : HasOptions source
  · rw [if_pos has]
    refine ⟨own, ?_⟩
    cases source with
    | none => cases has
    | some map =>
      rw [← lookup_isSome_iff, Option.map_some, Option.getD_some, lookup_values_eq]
      unfold HasOptions at has
      cases found : valueOf (some map) "options" with
      | none => simp [found, Value.truthy] at has
      | some stored => rfl
  · rw [if_neg has, keys_assign]
    refine ⟨Json.plainMembers_assign _ _ _ plain own, ?_⟩
    split
    · assumption
    · simp

/-- What a completion with plain options holds under one of its keys has a
document. -/
theorem completion_encodable (options : Members) (plain : Json.Plain (.object options))
    (source : Option MetadataMap) (key : String)
    (inside : key ∈ (completion options source).map Prod.fst) :
    ∃ value document, (completion options source).lookup key = some value ∧
      Json.ofValue value = some document ∧ document.toValue = value := by
  obtain ⟨value, found⟩ := Option.isSome_iff_exists.mp ((lookup_isSome_iff _ _).mpr inside)
  obtain ⟨document, encoded, decoded⟩ := Json.toValue_ofValue value
    (Json.plain_lookup _ key value (completion_plain options plain source).1 found)
  exact ⟨value, document, found, encoded, decoded⟩

/-- Configured default options are found, and plain. -/
theorem defaultsOf_spec (defaultOptions : Value)
    (configured : defaultOptions = .undefined ∨ Json.Plain defaultOptions) :
    defaultedOptions defaultOptions = some (defaultsOf defaultOptions) ∧
      Json.Plain (.object (defaultsOf defaultOptions)) := by
  obtain ⟨ratio, time, action, plainRatio, plainTime, plainAction, defaulted⟩ :=
    defaultedOptions_plain defaultOptions configured
  have same : defaultsOf defaultOptions =
      [("seedRatio", ratio), ("seedTime", time), ("seedAction", action)] := by
    rw [defaultsOf, defaulted, Option.getD_some]
  rw [same]
  exact ⟨defaulted, by simp, plainRatio, plainTime, plainAction, trivial⟩

/-- Where it throws, nothing is written. -/
theorem torrentAdd_throws (conversions : Conversions) (defaultOptions : Value) (options : Members)
    (defaulted : defaultedOptions defaultOptions = some options) (source : Option MetadataMap)
    (throws : ¬ Completes conversions options source) (infoHash : String) (store : Store) :
    torrentAdd conversions defaultOptions infoHash (source.map MetadataMap.document) store =
      store := by
  rw [torrentAdd, completed_document conversions defaultOptions options defaulted, if_neg throws]

/-- The handler of the add alert writes the completion over what is stored, and
touches no other torrent. -/
theorem torrentAdd_spec (conversions : Conversions) (defaultOptions : Value) (options : Members)
    (defaulted : defaultedOptions defaultOptions = some options)
    (plain : Json.Plain (.object options)) (source : Option MetadataMap)
    (returns : Completes conversions options source) (infoHash : String) (store : Store) :
    (∀ other ≠ infoHash, torrentAdd conversions defaultOptions infoHash
      (source.map MetadataMap.document) store other = store other) ∧
    (torrentAdd conversions defaultOptions infoHash
      (source.map MetadataMap.document) store infoHash).isSome = true ∧
    ∀ key, documentOf (torrentAdd conversions defaultOptions infoHash
        (source.map MetadataMap.document) store infoHash) key =
      if key ∈ (completion options source).map Prod.fst then
        ((completion options source).lookup key).bind Json.ofValue
      else documentOf (store infoHash) key := by
  have ordinary := completion_ordinary options source
  obtain ⟨elsewhere, held, read⟩ := setAll_spec infoHash (completion options source)
    ((completion options source).map Prod.fst) store (by
      intro key member
      obtain ⟨value, document, found, encoded, _⟩ :=
        completion_encodable options plain source key member
      exact ⟨fun same => ordinary (same ▸ member), document, by rw [found, Option.getD_some, encoded]⟩)
  have unfolded : torrentAdd conversions defaultOptions infoHash
      (source.map MetadataMap.document) store =
      setAll infoHash (.object (completion options source))
        ((completion options source).map Prod.fst) store := by
    simp only [torrentAdd, completed_document conversions defaultOptions options defaulted,
      if_pos returns, objectKeys]
  rw [unfolded]
  refine ⟨elsewhere, held (List.ne_nil_of_mem (completion_plain options plain source).2), ?_⟩
  intro key
  rw [read]
  by_cases inside : key ∈ (completion options source).map Prod.fst
  · obtain ⟨value, document, found, _⟩ := completion_encodable options plain source key inside
    rw [if_pos inside, if_pos inside, found, Option.getD_some, Option.bind_some]
  · rw [if_neg inside, if_neg inside]

end Hadouken.MetadataStore
