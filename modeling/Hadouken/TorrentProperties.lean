import Hadouken.Library.Batches
import Hadouken.Library.MemberOrder
import Hadouken.HashUpdates
import Hadouken.Settings

/-!
# Properties of a torrent

`webui.setProperties` takes the properties of an object one after the other. Some
are kept by the library, three are options in one document of the metadata store,
which each of them reads, changes and writes back. A property that throws ends
the request; those before it have been set.

The handle keeps what it is given. The hash it reports stays the same during a
request.
-/

namespace Hadouken.TorrentProperties

open Script MetadataStore HashUpdates Settings Batches

/-- The limits of a torrent. -/
inductive Limit where
  | download
  | upload
  | uploads
deriving DecidableEq

/-- What the library keeps of a torrent's properties. -/
structure Handle where
  autoManaged : Bool
  superSeed : Bool
  limits : Limit → CInt
  savePath : String

/-- A torrent and the store with its metadata. -/
structure State where
  handle : Handle
  store : Store

/-- The cases of the switch. -/
inductive Arm where
  | autoManaged
  | limit (limit : Limit)
  | label
  | savePath
  | seedOverride
  | seedRatio
  | seedTime
  | superSeed
  | trackers
deriving DecidableEq

/-- The switch over the keys. -/
def arms : List (String × Arm) :=
  [("auto_managed", .autoManaged),
    ("dlrate", .limit .download),
    ("label", .label),
    ("save_path", .savePath),
    ("seed_override", .seedOverride),
    ("seed_ratio", .seedRatio),
    ("seed_time", .seedTime),
    ("superseed", .superSeed),
    ("trackers", .trackers),
    ("ulrate", .limit .upload),
    ("ulslots", .limit .uploads)]

section SetProperty

variable (conversions : Conversions) (infoHash : String)

/-- Read the options, assign one of them and write them back. -/
def setOption (state : State) (name : String) (value : Value) : Option State := do
  let opts ← (metadataOf state.store infoHash "options").assignMember name value
  let store ← setMetadata state.store infoHash "options" opts
  return { state with store := store }

/-- `setProperty(torrent, key, val)`. -/
def setProperty (state : State) (property : String × Value) : Option State :=
  let val := property.2
  match arms.lookup property.1 with
  | some .autoManaged =>
      some { state with handle := { state.handle with autoManaged := val.truthy } }
  | some (.limit limit) => do
      let number ← conversions.parseInt val
      if number = .nan then return state
      return { state with handle := { state.handle with
        limits := Function.update state.handle.limits limit (toInt number) } }
  | some .label =>
      match val with
      | .string label => do
          let store ← setMetadata state.store infoHash "label" (.string label)
          return { state with store := store }
      | _ => some state
  | some .savePath =>
      match val with
      | .string path => some { state with handle := { state.handle with savePath := path } }
      | _ => some state
  | some .seedOverride => setOption infoHash state "seedOverride" (.boolean val.truthy)
  | some .seedRatio => do
      let number ← conversions.parseInt val
      if number = .nan then return state
      setOption infoHash state "seedRatio" (.number (scale (1 / 1000) number))
  | some .seedTime => do
      let number ← conversions.parseInt val
      if number = .nan then return state
      setOption infoHash state "seedTime" (.number (scale 60 number))
  | some .superSeed =>
      some { state with handle := { state.handle with superSeed := val.truthy } }
  | some .trackers | none => some state

/-- `setProperties(torrent, props)`: the state it leaves, and whether it returns. -/
def setProperties (props : Members) (state : State) : State × Bool :=
  each (setProperty conversions infoHash) props state

end SetProperty

/-- The values that are written as options. -/
inductive Scalar where
  | boolean (flag : Bool)
  | number (number : Number)

/-- The value of a script. -/
def Scalar.value : Scalar → Value
  | .boolean flag => .boolean flag
  | .number own => .number own

/-- The value as the store gives it back: what is no JSON number becomes null. -/
def Scalar.stored : Scalar → Value
  | .boolean flag => .boolean flag
  | .number (.finite value) => .number (.finite value)
  | .number _ => .null

/-- What the store gives back is plain. -/
theorem Scalar.plain_stored (scalar : Scalar) : Json.Plain scalar.stored := by
  cases scalar with
  | boolean flag => trivial
  | number number =>
    cases number with
    | finite value => exact ⟨value, rfl⟩
    | _ => trivial

/-- It has the document of what was written. -/
theorem Scalar.ofValue_stored (scalar : Scalar) :
    Json.ofValue scalar.stored = Json.ofValue scalar.value := by
  cases scalar with
  | boolean flag => rfl
  | number number => cases number <;> rfl

/-- What a property changes. -/
inductive Change where
  | autoManaged (flag : Bool)
  | superSeed (flag : Bool)
  | limit (limit : Limit) (value : CInt)
  | savePath (path : String)
  | label (text : String)
  | option (name : String) (scalar : Scalar)

/-- The change for a property, if there is any. Only `parseInt` can throw. -/
def change (conversions : Conversions) (property : String × Value) : Option (Option Change) :=
  let parsed (made : Number → Change) : Option (Option Change) :=
    (conversions.parseInt property.2).map fun number =>
      if number = .nan then none else some (made number)
  match arms.lookup property.1 with
  | some .autoManaged => some (some (.autoManaged property.2.truthy))
  | some (.limit limit) => parsed fun number => .limit limit (toInt number)
  | some .label =>
      match property.2 with
      | .string label => some (some (.label label))
      | _ => some none
  | some .savePath =>
      match property.2 with
      | .string path => some (some (.savePath path))
      | _ => some none
  | some .seedOverride => some (some (.option "seedOverride" (.boolean property.2.truthy)))
  | some .seedRatio => parsed fun number => .option "seedRatio" (.number (scale (1 / 1000) number))
  | some .seedTime => parsed fun number => .option "seedTime" (.number (scale 60 number))
  | some .superSeed => some (some (.superSeed property.2.truthy))
  | some .trackers | none => some none

namespace Change

/-- The handle after a change. -/
def onHandle (handle : Handle) : Change → Handle
  | .autoManaged flag => { handle with autoManaged := flag }
  | .superSeed flag => { handle with superSeed := flag }
  | .limit own value => { handle with limits := Function.update handle.limits own value }
  | .savePath path => { handle with savePath := path }
  | .label _ | .option _ _ => handle

/-- The documents of the torrent other than its options. -/
def onMetadata (documents : String → Option Json) : Change → String → Option Json
  | .label text, key => if key = "label" then some (.string text) else documents key
  | _, key => documents key

/-- The options after a change. -/
def onOptions (members : Members) : Change → Members
  | .option name scalar => assign name scalar.stored members
  | _ => members

/-- Make a change. -/
def apply (infoHash : String) (state : State) : Change → Option State
  | .label text =>
      (setMetadata state.store infoHash "label" (.string text)).map fun store =>
        { state with store := store }
  | .option name scalar => setOption infoHash state name scalar.value
  | change => some { state with handle := change.onHandle state.handle }

end Change

section Changes

variable (conversions : Conversions) (infoHash : String)

/-- Every property is its change. -/
theorem setProperty_eq (state : State) (property : String × Value) :
    setProperty conversions infoHash state property =
      (change conversions property).bind fun made =>
        match made with
        | none => some state
        | some made => made.apply infoHash state := by
  obtain ⟨key, val⟩ := property
  simp only [setProperty, change]
  have number : ∀ (made : Number → Change) (then_ : Number → Option State),
      (∀ number, then_ number = (made number).apply infoHash state) →
      ((conversions.parseInt val).bind fun number =>
        if number = .nan then some state else then_ number) =
      ((conversions.parseInt val).map fun number =>
        if number = .nan then none else some (made number)).bind fun made =>
          match made with
          | none => some state
          | some made => made.apply infoHash state := by
    intro made then_ same
    cases conversions.parseInt val with
    | none => rfl
    | some own =>
      by_cases nan : own = .nan
      · simp [nan]
      · simp [nan, same]
  cases arms.lookup key with
  | none => rfl
  | some arm =>
    cases arm with
    | limit limit => exact number (fun number => .limit limit (toInt number)) _ fun _ => rfl
    | seedRatio =>
      exact number (fun number => .option "seedRatio" (.number (scale (1 / 1000) number))) _
        fun _ => rfl
    | seedTime =>
      exact number (fun number => .option "seedTime" (.number (scale 60 number))) _ fun _ => rfl
    | label => cases val <;> rfl
    | savePath => cases val <;> rfl
    | _ => rfl

/-- The torrent's options are an object with these members. -/
def Options (state : State) (members : Members) : Prop :=
  metadataOf state.store infoHash "options" = .object members

/-- What a change does to a torrent with options. -/
structure Effect (made : Change) (state : State) (members : Members) (next : State) : Prop where
  handle : next.handle = made.onHandle state.handle
  elsewhere : ∀ other ≠ infoHash, next.store other = state.store other
  metadata : ∀ key ≠ "options", documentOf (next.store infoHash) key =
    made.onMetadata (documentOf (state.store infoHash)) key
  options : Options infoHash next (made.onOptions members)

variable {infoHash} {state : State} {members : Members}

/-- Options come from a document, so that they are plain. -/
theorem plain_options (held : Options infoHash state members) :
    Json.Plain (.object members) := by
  unfold Options metadataOf at held
  split at held
  · cases held
  · rename_i document _
    rw [← held]
    exact Json.plain_toValue document

/-- The document of an object is made up from those of its members. -/
theorem ofMembers_assign (name : String) (first second : Value) (members : Members)
    (same : Json.ofValue first = Json.ofValue second) :
    Json.ofMembers (assign name first members) = Json.ofMembers (assign name second members) := by
  induction members with
  | nil => simp [assign, Json.ofMembers, same]
  | cons member rest ih =>
    obtain ⟨own, value⟩ := member
    by_cases here : name = own
    · simp [assign, here, Json.ofMembers, same]
    · simp [assign, here, Json.ofMembers, ih]

/-- A written option is read back as stored, beside the others. -/
theorem setOption_spec (held : Options infoHash state members) (name : String) (scalar : Scalar) :
    ∃ next, setOption infoHash state name scalar.value = some next ∧
      Effect infoHash (.option name scalar) state members next := by
  have plain := plain_options held
  have plainAfter : Json.Plain (.object (assign name scalar.stored members)) :=
    ⟨nodup_keys_assign _ _ _ plain.1, Json.plainMembers_assign _ _ _ scalar.plain_stored plain.2⟩
  obtain ⟨document, encoded, decoded⟩ := Json.toValue_ofValue _ plainAfter
  have written : Json.ofValue (.object (assign name scalar.value members)) = some document := by
    rw [← encoded]
    simp only [Json.ofValue, ofMembers_assign name _ _ members scalar.ofValue_stored]
  obtain ⟨store, wrote, elsewhere, _, read⟩ := setMetadata_spec state.store infoHash "options" _
    document (by decide) written
  refine ⟨{ state with store := store }, ?_, rfl, elsewhere, fun key other => ?_, ?_⟩
  · rw [Options] at held
    simp [setOption, held, wrote]
  · rw [read, if_neg other]
    rfl
  · rw [Options, metadataOf, read, if_pos rfl]
    exact decoded

/-- A written label leaves the options alone. -/
theorem label_spec (held : Options infoHash state members) (text : String) :
    ∃ next, (Change.label text).apply infoHash state = some next ∧
      Effect infoHash (.label text) state members next := by
  obtain ⟨store, wrote, elsewhere, _, read⟩ := setMetadata_spec state.store infoHash "label"
    (.string text) (.string text) (by decide) rfl
  refine ⟨{ state with store := store }, by simp [Change.apply, wrote], rfl, elsewhere,
    fun key _ => read key, ?_⟩
  rw [Options, metadataOf, read, if_neg (by decide)]
  exact held

/-- Every change can be made on a torrent with options. -/
theorem apply_spec (held : Options infoHash state members) (made : Change) :
    ∃ next, made.apply infoHash state = some next ∧ Effect infoHash made state members next := by
  cases made with
  | label text => exact label_spec held text
  | option name scalar => exact setOption_spec held name scalar
  | _ => exact ⟨_, rfl, rfl, fun _ _ => rfl, fun _ _ => rfl, held⟩

/-- A property of a torrent with options sets nothing or makes its change; only
its conversion can throw. -/
theorem setProperty_spec (held : Options infoHash state members) (property : String × Value) :
    (change conversions property = none ∧ setProperty conversions infoHash state property = none) ∨
    (change conversions property = some none ∧
      setProperty conversions infoHash state property = some state) ∨
    ∃ made next, change conversions property = some (some made) ∧
      setProperty conversions infoHash state property = some next ∧
      Effect infoHash made state members next := by
  rw [setProperty_eq]
  cases changes : change conversions property with
  | none => exact .inl ⟨rfl, rfl⟩
  | some made =>
    cases made with
    | none => exact .inr (.inl ⟨rfl, rfl⟩)
    | some made =>
      obtain ⟨next, applied, effect⟩ := apply_spec held made
      exact .inr (.inr ⟨made, next, rfl, applied, effect⟩)

end Changes

end Hadouken.TorrentProperties
