import Hadouken.TorrentProperties

/-!
# Properties of a torrent in any order

Each property has a place of its own: a field of the handle, a key of the
metadata, or an option. Properties at different places commute, and leave every
other place as it is. The order of the members in the document with the options
depends on the order of the properties.

A value without a conversion to a number makes its property throw, and whatever
comes after it is lost. Values that convert to NaN are passed over.
-/

namespace Hadouken.TorrentProperties

open Script MetadataStore HashUpdates Settings Batches

/-- Where a property is kept. -/
inductive Place where
  | autoManaged
  | superSeed
  | limit (limit : Limit)
  | savePath
  | metadata (key : String)
  | option (name : String)
deriving DecidableEq

/-- The property that is kept at a place. -/
def Place.key : Place → Option String
  | .autoManaged => some "auto_managed"
  | .superSeed => some "superseed"
  | .limit .download => some "dlrate"
  | .limit .upload => some "ulrate"
  | .limit .uploads => some "ulslots"
  | .savePath => some "save_path"
  | .metadata key => if key = "label" then some "label" else none
  | .option name =>
      if name = "seedOverride" then some "seed_override"
      else if name = "seedRatio" then some "seed_ratio"
      else if name = "seedTime" then some "seed_time"
      else none

/-- The place of a change. -/
def Change.place : Change → Place
  | .autoManaged _ => .autoManaged
  | .superSeed _ => .superSeed
  | .limit own _ => .limit own
  | .savePath _ => .savePath
  | .label _ => .metadata "label"
  | .option name _ => .option name

section Places

variable (infoHash : String)

/-- What is kept at a place is as it was. The document with the options is no
place; its members are. -/
def SameAt (before after : State) : Place → Prop
  | .autoManaged => after.handle.autoManaged = before.handle.autoManaged
  | .superSeed => after.handle.superSeed = before.handle.superSeed
  | .limit limit => after.handle.limits limit = before.handle.limits limit
  | .savePath => after.handle.savePath = before.handle.savePath
  | .metadata key => key ≠ "options" →
      documentOf (after.store infoHash) key = documentOf (before.store infoHash) key
  | .option name => (metadataOf after.store infoHash "options").member name =
      (metadataOf before.store infoHash "options").member name

/-- The torrents are the same, but for the order of their options; both have
some. -/
structure Same (first second : State) : Prop where
  handle : second.handle = first.handle
  elsewhere : ∀ other ≠ infoHash, second.store other = first.store other
  metadata : ∀ key ≠ "options",
    documentOf (second.store infoHash) key = documentOf (first.store infoHash) key
  options : ∃ members others, Options infoHash first members ∧ Options infoHash second others ∧
    AlikeMembers members others

variable {infoHash}

/-- A state is the same as itself. -/
theorem same_refl {state : State} {members : Members} (held : Options infoHash state members) :
    Same infoHash state state :=
  ⟨rfl, fun _ _ => rfl, fun _ _ => rfl, members, members, held, held, .refl members⟩

/-- A torrent has one object of options. -/
theorem options_unique {state : State} {members others : Members}
    (held : Options infoHash state members) (again : Options infoHash state others) :
    members = others := by
  rw [Options, held] at again
  exact Value.object.inj again

/-- What is the same twice is the same. -/
theorem same_trans (first second third : State) (earlier : Same infoHash first second)
    (later : Same infoHash second third) : Same infoHash first third := by
  obtain ⟨members, others, held, own, alike⟩ := earlier.options
  obtain ⟨between, last, again, final, alikeLater⟩ := later.options
  obtain rfl := options_unique own again
  exact ⟨later.handle.trans earlier.handle,
    fun other different => (later.elsewhere other different).trans (earlier.elsewhere other different),
    fun key other => (later.metadata key other).trans (earlier.metadata key other),
    members, last, held, final, alike.trans alikeLater⟩

end Places

section Commuting

variable {conversions : Conversions} {infoHash : String}

/-- A change does the same to a document that is the same. -/
theorem onMetadata_congr (made : Change) {documents others : String → Option Json} {key : String}
    (same : others key = documents key) : made.onMetadata others key = made.onMetadata documents key := by
  cases made <;> simp [Change.onMetadata, same]

/-- It does the same to options that are alike. -/
theorem onOptions_congr (made : Change) {members others : Members}
    (alike : AlikeMembers members others) :
    AlikeMembers (made.onOptions members) (made.onOptions others) := by
  cases made with
  | option name scalar => exact alike.assign name (.refl _)
  | _ => exact alike

/-- Changes at different places commute. -/
theorem onHandle_comm (first second : Change) (apart : first.place ≠ second.place)
    (handle : Handle) :
    second.onHandle (first.onHandle handle) = first.onHandle (second.onHandle handle) := by
  cases first <;> cases second <;>
    first
    | rfl
    | exact absurd rfl apart
    | skip
  rename_i own _ other _
  have different : own ≠ other := fun same => apart (congrArg Place.limit same)
  simp only [Change.onHandle, Function.update_comm different]

/-- Changes at two places make the same documents in either order. -/
theorem onMetadata_comm (first second : Change) (apart : first.place ≠ second.place)
    (documents : String → Option Json) (key : String) :
    second.onMetadata (first.onMetadata documents) key =
      first.onMetadata (second.onMetadata documents) key := by
  cases first <;> cases second <;> first | rfl | exact absurd rfl apart

/-- They make options that are alike. -/
theorem onOptions_comm (first second : Change) (apart : first.place ≠ second.place)
    (members : Members) :
    AlikeMembers (second.onOptions (first.onOptions members))
      (first.onOptions (second.onOptions members)) := by
  cases first with
  | option name scalar =>
    cases second with
    | option other another =>
      have different : name ≠ other := fun same => apart (congrArg Place.option same)
      exact AlikeMembers.assign_comm members different _ _
    | _ => exact .refl _
  | _ => exact .refl _

/-- The change for a property is at the property's place. -/
theorem change_place (property : String × Value) (made : Change)
    (changes : change conversions property = some (some made)) :
    made.place.key = some property.1 := by
  obtain ⟨key, val⟩ := property
  have number : ∀ (build : Number → Change) (name : String), key = name →
      (∀ number, (build number).place.key = some name) →
      (conversions.parseInt val).map (fun number =>
        if number = .nan then none else some (build number)) = some (some made) →
      made.place.key = some key := by
    intro build name same place built
    obtain ⟨number, _, built⟩ := Option.map_eq_some_iff.mp built
    split at built
    · cases built
    · obtain rfl := Option.some.inj built
      rw [place, same]
  have listed := fun arm => mem_of_lookup key arm arms
  simp only [change] at changes
  cases found : arms.lookup key with
  | none =>
    rw [found] at changes
    cases changes
  | some arm =>
    rw [found] at changes
    have member := listed arm found
    simp only [arms, List.mem_cons, Prod.mk.injEq, List.not_mem_nil, or_false] at member
    rcases member with ⟨rfl, rfl⟩ | ⟨rfl, rfl⟩ | ⟨rfl, rfl⟩ | ⟨rfl, rfl⟩ | ⟨rfl, rfl⟩ | ⟨rfl, rfl⟩ |
      ⟨rfl, rfl⟩ | ⟨rfl, rfl⟩ | ⟨rfl, rfl⟩ | ⟨rfl, rfl⟩ | ⟨rfl, rfl⟩
    · obtain rfl := Option.some.inj (Option.some.inj changes)
      rfl
    · exact number _ _ rfl (fun _ => rfl) changes
    · cases val with
      | string text =>
        obtain rfl := Option.some.inj (Option.some.inj changes)
        rfl
      | _ => cases changes
    · cases val with
      | string text =>
        obtain rfl := Option.some.inj (Option.some.inj changes)
        rfl
      | _ => cases changes
    · obtain rfl := Option.some.inj (Option.some.inj changes)
      rfl
    · exact number _ _ rfl (fun _ => rfl) changes
    · exact number _ _ rfl (fun _ => rfl) changes
    · obtain rfl := Option.some.inj (Option.some.inj changes)
      rfl
    · cases changes
    · exact number _ _ rfl (fun _ => rfl) changes
    · exact number _ _ rfl (fun _ => rfl) changes

/-- A change does the same to torrents that are the same. -/
theorem apply_congr (first second : State) (same : Same infoHash first second) (made : Change) :
    Option.Rel (Same infoHash) (made.apply infoHash first) (made.apply infoHash second) := by
  obtain ⟨members, others, held, own, alike⟩ := same.options
  obtain ⟨next, applied, effect⟩ := apply_spec held made
  obtain ⟨after, appliedAfter, again⟩ := apply_spec own made
  rw [applied, appliedAfter]
  refine .some ⟨?_, fun other different => ?_, fun key other => ?_, _, _, effect.options,
    again.options, onOptions_congr made alike⟩
  · rw [again.handle, effect.handle, same.handle]
  · rw [again.elsewhere other different, effect.elsewhere other different,
      same.elsewhere other different]
  · rw [again.metadata key other, effect.metadata key other]
    exact onMetadata_congr made (same.metadata key other)

/-- Two changes at different places commute on a torrent with options. -/
theorem apply_comm {state : State} {members : Members} (held : Options infoHash state members)
    (first second : Change) (apart : first.place ≠ second.place) :
    Option.Rel (Same infoHash)
      ((first.apply infoHash state).bind fun next => second.apply infoHash next)
      ((second.apply infoHash state).bind fun next => first.apply infoHash next) := by
  obtain ⟨afterFirst, doneFirst, effectFirst⟩ := apply_spec held first
  obtain ⟨afterSecond, doneSecond, effectSecond⟩ := apply_spec held second
  obtain ⟨left, doneLeft, effectLeft⟩ := apply_spec effectFirst.options second
  obtain ⟨right, doneRight, effectRight⟩ := apply_spec effectSecond.options first
  rw [doneFirst, doneSecond, Option.bind_some, Option.bind_some, doneLeft, doneRight]
  refine .some ⟨?_, fun other different => ?_, fun key other => ?_, _, _, effectLeft.options,
    effectRight.options, onOptions_comm first second apart members⟩
  · rw [effectRight.handle, effectSecond.handle, effectLeft.handle, effectFirst.handle]
    exact (onHandle_comm first second apart state.handle).symm
  · rw [effectRight.elsewhere other different, effectSecond.elsewhere other different,
      effectLeft.elsewhere other different, effectFirst.elsewhere other different]
  · have one := onMetadata_congr first (effectSecond.metadata key other)
    have two := onMetadata_congr second (effectFirst.metadata key other)
    rw [effectRight.metadata key other, one, effectLeft.metadata key other, two]
    exact (onMetadata_comm first second apart _ key).symm

/-- Each property makes its change. -/
theorem setProperty_making :
    setProperty conversions infoHash =
      making (change conversions) fun state made => made.apply infoHash state := by
  funext state property
  rw [setProperty_eq, making]
  congr 1
  funext made
  cases made <;> rfl

/-- A property without a change leaves the state. -/
theorem setProperty_idle (property : String × Value)
    (changes : change conversions property = some none) (state : State) :
    setProperty conversions infoHash state property = some state := by
  rw [setProperty_making, making_idle changes]

/-- A property with a change makes it. -/
theorem setProperty_made (property : String × Value) (made : Change)
    (changes : change conversions property = some (some made)) (state : State) :
    setProperty conversions infoHash state property = made.apply infoHash state := by
  rw [setProperty_making, making_some changes]

/-- A property does the same to torrents that are the same. -/
theorem setProperty_congr (first second : State) (same : Same infoHash first second)
    (property : String × Value) :
    Option.Rel (Same infoHash) (setProperty conversions infoHash first property)
      (setProperty conversions infoHash second property) := by
  rw [setProperty_making]
  exact making_congr (fun a b related _ made _ => apply_congr a b related made) first second same
    property

/-- Two properties of different names commute. -/
theorem setProperty_comm (state : State) (fine : Same infoHash state state)
    (first second : String × Value) (apart : first.1 ≠ second.1) :
    Option.Rel (Same infoHash)
      ((setProperty conversions infoHash state first).bind fun next =>
        setProperty conversions infoHash next second)
      ((setProperty conversions infoHash state second).bind fun next =>
        setProperty conversions infoHash next first) := by
  obtain ⟨members, _, held, _, _⟩ := fine.options
  rw [setProperty_making]
  refine making_comm (fun a b related _ made _ => apply_congr a b related made) state fine first
    second fun made other changes otherChanges => apply_comm held made other fun same => ?_
  have key := change_place first made changes
  rw [same, change_place second other otherChanges] at key
  exact apart (Option.some.inj key).symm

end Commuting

section Frames

variable {conversions : Conversions} {infoHash : String} {before after : State}

/-- What two changes leave at a place, both together leave. -/
theorem sameAt_trans {first second third : State} {place : Place}
    (earlier : SameAt infoHash first second place) (later : SameAt infoHash second third place) :
    SameAt infoHash first third place := by
  cases place with
  | metadata key => exact fun other => (later other).trans (earlier other)
  | _ => exact Eq.trans later earlier

/-- A change leaves other places as they are. -/
theorem sameAt_apply {members : Members} (held : Options infoHash before members) (made : Change)
    (effect : Effect infoHash made before members after) (place : Place)
    (other : made.place ≠ place) : SameAt infoHash before after place := by
  cases place with
  | autoManaged =>
    rw [SameAt, effect.handle]
    cases made <;> first | rfl | exact absurd rfl other
  | superSeed =>
    rw [SameAt, effect.handle]
    cases made <;> first | rfl | exact absurd rfl other
  | savePath =>
    rw [SameAt, effect.handle]
    cases made <;> first | rfl | exact absurd rfl other
  | limit limit =>
    rw [SameAt, effect.handle]
    cases made with
    | limit own value =>
      have different : limit ≠ own := fun same => other (congrArg Place.limit same.symm)
      exact Function.update_of_ne different _ _
    | _ => rfl
  | metadata key =>
    intro ordinary
    rw [effect.metadata key ordinary]
    cases made with
    | label text =>
      have different : key ≠ "label" := fun same => other (congrArg Place.metadata same.symm)
      exact if_neg different
    | _ => rfl
  | option name =>
    rw [SameAt, effect.options, held, Value.member_object, Value.member_object]
    cases made with
    | option own scalar =>
      have different : name ≠ own := fun same => other (congrArg Place.option same.symm)
      rw [Change.onOptions, lookup_assign_of_ne own name _ _ different]
    | _ => rfl

/-- What the properties of a call leave as it was, however the call ends: the
metadata of other torrents, and the places of other properties. -/
theorem setProperties_frame (props : Members) {members : Members}
    (held : Options infoHash before members) :
    (∀ other ≠ infoHash,
      (setProperties conversions infoHash props before).1.store other = before.store other) ∧
    (∃ others, Options infoHash (setProperties conversions infoHash props before).1 others) ∧
    ∀ place : Place, (∀ key, place.key = some key → key ∉ props.map Prod.fst) →
      SameAt infoHash before (setProperties conversions infoHash props before).1 place := by
  let Kept (state : State) : Prop :=
    (∀ other ≠ infoHash, state.store other = before.store other) ∧
    (∃ others, Options infoHash state others) ∧
    ∀ place : Place, (∀ key, place.key = some key → key ∉ props.map Prod.fst) →
      SameAt infoHash before state place
  have initial : Kept before := by
    refine ⟨fun _ _ => rfl, ⟨members, held⟩, fun place _ => ?_⟩
    cases place with
    | metadata key => exact fun _ => rfl
    | _ => exact rfl
  show Kept (each (setProperty conversions infoHash) props before).1
  refine each_invariant props before ?_ initial
  rintro state property member next ⟨elsewhere, ⟨own, has⟩, same⟩ stepped
  rcases setProperty_spec conversions has property with
    ⟨_, done⟩ | ⟨_, done⟩ | ⟨made, done, changes, set, effect⟩
  · rw [done] at stepped
    cases stepped
  · rw [done] at stepped
    obtain rfl := Option.some.inj stepped
    exact ⟨elsewhere, ⟨own, has⟩, same⟩
  · rw [set] at stepped
    obtain rfl := Option.some.inj stepped
    refine ⟨fun other different => (effect.elsewhere other different).trans
      (elsewhere other different), ⟨_, effect.options⟩, fun place unnamed => ?_⟩
    refine sameAt_trans (same place unnamed) (sameAt_apply has made effect place ?_)
    rintro rfl
    exact unnamed property.1 (change_place property made changes) (List.mem_map_of_mem member)

end Frames

/-- The keys whose values are numbers. -/
def numericKeys : List String := ["dlrate", "seed_ratio", "seed_time", "ulrate", "ulslots"]

/-- A numeric key with a value that is no number sets nothing. -/
theorem change_rejected (conversions : Conversions) (key : String) (val : Value)
    (numeric : key ∈ numericKeys) (rejected : conversions.parseInt val = some .nan) :
    change conversions (key, val) = some none := by
  simp only [numericKeys, List.mem_cons, List.not_mem_nil, or_false] at numeric
  rcases numeric with rfl | rfl | rfl | rfl | rfl <;>
    simp [change, arms, lookup_cons_ite, rejected]

/-- A call returns for one order of the properties exactly when it returns for
every other, and then leaves the same torrent but for the order of its options.
In any case, the places of other properties are left alone, and numeric keys with
values that are no numbers might as well be missing. -/
theorem setProperties_unordered (conversions : Conversions) (infoHash : String) (state : State)
    (members props others : Members) (held : Options infoHash state members)
    (distinct : (props.map Prod.fst).Nodup) (reordered : props.Perm others) :
    Agree (Same infoHash) (setProperties conversions infoHash props state)
        (setProperties conversions infoHash others state) ∧
      (∀ other ≠ infoHash,
        (setProperties conversions infoHash props state).1.store other = state.store other) ∧
      (∀ place : Place, (∀ key, place.key = some key → key ∉ props.map Prod.fst) →
        SameAt infoHash state (setProperties conversions infoHash props state).1 place) ∧
      ∀ before key val after, props = before ++ (key, val) :: after → key ∈ numericKeys →
        conversions.parseInt val = some .nan →
          setProperties conversions infoHash props state =
            setProperties conversions infoHash (before ++ after) state := by
  obtain ⟨elsewhere, _, frame⟩ := @setProperties_frame conversions infoHash state props members held
  refine ⟨?_, elsewhere, frame, ?_⟩
  · exact each_perm same_trans setProperty_congr (fun first second => first.1 ≠ second.1)
      (fun _ _ => Ne.symm) setProperty_comm reordered (List.pairwise_map.mp distinct) state
      (same_refl held)
  · rintro before key val after rfl numeric rejected
    exact each_skip (key, val) (setProperty_idle (key, val)
      (change_rejected conversions key val numeric rejected)) before after state

/-- Conversions by which an object that hides the functions it inherits has no
primitive value. -/
def strictConversions : Conversions :=
  { plainConversions with
    parseInt
      | .object members =>
          if (members.lookup "toString").isSome && (members.lookup "valueOf").isSome then none
          else some .nan
      | value => plainConversions.parseInt value
    parseInt_integer := fun _ _ => rfl }

/-- A torrent with options of its own. -/
def seeded : State where
  handle := ⟨true, false, fun _ => .clamp 0, "downloads"⟩
  store hash :=
    if hash = "h" then
      some (MetadataMap.empty.put "options" (.object [("seedAction", .string "pause")]) (by decide))
    else none

/-- The options of this torrent. -/
theorem options_seeded : Options "h" seeded [("seedAction", .string "pause")] := rfl

/-- A limit and an option, in either order. -/
theorem limit_and_ratio_unordered :
    Agree (Same "h")
      (setProperties plainConversions "h" [("dlrate", .integer 5), ("seed_ratio", .integer 1500)]
        seeded)
      (setProperties plainConversions "h" [("seed_ratio", .integer 1500), ("dlrate", .integer 5)]
        seeded) :=
  (setProperties_unordered plainConversions "h" seeded _
    [("dlrate", .integer 5), ("seed_ratio", .integer 1500)]
    [("seed_ratio", .integer 1500), ("dlrate", .integer 5)] options_seeded (by decide)
    (.swap _ _ [])).1

/-- A rate that cannot be converted ends the request: the property behind it is
lost, and the one in front of it is set. -/
theorem unreadable_rate_ordered :
    ¬ Same "h"
      (setProperties strictConversions "h"
        [("dlrate", .object [("toString", .integer 1), ("valueOf", .integer 1)]),
          ("superseed", .boolean true)] seeded).1
      (setProperties strictConversions "h"
        [("superseed", .boolean true),
          ("dlrate", .object [("toString", .integer 1), ("valueOf", .integer 1)])] seeded).1 := by
  intro same
  have lost : (setProperties strictConversions "h"
      [("dlrate", .object [("toString", .integer 1), ("valueOf", .integer 1)]),
        ("superseed", .boolean true)] seeded).1.handle.superSeed = false := rfl
  have set : (setProperties strictConversions "h"
      [("superseed", .boolean true),
        ("dlrate", .object [("toString", .integer 1), ("valueOf", .integer 1)])]
        seeded).1.handle.superSeed = true := rfl
  rw [same.handle, lost] at set
  cases set

end Hadouken.TorrentProperties
