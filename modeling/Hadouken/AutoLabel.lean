import Hadouken.MetadataRuns
import Hadouken.SeedGoals

/-!
# AutoLabel

The plugin's handler of `torrent.add` is called after that of core.js, unless
that one throws. A torrent without a label gets that of the first rule that is
complete and matches its name, or one of its trackers.

Both handlers write through `metadata(key, value)`. The data of a request come
first, where one key is no key to write under: it migrates.
-/

namespace Hadouken.AutoLabel

open Script MetadataStore MetadataRuns SeedGoals

/-- What the handlers read of a torrent, apart from its metadata. -/
structure Torrent where
  infoHash : String
  isValid : Bool
  name : String
  trackers : List String

/-- The store a handler leaves, and whether it returned. -/
abbrev Callback := Store → Store × Bool

/-- The emitter's loop over the handlers of an event: an exception ends it. -/
def emitter : List Callback → Store → Store
  | [], store => store
  | callback :: rest, store =>
      let (next, returned) := callback store
      if returned then emitter rest next else next

section Core

variable (conversions : Conversions) (defaultOptions : Value)

/-- All members of the request were written. -/
def setAllReturns (infoHash : String) (object : Value) : List String → Store → Bool
  | [], _ => true
  | key :: rest, store =>
      match (object.member key).bind fun value => setMetadata store infoHash key value with
      | some written => setAllReturns infoHash object rest written
      | none => false

/-- The handler of core.js returns. -/
def torrentAddReturns (infoHash : String) (metadata : Option Json) (store : Store) : Bool :=
  match completed conversions defaultOptions metadata with
  | none => false
  | some metadata =>
      match objectKeys metadata with
      | none => false
      | some keys => setAllReturns infoHash metadata keys store

/-- The handler of core.js, for an add without an error. -/
def coreAdded (torrent : Torrent) (metadata : Option Json) : Callback := fun store =>
  (torrentAdd conversions defaultOptions torrent.infoHash metadata store,
    torrentAddReturns conversions defaultOptions torrent.infoHash metadata store)

end Core

section Plugin

variable (conversions : Conversions) (regExp : Value → Option (String → Bool))

/-- `isMatch`. -/
def isMatch (torrent : Torrent) (field : Value) (test : String → Bool) : Bool :=
  match field with
  | .string "name" => test torrent.name
  | .string "tracker" => torrent.trackers.any test
  | _ => false

/-- Nothing is missing in the rule. -/
def complete (rule : Members) : Bool :=
  (setting (.object rule) "field").truthy && (setting (.object rule) "pattern").truthy &&
    (setting (.object rule) "label").truthy

/-- The loop over the rules. The label is a part of the line that is logged. -/
def applyRules (torrent : Torrent) : List Members → Callback
  | [], store => (store, true)
  | rule :: rest, store =>
      if complete rule then
        match regExp (setting (.object rule) "pattern") with
        | none => (store, false)
        | some test =>
            if isMatch torrent (setting (.object rule) "field") test then
              let label := setting (.object rule) "label"
              match (conversions.concatText label).bind fun _ =>
                setMetadata store torrent.infoHash "label" label with
              | none => (store, false)
              | some written => (written, true)
            else applyRules torrent rest store
      else applyRules torrent rest store

/-- `torrentAdded`. -/
def torrentAdded (rules : List Members) (torrent : Torrent) : Callback := fun store =>
  if !torrent.isValid then (store, true)
  else
    let existingLabel := (metadataOf store torrent.infoHash "label").orElse (.string "")
    if existingLabel.truthy || !isText existingLabel "" then (store, true)
    else applyRules conversions regExp torrent rules store

/-- The first rule that is complete and matches. -/
def firstRule (rules : List Members) (torrent : Torrent) : Option Members :=
  rules.find? fun rule => complete rule &&
    (regExp (setting (.object rule) "pattern")).any
      (isMatch torrent (setting (.object rule) "field"))

/-- The store after the event. -/
def handled (defaultOptions : Value) (rules : List Members) (torrent : Torrent)
    (metadata : Option Json) (store : Store) : Store :=
  emitter [coreAdded conversions defaultOptions torrent metadata,
    torrentAdded conversions regExp rules torrent] store

/-- The label in a request. -/
def requestedLabel (metadata : Option Json) : Option Value :=
  match metadata.map Json.toValue with
  | some (.object members) => members.lookup "label"
  | _ => none

/-- The torrent has the label of the request, or else the one it had, unless
there is none or it is empty: then it has that of the first rule that matches.
All else is as the handler of core.js leaves it. -/
def Labelled (defaultOptions : Value) (rules : List Members) (torrent : Torrent)
    (metadata : Option Json) (store : Store) : Prop :=
  let core := torrentAdd conversions defaultOptions torrent.infoHash metadata store
  let after := handled conversions regExp defaultOptions rules torrent metadata store
  let own := (requestedLabel metadata).or (valueOf (store torrent.infoHash) "label")
  (valueOf (after torrent.infoHash) "label" =
    if (own.getD .undefined).truthy then own
    else ((firstRule regExp rules torrent).map fun rule =>
      setting (.object rule) "label").or own) ∧
  (∀ key ≠ "label", valueOf (after torrent.infoHash) key = valueOf (core torrent.infoHash) key) ∧
  ∀ other ≠ torrent.infoHash, after other = core other

/-- A rule that is incomplete, or has a pattern that compiles and, for its label,
a configured value with a text. -/
structure Usable (rule : Members) : Prop where
  compiles : complete rule = true → (regExp (setting (.object rule) "pattern")).isSome = true
  plain : complete rule = true → Json.Plain (setting (.object rule) "label")
  texts : complete rule = true →
    (conversions.concatText (setting (.object rule) "label")).isSome = true

end Plugin

section Rules

variable (conversions : Conversions) (regExp : Value → Option (String → Bool))
  (rules : List Members) (torrent : Torrent)

/-- The plugin gives the label of the first rule that matches. -/
theorem applyRules_eq (usable : ∀ rule ∈ rules, Usable conversions regExp rule) (store : Store) :
    applyRules conversions regExp torrent rules store =
      (((firstRule regExp rules torrent).bind fun rule =>
        setMetadata store torrent.infoHash "label" (setting (.object rule) "label")).getD store,
        true) := by
  induction rules with
  | nil => rfl
  | cons rule rest ih =>
    have own := usable rule List.mem_cons_self
    have later := ih fun other member => usable other (List.mem_cons_of_mem _ member)
    by_cases whole : complete rule = true
    · obtain ⟨test, compiled⟩ := Option.isSome_iff_exists.mp
        (own.compiles whole)
      by_cases matched : isMatch torrent (setting (.object rule) "field") test = true
      · obtain ⟨text, spelled⟩ := Option.isSome_iff_exists.mp
          (own.texts whole)
        obtain ⟨document, encoded, _⟩ := Json.toValue_ofValue _ (own.plain whole)
        obtain ⟨written, wrote, _⟩ := setMetadata_spec store torrent.infoHash "label" _ document
          (by decide) encoded
        simp [applyRules, firstRule, whole, compiled, matched, spelled, wrote]
      · have skipped : firstRule regExp (rule :: rest) torrent = firstRule regExp rest torrent := by
          simp [firstRule, compiled, matched]
        simp only [applyRules, whole, if_true, compiled, matched, later, skipped]
        rfl
    · have skipped : firstRule regExp (rule :: rest) torrent = firstRule regExp rest torrent := by
        simp [firstRule, whole]
      rw [applyRules, if_neg whole, later, skipped]

/-- The rule it stops at is complete. -/
theorem firstRule_spec (rule : Members) (found : firstRule regExp rules torrent = some rule) :
    rule ∈ rules ∧ complete rule = true := by
  have holds := List.find?_some found
  rw [Bool.and_eq_true] at holds
  exact ⟨List.mem_of_find?_eq_some found, holds.1⟩

/-- The handler of the plugin gives a label where none is read. -/
theorem torrentAdded_eq (usable : ∀ rule ∈ rules, Usable conversions regExp rule)
    (valid : torrent.isValid = true) :
    ∃ label : Option Label, (label.map fun label => label.document.toValue) =
        ((firstRule regExp rules torrent).map fun rule => setting (.object rule) "label") ∧
      ∀ store, torrentAdded conversions regExp rules torrent store =
        (autoLabel torrent.infoHash label store, true) := by
  have guarded : ∀ store, torrentAdded conversions regExp rules torrent store =
      if (metadataOf store torrent.infoHash "label").truthy then (store, true)
      else applyRules conversions regExp torrent rules store := by
    intro store
    by_cases labelled : (metadataOf store torrent.infoHash "label").truthy = true
    · simp [torrentAdded, valid, labelled, Value.orElse]
    · have empty : (metadataOf store torrent.infoHash "label").orElse (.string "") = .string "" :=
        Value.orElse_falsy _ (by simpa using labelled)
      rw [torrentAdded, empty, if_neg labelled, if_neg (by simp [valid])]
      exact if_neg (by decide)
  cases found : firstRule regExp rules torrent with
  | none =>
    refine ⟨none, rfl, fun store => ?_⟩
    rw [guarded, applyRules_eq conversions regExp rules torrent usable, found]
    simp [autoLabel]
  | some rule =>
    obtain ⟨member, whole⟩ := firstRule_spec regExp rules torrent rule found
    obtain ⟨document, encoded, decoded⟩ := Json.toValue_ofValue _ ((usable rule member).plain whole)
    have given : document.toValue.truthy = true := by
      rw [complete, Bool.and_eq_true] at whole
      rw [decoded]
      exact whole.2
    refine ⟨some ⟨document, given⟩, by simp [decoded], fun store => ?_⟩
    rw [guarded, applyRules_eq conversions regExp rules torrent usable, found, autoLabel]
    simp only [Option.bind_some, decoded]
    split <;> rfl

end Rules

section Events

variable (conversions : Conversions) (defaultOptions : Value) (options : Members)
  (defaulted : defaultedOptions defaultOptions = some options)
  (loggable : logged conversions options = some ()) (plain : Json.Plain (.object options))

/-- Members that can be written are all written. -/
theorem setAllReturns_of_writable (infoHash : String) (members : Members) (keys : List String)
    (store : Store) (writable : ∀ key ∈ keys, key ≠ migrateKey ∧
      ∃ document, Json.ofValue ((members.lookup key).getD .undefined) = some document) :
    setAllReturns infoHash (.object members) keys store = true := by
  induction keys generalizing store with
  | nil => rfl
  | cons key rest ih =>
    obtain ⟨ordinary, document, encoded⟩ := writable key List.mem_cons_self
    obtain ⟨written, wrote, _⟩ := setMetadata_spec store infoHash key _ document ordinary encoded
    have later := ih written fun other member => writable other (List.mem_cons_of_mem _ member)
    simp [setAllReturns, wrote, later]

include defaulted loggable plain

/-- The handler of core.js returns on data without the key that migrates. -/
theorem torrentAddReturns_of_map (infoHash : String) (source : Option MetadataMap)
    (store : Store) : torrentAddReturns conversions defaultOptions infoHash
      (source.map MetadataMap.document) store = true := by
  simp only [torrentAddReturns, objectKeys,
    completed_document conversions defaultOptions options defaulted,
    if_pos (Completes.of_logged source loggable)]
  refine setAllReturns_of_writable infoHash _ _ store fun key member => ?_
  obtain ⟨value, document, found, encoded, _⟩ :=
    completion_encodable options plain source key member
  exact ⟨fun same => completion_ordinary options source (same ▸ member), document,
    by rw [found, Option.getD_some, encoded]⟩

omit defaulted loggable plain in
/-- The default options are no label. -/
theorem lookup_completion_label (source : Option MetadataMap) :
    (completion options source).lookup "label" =
      requestedLabel (source.map MetadataMap.document) := by
  have own : requestedLabel (source.map MetadataMap.document) =
      ((source.map MetadataMap.values).getD []).lookup "label" := by
    cases source with
    | none => rfl
    | some map => simp [requestedLabel, map.toValue_document]
  rw [own, completion]
  split
  · rfl
  · exact lookup_assign_of_ne "options" "label" _ _ (by decide)

/-- It leaves the label of the request, or else the one that was there. -/
theorem label_torrentAdd (infoHash : String) (source : Option MetadataMap) (store : Store) :
    valueOf (torrentAdd conversions defaultOptions infoHash
        (source.map MetadataMap.document) store infoHash) "label" =
      (requestedLabel (source.map MetadataMap.document)).or
        (valueOf (store infoHash) "label") := by
  obtain ⟨_, _, read⟩ := torrentAdd_spec conversions defaultOptions options defaulted plain source
    (.of_logged source loggable) infoHash store
  rw [valueOf, read, ← lookup_completion_label options source]
  split
  · rename_i inside
    obtain ⟨value, document, found, encoded, decoded⟩ :=
      completion_encodable options plain source "label" inside
    simp [found, encoded, decoded]
  · rename_i outside
    rw [← lookup_isSome_iff, Option.not_isSome_iff_eq_none] at outside
    rw [outside, Option.none_or, valueOf]

end Events

/-- Where the data of a request have no key that migrates and the handlers can
log what they do, the label of the request or the stored one stands, and the
first rule that matches gives one to a torrent without. -/
theorem labelled_of_usable (conversions : Conversions) (regExp : Value → Option (String → Bool))
    (defaultOptions : Value) (configured : defaultOptions = .undefined ∨ Json.Plain defaultOptions)
    (loggable : logged conversions (defaultsOf defaultOptions) = some ())
    (rules : List Members) (usable : ∀ rule ∈ rules, Usable conversions regExp rule)
    (torrent : Torrent) (valid : torrent.isValid = true) (request : Option MetadataMap)
    (store : Store) : Labelled conversions regExp defaultOptions rules torrent
      (request.map MetadataMap.document) store := by
  obtain ⟨defaulted, plain⟩ := defaultsOf_spec defaultOptions configured
  obtain ⟨label, carried, added⟩ := torrentAdded_eq conversions regExp rules torrent usable valid
  have after : handled conversions regExp defaultOptions rules torrent
      (request.map MetadataMap.document) store = autoLabel torrent.infoHash label
        (torrentAdd conversions defaultOptions torrent.infoHash
          (request.map MetadataMap.document) store) := by
    simp [handled, emitter, coreAdded, added,
      torrentAddReturns_of_map conversions defaultOptions _ defaulted loggable plain]
  have own := label_torrentAdd conversions defaultOptions _ defaulted loggable plain
    torrent.infoHash request store
  obtain ⟨elsewhere, _, others⟩ := autoLabel_frame torrent.infoHash label
    (torrentAdd conversions defaultOptions torrent.infoHash
      (request.map MetadataMap.document) store)
  dsimp only [Labelled]
  rw [after, ← own, ← carried]
  refine ⟨?_, fun key distinct => ?_, elsewhere⟩
  · cases label with
    | none =>
      rw [valueOf, others "label" fun _ => rfl, ← valueOf]
      simp
    | some label =>
      have undefinedOrNull : ∀ held : Option Value,
          (held.getD .undefined).truthy = (held.getD .null).truthy := by
        intro held
        cases held <;> rfl
      rw [valueOf, documentOf_autoLabel, undefinedOrNull, valueOf]
      split
      · rfl
      · obtain ⟨document, encoded, decoded⟩ :=
          Json.toValue_ofValue _ (Json.plain_toValue label.document)
        simp [encoded, decoded]
  · rw [valueOf, others key fun same => absurd same distinct, ← valueOf]

/-- Two rules, of which the first has no field. -/
def debianRules : List Members :=
  [[("pattern", .string "iso"), ("label", .string "images")],
    [("field", .string "name"), ("pattern", .string "debian"), ("label", .string "linux")]]

/-- Patterns that are found where they stand, for runs on fixed inputs. -/
def literally (pattern : Value) : Option (String → Bool) :=
  match pattern with
  | .string text => some fun tested => tested.toList.tails.any text.toList.isPrefixOf
  | _ => none

/-- A torrent without labels. -/
def debianTorrent : Torrent := ⟨"1", true, "debian-9.iso", []⟩

/-- The documented rules are usable. -/
theorem usable_debianRules : ∀ rule ∈ debianRules, Usable plainConversions literally rule :=
  List.forall_mem_cons.mpr ⟨⟨fun _ => rfl, fun _ => trivial, fun _ => rfl⟩,
    List.forall_mem_singleton.mpr ⟨fun _ => rfl, fun _ => trivial, fun _ => rfl⟩⟩

/-- The documented rules, with this torrent. -/
theorem labelled_of_usable_debian : Labelled plainConversions literally .undefined debianRules
    debianTorrent none fun _ => none :=
  labelled_of_usable plainConversions literally .undefined (.inl rfl) rfl debianRules
    usable_debianRules debianTorrent rfl none fun _ => none

/-- What a torrent that is gone had as its label. -/
def formerStore : Store := fun infoHash =>
  if infoHash = "0" then some ⟨[("label", .string "old")], by decide, by decide⟩ else none

/-- An object that hides what it would be converted with. -/
def textless : Value := .object [("toString", .integer 1), ("valueOf", .integer 1)]

/-- Conversions that throw for such an object, for runs on fixed inputs. -/
def throwingConversions : Conversions :=
  { plainConversions with
    concatText := fun value =>
      match value with
      | .object [("toString", _), ("valueOf", _)] => none
      | _ => plainConversions.concatText value
    concatText_string := fun _ => rfl }

/-- The requested label is lost where the request also migrates, and where the
line about the default options cannot be logged. A rule's label is not given where
it cannot be logged. -/
theorem migrating_and_textless_lose_label :
    ¬ Labelled plainConversions literally .undefined [] debianTorrent
        (some (.object [("label", .string "new"), ("_migrate", .string "0")])) formerStore ∧
      ¬ Labelled throwingConversions literally (.object [("seedRatio", textless)]) []
        debianTorrent (some (.object [("label", .string "new")])) (fun _ => none) ∧
      ¬ Labelled throwingConversions literally .undefined
        [[("field", .string "name"), ("pattern", .string "debian"), ("label", textless)]]
        debianTorrent none fun _ => none := by
  refine ⟨fun labelled => ?_, fun labelled => ?_, fun labelled => ?_⟩
  · have own : some (Value.string "old") = some (.string "new") := labelled.1
    simp at own
  · have own : none = some (Value.string "new") := labelled.1
    cases own
  · have own : none = some textless := labelled.1
    cases own

end Hadouken.AutoLabel
