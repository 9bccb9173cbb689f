import Hadouken.Library.Runs
import Hadouken.MetadataStore

/-!
# Metadata of a torrent whose info hash changes

A torrent added by its address gets its info hash later. The store is keyed by
the hash the handle reports at each call, and the handler of
`torrent.hashUpdated` moves the map of the old hash to the reported one.

The switch happens inside the library, between any two calls of a handler: a
handler leaves its writes in a list, and each of them is a step of its own.
Handlers do not interleave with one another. Of `setProperties` the writes of
metadata are modelled, one property at a time; a property that throws ends its
request without a write.
-/

namespace Hadouken.HashUpdates

open Script MetadataStore Runs

/-- Division and multiplication of a parsed number by a constant. -/
def scale (factor : ℚ) : Number → Number
  | .finite value => .finite (value * factor)
  | other => other

/-- The options with one member assigned, if they have members to assign. -/
def withOption (options : Value) (name : String) (value : Value) : List (String × Value) :=
  match options.assignMember name value with
  | some options => [("options", options)]
  | none => []

/-- `parseInt(val, 10)`, absent where it is not a number. -/
def parsed (conversions : Conversions) (value : Value) : Option Number :=
  (conversions.parseInt value).filter fun number => number ≠ .nan

/-- The metadata `setProperty` writes, given the options it reads. -/
def setProperty (conversions : Conversions) (options : Value) (key : String) (value : Value) :
    List (String × Value) :=
  if key = "label" then
    match value with
    | .string label => [("label", .string label)]
    | _ => []
  else if key = "seed_override" then
    withOption options "seedOverride" (.boolean value.truthy)
  else if key = "seed_ratio" then
    match parsed conversions value with
    | some ratio => withOption options "seedRatio" (.number (scale (1 / 1000) ratio))
    | none => []
  else if key = "seed_time" then
    match parsed conversions value with
    | some time => withOption options "seedTime" (.number (scale 60 time))
    | none => []
  else []

/-- The writes of the handler of `torrent.add`. -/
def addWrites (conversions : Conversions) (defaultOptions : Value)
    (metadata : Option MetadataMap) : List (String × Value) :=
  match completed conversions defaultOptions (metadata.map MetadataMap.document) with
  | some (.object members) =>
      (members.map Prod.fst).map fun key => (key, (members.lookup key).getD .undefined)
  | _ => []

/-- The store and the torrent: whether its hash was switched, which alerts were
handled, the writes a running handler has still to make, and the document
written last under each key. -/
structure State where
  store : Store
  switched : Bool
  addHandled : Bool
  updateHandled : Bool
  writes : List (String × Value)
  last : String → Option Json

/-- What happens to a torrent and its metadata. -/
inductive Event where
  | handleAdd (metadata : Option MetadataMap)
  | switch
  | handleUpdated
  | setProperty (key : String) (value : Value)
  | write

/-- The hash the handle reports. -/
def State.infoHash (old new : String) (state : State) : String :=
  if state.switched then new else old

/-- One step. A handler starts when no other is running; alerts are handled once
each, in posting order; the switch happens once. -/
def step (conversions : Conversions) (defaultOptions : Value) (old new : String) (state : State) :
    Event → Option State
  | .handleAdd metadata =>
      if state.writes = [] ∧ state.addHandled = false then
        some { state with
          addHandled := true
          writes := addWrites conversions defaultOptions metadata }
      else none
  | .switch => if state.switched = false then some { state with switched := true } else none
  | .handleUpdated =>
      if state.writes = [] ∧ state.addHandled = true ∧ state.updateHandled = false then
        some { state with
          updateHandled := true
          store := (setMetadata state.store (state.infoHash old new) migrateKey
            (.string old)).getD state.store }
      else none
  | .setProperty key value =>
      if state.writes = [] then
        some { state with
          writes := HashUpdates.setProperty conversions
            (metadataOf state.store (state.infoHash old new) "options") key value }
      else none
  | .write =>
      match state.writes with
      | [] => none
      | (key, value) :: rest =>
          match setMetadata state.store (state.infoHash old new) key value with
          | some store => some { state with
              store := store
              writes := rest
              last := Function.update state.last key (Json.ofValue value) }
          | none => some { state with writes := [] }

/-- The documents written last are in a map. -/
def Holds (last : String → Option Json) (map : Option MetadataMap) : Prop :=
  ∀ key document, last key = some document → documentOf map key = some document

/-- With both alerts handled and the hash switched, every key ever written has
its last document under the new hash. -/
def Followed (new : String) (state : State) : Prop :=
  state.addHandled = true → state.updateHandled = true → state.switched = true →
    state.writes = [] → Holds state.last (state.store new)

/-- The update is handled after the switch, unless nothing is stored under the
old hash; a write comes before both, or after both, or after the switch while
nothing is stored under the old hash. -/
def InOrder (old : String) (state : State) : Event → Prop
  | .handleUpdated => state.switched = true ∨ state.store old = none
  | .write =>
      (state.switched = false ∧ state.updateHandled = false) ∨
        (state.switched = true ∧ (state.updateHandled = true ∨ state.store old = none))
  | _ => True

section Steps

variable (conversions : Conversions) (defaultOptions : Value) (old new : String)

/-- The add handler writes no key that migrates. -/
theorem addWrites_ordinary (metadata : Option MetadataMap) :
    ∀ entry ∈ addWrites conversions defaultOptions metadata, entry.1 ≠ migrateKey := by
  intro entry member
  unfold addWrites at member
  cases written : completed conversions defaultOptions (metadata.map MetadataMap.document) with
  | none => simp [written] at member
  | some value =>
    obtain ⟨options, rfl⟩ := completed_cases conversions defaultOptions metadata value written
    simp only [written, List.mem_map] at member
    obtain ⟨key, listed, rfl⟩ := member
    rintro rfl
    exact completion_ordinary options metadata (List.mem_map.mpr listed)

/-- An option is written under its own key. -/
theorem withOption_ordinary (options : Value) (name : String) (value : Value) :
    ∀ entry ∈ withOption options name value, entry.1 ≠ migrateKey := by
  intro entry member
  unfold withOption at member
  split at member
  · obtain rfl := List.mem_singleton.mp member
    show "options" ≠ migrateKey
    decide
  · cases member

/-- Nor does a property. -/
theorem setProperty_ordinary (options : Value) (key : String) (value : Value) :
    ∀ entry ∈ setProperty conversions options key value, entry.1 ≠ migrateKey := by
  intro entry member
  unfold setProperty at member
  split at member
  · split at member
    · obtain rfl := List.mem_singleton.mp member
      show "label" ≠ migrateKey
      decide
    · cases member
  · split at member
    · exact withOption_ordinary _ _ _ entry member
    · split at member
      · split at member
        · exact withOption_ordinary _ _ _ entry member
        · cases member
      · split at member
        · split at member
          · exact withOption_ordinary _ _ _ entry member
          · cases member
        · cases member

/-- What is kept: no migration among the writes, nothing under the old hash once
the update is handled, and the last documents under the hash that will count. -/
structure Invariant (state : State) : Prop where
  ordinary : ∀ entry ∈ state.writes, entry.1 ≠ migrateKey
  erased : state.updateHandled = true → state.store old = none
  held : Holds state.last
    (if state.switched then (state.store old).or (state.store new) else state.store old)

/-- A write extends the documents that are held. -/
theorem holds_update (last : String → Option Json) (before after : Option MetadataMap)
    (key : String) (document : Json) (held : Holds last before)
    (read : ∀ tested, documentOf after tested =
      if tested = key then some document else documentOf before tested) :
    Holds (Function.update last key (some document)) after := by
  intro tested expected found
  rw [read]
  by_cases same : tested = key
  · subst same
    rw [Function.update_self] at found
    rw [if_pos rfl, found]
  · rw [Function.update_of_ne same] at found
    rw [if_neg same]
    exact held tested expected found

/-- Where nothing is held, nothing was written. -/
theorem holds_none (last : String → Option Json) (map : Option MetadataMap)
    (held : Holds last none) : Holds last map := by
  intro key document found
  cases held key document found

/-- Migration after the switch keeps what is held; with nothing under the old
hash it does nothing at all. -/
theorem migrate_switched (distinct : new ≠ old) (store : Store) :
    migrate store new old old = none ∧
      (migrate store new old old).or (migrate store new old new) = (store old).or (store new) := by
  cases held : store old with
  | none =>
    rw [migrate_none store new old held, held]
    exact ⟨rfl, rfl⟩
  | some map =>
    rw [migrate_some store new old map held, Function.update_self, Function.update_of_ne distinct, Function.update_self]
    exact ⟨rfl, rfl⟩

/-- The switch leaves what is stored under both hashes. -/
theorem invariant_switch (state : State) (before : state.switched = false)
    (invariant : Invariant old new state) : Invariant old new { state with switched := true } := by
  obtain ⟨ordinary, erased, held⟩ := invariant
  refine ⟨ordinary, erased, ?_⟩
  simp only [before, Bool.false_eq_true, if_false] at held
  simp only [if_true]
  cases stored : state.store old with
  | none =>
    rw [stored] at held
    exact holds_none _ _ held
  | some map =>
    rw [stored] at held
    exact held

/-- The update moves what is stored when it comes after the switch, and finds
nothing to erase before it. -/
theorem invariant_handleUpdated (distinct : new ≠ old) (state : State)
    (invariant : Invariant old new state)
    (inOrder : state.switched = true ∨ state.store old = none) :
    Invariant old new { state with
      updateHandled := true
      store := (setMetadata state.store (state.infoHash old new) migrateKey
        (.string old)).getD state.store } := by
  obtain ⟨ordinary, erased, held⟩ := invariant
  cases switched : state.switched with
  | false =>
    have absent : state.store old = none := by
      rcases inOrder with after | absent
      · rw [switched] at after
        cases after
      · exact absent
    have unchanged := migrate_none state.store old old absent
    simp only [switched, Bool.false_eq_true, if_false] at held
    refine ⟨ordinary, fun _ => ?_, ?_⟩
    · simpa [State.infoHash, switched, setMetadata, unchanged] using absent
    · simpa [State.infoHash, switched, setMetadata, unchanged] using held
  | true =>
    obtain ⟨gone, same⟩ := migrate_switched old new distinct state.store
    simp only [switched, if_true] at held
    refine ⟨ordinary, fun _ => ?_, ?_⟩
    · simpa [State.infoHash, switched, setMetadata] using gone
    · simpa [State.infoHash, switched, setMetadata, same] using held

/-- A write that does not migrate adds its document under the hash that counts. -/
theorem invariant_write (distinct : new ≠ old) (state : State) (key : String) (document : Json)
    (rest : List (String × Value)) (written : Store) (invariant : Invariant old new state)
    (inOrder : InOrder old state .write) (listed : ∀ later ∈ rest, later.1 ≠ migrateKey)
    (elsewhere : ∀ other ≠ state.infoHash old new, written other = state.store other)
    (read : ∀ tested, documentOf (written (state.infoHash old new)) tested =
      if tested = key then some document
      else documentOf (state.store (state.infoHash old new)) tested) :
    Invariant old new { state with
      store := written
      writes := rest
      last := Function.update state.last key (some document) } := by
  obtain ⟨_, erased, held⟩ := invariant
  rcases inOrder with ⟨before, unhandled⟩ | ⟨after, nothing⟩
  · rw [State.infoHash, if_neg (by simp [before])] at read
    simp only [before, Bool.false_eq_true, if_false] at held
    refine ⟨listed, fun handled => ?_, ?_⟩
    · rw [unhandled] at handled
      cases handled
    · simp only [before, Bool.false_eq_true, if_false]
      exact holds_update _ _ _ key document held read
  · have absent : state.store old = none := nothing.elim erased id
    rw [State.infoHash, if_pos after] at read elsewhere
    have still : written old = none := by rw [elsewhere old (Ne.symm distinct), absent]
    simp only [after, if_true, absent, Option.none_or] at held
    refine ⟨listed, fun _ => still, ?_⟩
    simp only [after, if_true, still, Option.none_or]
    exact holds_update _ _ _ key document held read

/-- Steps in order keep the invariant. -/
theorem invariant_step (distinct : new ≠ old) (state : State) (event : Event) (next : State)
    (invariant : Invariant old new state) (inOrder : InOrder old state event)
    (stepped : step conversions defaultOptions old new state event = some next) :
    Invariant old new next := by
  cases event with
  | handleAdd metadata =>
    simp only [step, Option.ite_none_right_eq_some, Option.some.injEq] at stepped
    obtain ⟨_, rfl⟩ := stepped
    exact ⟨addWrites_ordinary conversions defaultOptions metadata, invariant.erased, invariant.held⟩
  | setProperty key value =>
    simp only [step, Option.ite_none_right_eq_some, Option.some.injEq] at stepped
    obtain ⟨_, rfl⟩ := stepped
    exact ⟨setProperty_ordinary conversions _ key value, invariant.erased, invariant.held⟩
  | switch =>
    simp only [step, Option.ite_none_right_eq_some, Option.some.injEq] at stepped
    obtain ⟨before, rfl⟩ := stepped
    exact invariant_switch old new state before invariant
  | handleUpdated =>
    simp only [step, Option.ite_none_right_eq_some, Option.some.injEq] at stepped
    obtain ⟨_, rfl⟩ := stepped
    exact invariant_handleUpdated old new distinct state invariant inOrder
  | write =>
    cases queue : state.writes with
    | nil => simp [step, queue] at stepped
    | cons entry rest =>
      obtain ⟨key, value⟩ := entry
      have listed : ∀ later ∈ rest, later.1 ≠ migrateKey := fun later member =>
        invariant.ordinary later (by rw [queue]; exact List.mem_cons_of_mem _ member)
      have ordinaryKey : key ≠ migrateKey :=
        invariant.ordinary (key, value) (by rw [queue]; exact List.mem_cons_self)
      cases encoded : Json.ofValue value with
      | none =>
        simp only [step, queue, setMetadata, dif_neg ordinaryKey, encoded, Option.map_none] at stepped
        obtain rfl := Option.some.inj stepped
        exact ⟨fun _ member => absurd member List.not_mem_nil, invariant.erased, invariant.held⟩
      | some document =>
        obtain ⟨written, wrote, elsewhere, present, read⟩ := setMetadata_spec state.store
          (state.infoHash old new) key value document ordinaryKey encoded
        simp only [step, queue, wrote, encoded] at stepped
        obtain rfl := Option.some.inj stepped
        exact invariant_write old new distinct state key document rest written invariant inOrder
          listed elsewhere read

/-- The writes of a handler that is not interrupted are those of `setAll`, up to
a write that throws. -/
theorem run_writes (members : Members) (keys : List String) (state : State)
    (writes : state.writes = keys.map fun key => (key, (members.lookup key).getD .undefined)) :
    ∃ events final, (∀ event ∈ events, event = .write) ∧
      run (step conversions defaultOptions old new) state events = some final ∧
      final.writes = [] ∧
      final.store = setAll (state.infoHash old new) (.object members) keys state.store := by
  induction keys generalizing state with
  | nil => exact ⟨[], state, by simp, rfl, by simpa using writes, rfl⟩
  | cons key rest ih =>
    rw [List.map_cons] at writes
    cases wrote : setMetadata state.store (state.infoHash old new) key
        ((members.lookup key).getD .undefined) with
    | none =>
      refine ⟨[.write], { state with writes := [] }, by simp, ?_, rfl, ?_⟩
      · simp [run, step, writes, wrote]
      · simp [setAll, wrote]
    | some store =>
      obtain ⟨events, final, only, ran, empty, same⟩ := ih
        { state with
          store := store
          writes := rest.map fun key => (key, (members.lookup key).getD .undefined)
          last := Function.update state.last key
            (Json.ofValue ((members.lookup key).getD .undefined)) } rfl
      refine ⟨.write :: events, final, by simpa using only, ?_, empty, ?_⟩
      · rw [run_cons]
        exact ⟨_, by simp only [step, writes, wrote], ran⟩
      · have unfolded : setAll (state.infoHash old new) (.object members) (key :: rest) state.store =
            setAll (state.infoHash old new) (.object members) rest store := by
          simp [setAll, wrote]
        rw [same, unfolded]
        rfl

/-- A run of the add handler alone does what `torrentAdd` does. -/
theorem run_handleAdd (metadata : Option MetadataMap) (state : State)
    (ready : state.writes = [] ∧ state.addHandled = false) :
    ∃ events final, (∀ event ∈ events, event = .write) ∧
      run (step conversions defaultOptions old new) state (.handleAdd metadata :: events) =
        some final ∧
      final.writes = [] ∧
      final.store = torrentAdd conversions defaultOptions (state.infoHash old new)
        (metadata.map MetadataMap.document) state.store := by
  have started : step conversions defaultOptions old new state (.handleAdd metadata) =
      some { state with
        addHandled := true
        writes := addWrites conversions defaultOptions metadata } := if_pos ready
  cases written : completed conversions defaultOptions (metadata.map MetadataMap.document) with
  | none =>
    refine ⟨[], { state with addHandled := true, writes := [] }, by simp, ?_, rfl, ?_⟩
    · simp [run, started, addWrites, written]
    · simp [torrentAdd, written]
  | some value =>
    obtain ⟨options, rfl⟩ := completed_cases conversions defaultOptions metadata value written
    obtain ⟨events, final, only, ran, empty, same⟩ := run_writes conversions defaultOptions old new
      (completion options metadata) ((completion options metadata).map Prod.fst)
      { state with
        addHandled := true
        writes := addWrites conversions defaultOptions metadata } (by simp [addWrites, written])
    refine ⟨events, final, only, (run_cons _ _ _ _).mpr ⟨_, started, ran⟩, empty, ?_⟩
    rw [same]
    simp [torrentAdd, written, objectKeys, State.infoHash]

end Steps

/-- A torrent just added: no hash switched, nothing handled and nothing written. -/
def State.added (store : Store) : State where
  store := store
  switched := false
  addHandled := false
  updateHandled := false
  writes := []
  last := fun _ => none

/-- In every run whose updates and writes come in order, each state has the last
documents under the new hash once the alerts are handled and the hash is
switched. -/
theorem followed_of_inOrder (conversions : Conversions) (defaultOptions : Value)
    (old new : String) (distinct : new ≠ old) (store : Store) (events : List Event)
    (final : State)
    (inOrder : Guarded (step conversions defaultOptions old new) (InOrder old)
      (State.added store) events)
    (ran : run (step conversions defaultOptions old new) (State.added store) events =
      some final) : Followed new final := by
  have initial : Invariant old new (State.added store) := by
    constructor
    · exact fun _ member => absurd member List.not_mem_nil
    · intro handled
      cases handled
    · intro key document found
      cases found
  obtain ⟨_, erased, held⟩ := guarded_invariant
    (invariant_step conversions defaultOptions old new distinct) events _ final initial inOrder ran
  intro _ updated switched _
  rw [if_pos switched, erased updated, Option.none_or] at held
  exact held

/-- An update handled too early takes away all that was stored. -/
theorem early_update_erases (conversions : Conversions) (defaultOptions : Value)
    (old new : String) (state next : State) (early : state.switched = false)
    (stepped : step conversions defaultOptions old new state .handleUpdated = some next) :
    next.store old = none ∧ ∀ other, other ≠ old → next.store other = state.store other := by
  simp only [step, Option.ite_none_right_eq_some, Option.some.injEq] at stepped
  obtain ⟨_, rfl⟩ := stepped
  have unfolded : (setMetadata state.store (state.infoHash old new) migrateKey
      (.string old)).getD state.store = migrate state.store old old := by
    simp [setMetadata, State.infoHash, early]
  rw [unfolded]
  cases held : state.store old with
  | none =>
    rw [migrate_none state.store old old held]
    exact ⟨held, fun _ _ => rfl⟩
  | some map =>
    rw [migrate_some state.store old old map held]
    refine ⟨Function.update_self _ _ _, fun other distinct => ?_⟩
    dsimp only
    rw [Function.update_of_ne distinct, Function.update_of_ne distinct]

/-- An update handled after the switch replaces what was written to the new hash
since, whenever the old hash has a map. -/
theorem late_update_replaces (conversions : Conversions) (defaultOptions : Value)
    (old new : String) (distinct : new ≠ old) (state next : State) (late : state.switched = true)
    (map : MetadataMap) (held : state.store old = some map)
    (stepped : step conversions defaultOptions old new state .handleUpdated = some next) :
    next.store new = some map := by
  simp only [step, Option.ite_none_right_eq_some, Option.some.injEq] at stepped
  obtain ⟨_, rfl⟩ := stepped
  have unfolded : (setMetadata state.store (state.infoHash old new) migrateKey
      (.string old)).getD state.store = migrate state.store new old := by
    simp [setMetadata, State.infoHash, late]
  rw [unfolded, migrate_some state.store new old map held]
  dsimp only
  rw [Function.update_of_ne distinct, Function.update_self]

/-- The add is handled, its options are written, and the update is handled just
before the switch. -/
theorem early_update_not_followed : ∃ final,
    run (step plainConversions .undefined "old" "new") (State.added fun _ => none)
      [.handleAdd none, .write, .handleUpdated, .switch] = some final ∧
    ¬ Followed "new" final := by
  refine ⟨_, rfl, ?_⟩
  intro followed
  have found := followed rfl rfl rfl rfl "options" _ rfl
  cases found

/-- The same with the update handled after the switch. -/
theorem late_update_followed : ∃ final,
    run (step plainConversions .undefined "old" "new") (State.added fun _ => none)
      [.handleAdd none, .write, .switch, .handleUpdated] = some final ∧ Followed "new" final := by
  refine ⟨_, rfl, ?_⟩
  apply followed_of_inOrder plainConversions .undefined "old" "new" (by decide) (fun _ => none)
    [.handleAdd none, .write, .switch, .handleUpdated] _ _ rfl
  apply guarded_cons rfl trivial
  apply guarded_cons rfl (.inl ⟨rfl, rfl⟩)
  apply guarded_cons rfl trivial
  apply guarded_cons rfl (.inl rfl)
  trivial

end Hadouken.HashUpdates
