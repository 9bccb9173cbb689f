import Hadouken.MetadataRuns

/-!
# Adds of a torrent that is there already

Options and label set through `setProperties` should stay until they are set
again or the torrent is removed. A run is traced with the documents set last.

The handlers of an add cannot tell a new torrent from a repeated one: the
options an add carries, or the default ones, replace those that were set, and so
does a label it carries; where a label was set to the empty text, a rule of
AutoLabel gives another. Where the handler cannot log the default options it throws
before it writes.
-/

namespace Hadouken.RepeatedAdds

open Script MetadataStore TorrentFiles SavedTorrents Runs MetadataRuns

/-- The documents last set for each torrent. -/
structure Traced where
  state : MetadataRuns.State
  set : InfoHash → String → Option Json

/-- The documents after the writes of a request, up to the first that throws. -/
def recordAll : List (String × Value) → (String → Option Json) → String → Option Json
  | [], last => last
  | (key, value) :: rest, last =>
      match Json.ofValue value with
      | some document => recordAll rest (Function.update last key (some document))
      | none => last

/-- The documents set last, after a step. -/
def setAfter (conversions : Conversions) (traced : Traced) :
    MetadataRuns.Event → InfoHash → String → Option Json
  | .setProperty infoHash key value =>
      Function.update traced.set infoHash
        (recordAll (HashUpdates.setProperty conversions
          (metadataOf traced.state.store infoHash.text "options") key value) (traced.set infoHash))
  | .remove infoHash => Function.update traced.set infoHash fun _ => none
  | _ => traced.set

/-- One step, with what it sets. -/
def step (conversions : Conversions) (traced : Traced) (event : MetadataRuns.Event) :
    Option Traced :=
  (MetadataRuns.step conversions traced.state event).map fun next =>
    ⟨next, setAfter conversions traced event⟩

/-- The process just started: nothing was set. -/
def Traced.started : Traced := ⟨.started, fun _ _ => none⟩

/-- What was set last is in the map. -/
def Kept (traced : Traced) : Prop :=
  ∀ infoHash key document, traced.set infoHash key = some document →
    documentOf (traced.state.store infoHash.text) key = some document

/-- The document an add carries under a key, default options included. -/
def carried (reads : Reads) (metadata : Option MetadataMap) (key : String) : Option Json :=
  ((completion (defaultsOf reads.configured) metadata).lookup key).bind Json.ofValue

/-- The add carries this document, if any. A label may be empty where AutoLabel
gives this one in its place; the plugin gives none in place of this document. -/
def Brings (conversions : Conversions) (reads : Reads) (metadata : Option MetadataMap)
    (key : String) (document : Json) : Prop :=
  (key ∈ (completion (defaultsOf reads.configured) metadata).map Prod.fst →
    carried reads metadata key = some document ∨
      key = "label" ∧ (((carried reads metadata key).map Json.toValue).getD .null).truthy = false ∧
        ∃ label, reads.given conversions = some label ∧
          Json.ofValue label.document.toValue = some document) ∧
  (key = "label" → (reads.given conversions).isSome = true → document.toValue.truthy = true)

/-- The adds that are handled bring what was set already, or their handlers throw. -/
def Harmless (conversions : Conversions) (traced : Traced) : MetadataRuns.Event → Prop
  | .handle reads =>
      match traced.state.queued with
      | .torrentAdd infoHash number metadata :: _ =>
          Admissible traced.state.session infoHash number reads →
            Returns conversions reads metadata →
            ∀ key document, traced.set reads.infoHash key = some document →
              Brings conversions reads metadata key document
      | _ => True
  | _ => True

/-- Only options and labels are set. -/
def Settable (traced : Traced) : Prop :=
  ∀ infoHash key document, traced.set infoHash key = some document →
    key = "options" ∨ key = "label"

/-- The keys `setProperties` writes. -/
theorem setProperty_keys (conversions : Conversions) (options : Value) (key : String)
    (value : Value) :
    ∀ entry ∈ HashUpdates.setProperty conversions options key value,
      entry.1 = "options" ∨ entry.1 = "label" := by
  have option : ∀ name value, ∀ entry ∈ HashUpdates.withOption options name value,
      entry.1 = "options" ∨ entry.1 = "label" := by
    intro name value entry member
    unfold HashUpdates.withOption at member
    split at member
    · exact .inl (by rw [List.mem_singleton.mp member])
    · cases member
  intro entry member
  unfold HashUpdates.setProperty at member
  split at member
  · split at member
    · exact .inr (by rw [List.mem_singleton.mp member])
    · cases member
  · split at member
    · exact option _ _ entry member
    · split at member
      · split at member
        · exact option _ _ entry member
        · cases member
      · split at member
        · split at member
          · exact option _ _ entry member
          · cases member
        · cases member

/-- The writes of a request are recorded under the keys they are made to. -/
theorem recordAll_keys (writes : List (String × Value)) (last : String → Option Json)
    (key : String) (document : Json) (recorded : recordAll writes last key = some document) :
    (∃ entry ∈ writes, entry.1 = key) ∨ last key = some document := by
  induction writes generalizing last with
  | nil => exact .inr recorded
  | cons entry rest ih =>
    obtain ⟨name, value⟩ := entry
    rw [recordAll] at recorded
    cases encoded : Json.ofValue value with
    | none => exact .inr (by simpa [encoded] using recorded)
    | some own =>
      simp only [encoded] at recorded
      rcases ih _ recorded with ⟨later, member, same⟩ | before
      · exact .inl ⟨later, List.mem_cons_of_mem _ member, same⟩
      · by_cases same : key = name
        · exact .inl ⟨_, List.mem_cons_self, same.symm⟩
        · rw [Function.update_of_ne same] at before
          exact .inr before

/-- What is recorded of a request is what it leaves in the map. -/
theorem documentOf_writeAll (infoHash : String) (writes : List (String × Value)) (store : Store)
    (last : String → Option Json) (ordinary : ∀ entry ∈ writes, entry.1 ≠ migrateKey)
    (held : ∀ key document, last key = some document →
      documentOf (store infoHash) key = some document) (key : String) (document : Json)
    (recorded : recordAll writes last key = some document) :
    documentOf (writeAll infoHash writes store infoHash) key = some document := by
  induction writes generalizing store last with
  | nil => exact held key document recorded
  | cons entry rest ih =>
    obtain ⟨name, value⟩ := entry
    have distinct : name ≠ migrateKey := ordinary _ List.mem_cons_self
    rw [recordAll] at recorded
    rw [writeAll]
    cases encoded : Json.ofValue value with
    | none =>
      simp only [encoded] at recorded
      simpa [setMetadata, distinct, encoded] using held key document recorded
    | some own =>
      simp only [encoded] at recorded
      obtain ⟨written, wrote, _, _, read⟩ :=
        setMetadata_spec store infoHash name value own distinct encoded
      rw [wrote]
      refine ih written _ (fun later member => ordinary later (List.mem_cons_of_mem _ member)) ?_
        recorded
      intro tested stored found
      rw [read]
      by_cases same : tested = name
      · simpa [same] using found
      · rw [Function.update_of_ne same] at found
        rw [if_neg same]
        exact held tested stored found

section Steps

variable (conversions : Conversions)

/-- No step sets anything else. -/
theorem settable_step (traced : Traced) (event : MetadataRuns.Event) (next : Traced)
    (settable : Settable traced) (stepped : step conversions traced event = some next) :
    Settable next := by
  obtain ⟨state, _, rfl⟩ := Option.map_eq_some_iff.mp stepped
  intro infoHash key document found
  cases event with
  | setProperty changed property value =>
    by_cases same : infoHash = changed
    · subst same
      simp only [setAfter, Function.update_self] at found
      rcases recordAll_keys _ _ key document found with ⟨entry, member, rfl⟩ | before
      · exact setProperty_keys conversions _ property value entry member
      · exact settable infoHash key document before
    · simp only [setAfter, Function.update_of_ne same] at found
      exact settable infoHash key document found
  | remove changed =>
    by_cases same : infoHash = changed
    · simp [setAfter, same] at found
    · simp only [setAfter, Function.update_of_ne same] at found
      exact settable infoHash key document found
  | add => exact settable infoHash key document found
  | recheck => exact settable infoHash key document found
  | finishCheck => exact settable infoHash key document found
  | handle => exact settable infoHash key document found

/-- A write of the internal key leaves options and labels as they are. -/
theorem kept_of_frame (traced : Traced) (state : MetadataRuns.State) (changed : InfoHash)
    (settable : Settable traced) (kept : Kept traced)
    (elsewhere : ∀ other ≠ changed.text, state.store other = traced.state.store other)
    (others : ∀ key ≠ pauseKey, documentOf (state.store changed.text) key =
      documentOf (traced.state.store changed.text) key) : Kept ⟨state, traced.set⟩ := by
  intro infoHash key document found
  have before := kept infoHash key document found
  by_cases same : infoHash = changed
  · subst same
    have ordinary : key ≠ pauseKey := by
      rcases settable infoHash key document found with rfl | rfl <;> decide
    rw [others key ordinary]
    exact before
  · dsimp only
    rw [elsewhere _ (InfoHash.text_ne same)]
    exact before

/-- A label is kept under a rule of AutoLabel exactly when the add brings it. -/
theorem brings_ruled_iff
    (reads : Reads) (metadata : Option MetadataMap) (store : Store)
    (returns : Returns conversions reads metadata) (label : Label)
    (rule : reads.given conversions = some label) (document : Json)
    (held : documentOf (store reads.infoHash.text) "label" = some document) :
    documentOf (addHandlers conversions reads metadata store reads.infoHash.text) "label" =
        some document ↔ Brings conversions reads metadata "label" document := by
  have given : (reads.given conversions).isSome = true := Option.isSome_of_eq_some rule
  obtain ⟨own, encoded, decoded⟩ := Json.toValue_ofValue _ (Json.plain_toValue label.document)
  have labelled : Json.ofValue label.document.toValue = some document →
      document.toValue.truthy = true := by
    intro same
    obtain rfl := Option.some.inj (encoded.symm.trans same)
    rw [decoded]
    exact label.given
  rw [addHandlers_label conversions reads metadata store returns label rule _ rfl, held]
  by_cases inside : "label" ∈ (completion (defaultsOf reads.configured) metadata).map Prod.fst
  · rw [if_pos inside]
    show (if (((carried reads metadata "label").map Json.toValue).getD .null).truthy = true then
      carried reads metadata "label" else _) = _ ↔ _
    by_cases full : (((carried reads metadata "label").map Json.toValue).getD .null).truthy = true
    · rw [if_pos full]
      constructor
      · intro same
        refine ⟨fun _ => .inl same, fun _ _ => ?_⟩
        simpa [same] using full
      · rintro ⟨brought, _⟩
        rcases brought inside with same | ⟨_, empty, _⟩
        · exact same
        · simp [empty] at full
    · rw [if_neg full]
      constructor
      · intro same
        refine ⟨fun _ => .inr ⟨rfl, by simpa using full, label, rule, same⟩, fun _ _ => ?_⟩
        exact labelled same
      · rintro ⟨brought, kept⟩
        rcases brought inside with same | ⟨_, _, other, sameRule, same⟩
        · exact absurd (kept rfl given) (by simpa [same] using full)
        · obtain rfl := Option.some.inj (rule.symm.trans sameRule)
          exact same
  · rw [if_neg inside]
    by_cases full : document.toValue.truthy = true
    · simp [Brings, inside, full]
    · have empty : document.toValue.truthy = false := by simpa using full
      simp only [Option.map_some, Option.getD_some, empty, Bool.false_eq_true, if_false]
      constructor
      · intro same
        exact absurd (labelled same) full
      · rintro ⟨_, kept⟩
        exact absurd (kept rfl given) full

/-- What is set of one torrent is kept by its add exactly when the add brings
it. -/
theorem brings_iff
    (reads : Reads) (metadata : Option MetadataMap) (store : Store)
    (returns : Returns conversions reads metadata) (key : String) (document : Json)
    (held : documentOf (store reads.infoHash.text) key = some document) :
    documentOf (addHandlers conversions reads metadata store reads.infoHash.text) key =
        some document ↔ Brings conversions reads metadata key document := by
  by_cases ruled : key = "label" ∧ (reads.given conversions).isSome = true
  · obtain ⟨rfl, given⟩ := ruled
    obtain ⟨label, rule⟩ := Option.isSome_iff_exists.mp given
    exact brings_ruled_iff conversions reads metadata store returns label rule document held
  · have ordinary : key = "label" → (reads.given conversions).isNone = true := by
      intro same
      rw [← Option.not_isSome]
      simpa [same] using ruled
    have unruled : key = "label" → ∀ label, reads.given conversions ≠ some label := by
      intro same label rule
      simp [rule] at ordinary
      exact ordinary same
    rw [(addHandlers_spec conversions reads metadata store returns).2.2 key ordinary, held]
    constructor
    · intro same
      refine ⟨fun inside => .inl ?_, fun label given => absurd ⟨label, given⟩ ruled⟩
      rwa [if_pos inside] at same
    · rintro ⟨brought, _⟩
      split
      · rename_i inside
        rcases brought inside with same | ⟨label, _, rule, given, _⟩
        · exact same
        · exact absurd given (unruled label rule)
      · rfl

/-- An add keeps what was set exactly when its handlers throw, or it brings what was
set of the torrent its handle reports. -/
theorem kept_added_iff (traced : Traced) (metadata : Option MetadataMap)
    (rest : List MetadataRuns.Alert) (reads : Reads) (kept : Kept traced) :
    Kept ⟨{ traced.state with
        queued := rest
        store := addHandlers conversions reads metadata traced.state.store }, traced.set⟩ ↔
      (Returns conversions reads metadata → ∀ key document,
        traced.set reads.infoHash key = some document →
          Brings conversions reads metadata key document) := by
  by_cases returns : Returns conversions reads metadata
  · have exact := brings_iff conversions reads metadata traced.state.store returns
    constructor
    · intro after _ key document found
      exact (exact key document (kept _ _ _ found)).mp (after reads.infoHash key document found)
    · intro brought infoHash key document found
      by_cases same : infoHash = reads.infoHash
      · subst same
        exact (exact key document (kept _ _ _ found)).mpr (brought returns key document found)
      · dsimp only
        rw [addHandlers_elsewhere conversions reads metadata traced.state.store _
          (InfoHash.text_ne same)]
        exact kept infoHash key document found
  · refine iff_of_true ?_ fun completes => absurd completes returns
    rw [addHandlers_throws conversions reads metadata traced.state.store returns]
    exact kept

/-- Only the handlers can lose what was set. -/
theorem kept_unhandled (traced : Traced) (event : MetadataRuns.Event) (next : Traced)
    (unhandled : ∀ reads, event ≠ .handle reads) (settable : Settable traced) (kept : Kept traced)
    (stepped : step conversions traced event = some next) : Kept next := by
  obtain ⟨state, moved, rfl⟩ := Option.map_eq_some_iff.mp stepped
  have outcome := step_cases conversions traced.state event state moved
  cases event with
  | add infoHash hasMetadata metadata =>
    obtain ⟨_, rfl⟩ := outcome
    exact kept
  | finishCheck infoHash =>
    obtain ⟨_, rfl⟩ := outcome
    exact kept
  | remove infoHash =>
    obtain ⟨_, rfl⟩ := outcome
    intro tested key document found
    by_cases same : tested = infoHash
    · simp [setAfter, same] at found
    · simp only [setAfter, Function.update_of_ne same] at found
      exact kept tested key document found
  | setProperty infoHash property value =>
    obtain ⟨_, rfl⟩ := outcome
    have ordinary := HashUpdates.setProperty_ordinary conversions
      (metadataOf traced.state.store infoHash.text "options") property value
    intro tested key document found
    by_cases same : tested = infoHash
    · subst same
      simp only [setAfter, Function.update_self] at found
      exact documentOf_writeAll tested.text _ _ _ ordinary (kept tested) key document found
    · simp only [setAfter, Function.update_of_ne same] at found
      dsimp only
      rw [writeAll_elsewhere infoHash.text _ _ ordinary _ (InfoHash.text_ne same)]
      exact kept tested key document found
  | recheck infoHash =>
    obtain ⟨_, rfl⟩ := outcome
    obtain ⟨elsewhere, _, others⟩ := setMetadata_frame traced.state.store infoHash.text pauseKey
      (.boolean true) (by decide)
    exact kept_of_frame traced _ infoHash settable kept elsewhere others
  | handle reads => exact absurd rfl (unhandled reads)

/-- A step keeps what was set exactly when it is harmless. -/
theorem kept_step_iff
    (traced : Traced) (event : MetadataRuns.Event) (settable : Settable traced)
    (kept : Kept traced) :
    (∀ next, step conversions traced event = some next → Kept next) ↔
      Harmless conversions traced event := by
  cases event with
  | handle reads =>
    cases queue : traced.state.queued with
    | nil => simp [step, MetadataRuns.step, queue, Harmless]
    | cons alert rest =>
      cases alert with
      | torrentAdd infoHash number metadata =>
        by_cases admissible : Admissible traced.state.session infoHash number reads
        · simp only [step, MetadataRuns.step, queue, MetadataRuns.handle, admissible, if_true,
            Option.map_some, Option.some.injEq, forall_eq', Harmless, true_implies]
          exact kept_added_iff conversions traced metadata rest reads kept
        · simp [step, MetadataRuns.step, queue, MetadataRuns.handle, admissible, Harmless]
      | torrentChecked infoHash number =>
        simp only [Harmless, queue, iff_true]
        intro next stepped
        obtain ⟨state, moved, rfl⟩ := Option.map_eq_some_iff.mp stepped
        obtain rfl := step_checked conversions traced.state reads queue moved
        obtain ⟨elsewhere, _, _, others⟩ :=
          torrentChecked_frame reads.infoHash.text traced.state.store
        exact kept_of_frame traced _ reads.infoHash settable kept elsewhere others
      | torrentRemoved infoHash =>
        simp only [Harmless, queue, iff_true]
        intro next stepped
        obtain ⟨state, moved, rfl⟩ := Option.map_eq_some_iff.mp stepped
        simp only [MetadataRuns.step, queue, MetadataRuns.handle, Option.map_some,
          Option.some.injEq] at moved
        obtain rfl := moved
        exact kept
  | _ =>
    refine iff_of_true (fun next stepped => ?_) trivial
    exact kept_unhandled conversions traced _ next (by simp) settable kept stepped

end Steps

/-- In every state that a run reaches, options and label are those set last,
exactly when each add that is handled brings what was set. -/
theorem kept_iff_harmless (conversions : Conversions) (events : List MetadataRuns.Event) :
    Always (step conversions) Kept .started events ↔
      Guarded (step conversions) (Harmless conversions) .started events := by
  apply always_iff_guarded (settable_step conversions)
    (fun traced event => kept_step_iff conversions traced event)
  · intro infoHash key document found
    cases found
  · intro infoHash key document found
    cases found

/-- A label is set and the torrent added again without one: the label stays. -/
theorem unlabelled_add_harmless :
    Always (step plainConversions) Kept .started
      [.add .ones true none, .handle plainReads,
        .setProperty .ones "label" (.string "mine"), .add .ones true none,
        .handle plainReads] := by
  refine (kept_iff_harmless plainConversions _).mpr ?_
  refine guarded_cons rfl trivial (guarded_cons rfl ?_ (guarded_cons rfl trivial
    (guarded_cons rfl trivial (guarded_cons rfl ?_ trivial))))
  · intro _ _ key document found
    cases found
  · intro _ _ key document found
    have found : Function.update (fun _ : String => (none : Option Json)) "label"
        (some (.string "mine")) key = some document := found
    obtain rfl : key = "label" := by
      by_contra other
      simp [other] at found
    exact ⟨fun inside => absurd inside (by decide), fun _ given => absurd given (by decide)⟩

/-- The seed goal is overridden and a label set, and a scan adds the torrent again
with the label of its folder: both are lost. -/
theorem repeated_add_overwrites : ∃ final,
    run (step plainConversions) .started
      [.add .ones true none, .handle plainReads,
        .setProperty .ones "seed_override" (.boolean true),
        .setProperty .ones "label" (.string "mine"),
        .add .ones true (some (.put .empty "label" (.string "theirs") (by decide))),
        .handle plainReads] = some final ∧
    Present final.state.session .ones ∧
    final.set .ones "options" = some (.object [("seedRatio", .number 2),
      ("seedTime", .number 0), ("seedAction", .string "pause"), ("seedOverride", .boolean true)]) ∧
    documentOf (final.state.store InfoHash.ones.text) "options" = some (.object [("seedRatio", .number 2),
      ("seedTime", .number 0), ("seedAction", .string "pause")]) ∧
    final.set .ones "label" = some (.string "mine") ∧
    documentOf (final.state.store InfoHash.ones.text) "label" = some (.string "theirs") ∧
    ¬ Kept final := by
  refine ⟨_, rfl, by decide, rfl, rfl, rfl, rfl, ?_⟩
  intro kept
  have label : some (Json.string "theirs") = some (.string "mine") :=
    kept .ones "label" (.string "mine") rfl
  simp at label

end Hadouken.RepeatedAdds
