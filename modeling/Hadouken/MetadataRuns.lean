import Hadouken.HashUpdates
import Hadouken.SavedTorrents

/-!
# Metadata over whole runs

The session changes at once; what the handlers write into the map follows when
the alerts are handled, in posting order, through the handle of the instance an
alert is about. An add of a torrent that is there already is answered with an
alert that carries its handle and no error, like the add of a new one.

The handler of the removal deletes files and leaves the map as it is. Torrents
whose hash changes are the subject of another module; adds with an error are
left out, since their handler returns at once.
-/

namespace Hadouken.MetadataRuns

open Script MetadataStore TorrentFiles SavedTorrents Runs

/-- The alerts whose handlers touch metadata. -/
inductive Alert where
  | torrentAdd (infoHash : InfoHash) (number : Nat) (metadata : Option MetadataMap)
  | torrentChecked (infoHash : InfoHash) (number : Nat)
  | torrentRemoved (infoHash : InfoHash)

/-- A label of a rule of AutoLabel, which skips the rules without one. -/
structure Label where
  document : Json
  given : document.toValue.truthy = true

/-- What one handler reads: the hash its handle reports, the configured default
options, and the label of the first rule that matches. There is none where the
plugin is off or the handle is invalid. -/
structure Reads where
  infoHash : InfoHash
  defaultOptions : Option Json
  label : Option Label

/-- `config.get("bittorrent.defaultOptions")`. -/
def Reads.configured (reads : Reads) : Value :=
  (reads.defaultOptions.map Json.toValue).getD .undefined

/-- The label the plugin can log. Where it cannot, it throws before it gives the
label. -/
def Reads.given (conversions : Conversions) (reads : Reads) : Option Label :=
  reads.label.filter fun label => (conversions.concatText label.document.toValue).isSome

/-- The session, the alerts that are not handled yet, and the metadata. -/
structure State where
  session : Session
  queued : List Alert
  store : Store

/-- A current instance reports its hash. One that was removed may expire before
the read: it then is invalid and reports the zero hash. -/
def Admissible (session : Session) (infoHash : InfoHash) (number : Nat) (reads : Reads) : Prop :=
  reads.infoHash = infoHash ∨
    (¬ session.Current infoHash number ∧ reads.infoHash = .zero ∧ reads.label.isNone = true)

/-- The reads are compared with the session. -/
instance (session : Session) (infoHash : InfoHash) (number : Nat) (reads : Reads) :
    Decidable (Admissible session infoHash number reads) := by
  unfold Admissible; infer_instance

/-- `torrentAdded` of AutoLabel. -/
def autoLabel (infoHash : String) (label : Option Label) (store : Store) : Store :=
  match label with
  | none => store
  | some label =>
      if (metadataOf store infoHash "label").truthy then store
      else (setMetadata store infoHash "label" label.document.toValue).getD store

/-- The handler of core.js gets past the default options it reads. The writes that
follow do not throw: they are of values with a text, to keys that do not migrate. -/
def Returns (conversions : Conversions) (reads : Reads) (metadata : Option MetadataMap) : Prop :=
  Completes conversions (defaultsOf reads.configured) metadata

/-- The values are checked. -/
instance decidableReturns (conversions : Conversions) (reads : Reads)
    (metadata : Option MetadataMap) : Decidable (Returns conversions reads metadata) := by
  unfold Returns; infer_instance

/-- The handlers of `torrent.add`, in the order of their registration: the emitter
does not come to the second where the first throws. -/
def addHandlers (conversions : Conversions) (reads : Reads) (metadata : Option MetadataMap)
    (store : Store) : Store :=
  let left := torrentAdd conversions reads.configured reads.infoHash.text
    (metadata.map MetadataMap.document) store
  if (completed conversions reads.configured (metadata.map MetadataMap.document)).isSome then
    autoLabel reads.infoHash.text (reads.given conversions) left
  else left

/-- The effect of handling an alert, if the reads are possible. -/
def handle (conversions : Conversions) (session : Session) (reads : Reads) :
    Alert → Store → Option Store
  | .torrentAdd infoHash number metadata, store =>
      if Admissible session infoHash number reads then
        some (addHandlers conversions reads metadata store)
      else none
  | .torrentChecked infoHash number, store =>
      if Admissible session infoHash number reads then
        some (torrentChecked reads.infoHash.text store)
      else none
  | .torrentRemoved _, store => some store

/-- Writes of one request, up to the first that throws. -/
def writeAll (infoHash : String) : List (String × Value) → Store → Store
  | [], store => store
  | (key, value) :: rest, store =>
      match setMetadata store infoHash key value with
      | some written => writeAll infoHash rest written
      | none => store

/-- What happens to the session, to its metadata, or in the handlers. -/
inductive Event where
  | add (infoHash : InfoHash) (hasMetadata : Bool) (metadata : Option MetadataMap)
  | remove (infoHash : InfoHash)
  | setProperty (infoHash : InfoHash) (key : String) (value : Value)
  | recheck (infoHash : InfoHash)
  | finishCheck (infoHash : InfoHash)
  | handle (reads : Reads)

/-- The torrent is in the session. -/
def Present (session : Session) (infoHash : InfoHash) : Prop :=
  (session.hasMetadata infoHash).isSome = true

/-- The session is asked. -/
instance (session : Session) (infoHash : InfoHash) : Decidable (Present session infoHash) := by
  unfold Present; infer_instance

/-- The session after an add: a torrent that is there stays as it is. -/
def addTo (session : Session) (infoHash : InfoHash) (hasMetadata : Bool) : Session :=
  if Present session infoHash then session else session.put infoHash hasMetadata

/-- One step. No torrent has the zero hash. -/
def step (conversions : Conversions) (state : State) : Event → Option State
  | .add infoHash hasMetadata metadata =>
      if infoHash ≠ .zero then
        some { state with
          session := addTo state.session infoHash hasMetadata
          queued := state.queued ++
            [.torrentAdd infoHash (state.session.removals infoHash) metadata] }
      else none
  | .remove infoHash =>
      if Present state.session infoHash then
        some { state with
          session := state.session.drop infoHash
          queued := state.queued ++ [.torrentRemoved infoHash] }
      else none
  | .setProperty infoHash key value =>
      if Present state.session infoHash then
        some { state with
          store := writeAll infoHash.text
            (HashUpdates.setProperty conversions (metadataOf state.store infoHash.text "options")
              key value) state.store }
      else none
  | .recheck infoHash =>
      if Present state.session infoHash then
        some { state with
          store := (setMetadata state.store infoHash.text pauseKey (.boolean true)).getD
            state.store }
      else none
  | .finishCheck infoHash =>
      if Present state.session infoHash then
        some { state with
          queued := state.queued ++
            [.torrentChecked infoHash (state.session.removals infoHash)] }
      else none
  | .handle reads =>
      match state.queued with
      | [] => none
      | alert :: rest =>
          (handle conversions state.session reads alert state.store).map fun store =>
            { state with queued := rest, store := store }

/-- The process just started: an empty session and nothing stored. -/
def State.started : State where
  session := ⟨fun _ => none, fun _ => 0⟩
  queued := []
  store := fun _ => none

/-- What a handler reads without configured options or rules, for runs on fixed
inputs. -/
def plainReads : Reads := ⟨.ones, none, none⟩

/-- The handler of a check that has finished writes for the torrent it reads. -/
theorem step_checked (conversions : Conversions) (state : State) (reads : Reads)
    {infoHash : InfoHash} {number : Nat} {rest : List Alert} {next : State}
    (queue : state.queued = .torrentChecked infoHash number :: rest)
    (stepped : step conversions state (.handle reads) = some next) :
    next = { state with
      queued := rest, store := torrentChecked reads.infoHash.text state.store } := by
  simp only [step, queue, handle, Option.map_eq_some_iff, Option.ite_none_right_eq_some,
    Option.some.injEq] at stepped
  obtain ⟨_, ⟨_, rfl⟩, rfl⟩ := stepped
  rfl

/-- What each step does, and when it is possible. -/
theorem step_cases (conversions : Conversions) (state : State) (event : Event) (next : State)
    (stepped : step conversions state event = some next) :
    match event with
    | .add infoHash hasMetadata metadata =>
        infoHash ≠ .zero ∧ next = { state with
          session := addTo state.session infoHash hasMetadata
          queued := state.queued ++
            [.torrentAdd infoHash (state.session.removals infoHash) metadata] }
    | .remove infoHash =>
        Present state.session infoHash ∧ next = { state with
          session := state.session.drop infoHash
          queued := state.queued ++ [.torrentRemoved infoHash] }
    | .setProperty infoHash key value =>
        Present state.session infoHash ∧ next = { state with
          store := writeAll infoHash.text
            (HashUpdates.setProperty conversions (metadataOf state.store infoHash.text "options")
              key value) state.store }
    | .recheck infoHash =>
        Present state.session infoHash ∧ next = { state with
          store := (setMetadata state.store infoHash.text pauseKey (.boolean true)).getD
            state.store }
    | .finishCheck infoHash =>
        Present state.session infoHash ∧ next = { state with
          queued := state.queued ++
            [.torrentChecked infoHash (state.session.removals infoHash)] }
    | .handle reads =>
        ∃ alert rest store, state.queued = alert :: rest ∧
          handle conversions state.session reads alert state.store = some store ∧
          next = { state with queued := rest, store := store } := by
  cases event with
  | handle reads =>
    cases queue : state.queued with
    | nil => simp [step, queue] at stepped
    | cons alert rest =>
      simp only [step, queue] at stepped
      obtain ⟨store, handled, rfl⟩ := Option.map_eq_some_iff.mp stepped
      exact ⟨alert, rest, store, rfl, handled, rfl⟩
  | _ =>
    simp only [step, Option.ite_none_right_eq_some, Option.some.injEq] at stepped
    exact ⟨stepped.1, stepped.2.symm⟩

section Writes

/-- What `metadata(key, value)` leaves, whether it throws or not: the other
hashes and the other keys as they were. -/
theorem setMetadata_frame (store : Store) (infoHash key : String) (value : Value)
    (ordinary : key ≠ migrateKey) :
    (∀ other ≠ infoHash,
      ((setMetadata store infoHash key value).getD store) other = store other) ∧
    ((store infoHash).isSome = true →
      (((setMetadata store infoHash key value).getD store) infoHash).isSome = true) ∧
    ∀ tested ≠ key, documentOf (((setMetadata store infoHash key value).getD store) infoHash) tested =
      documentOf (store infoHash) tested := by
  cases encoded : Json.ofValue value with
  | none => simp [setMetadata, ordinary, encoded]
  | some document =>
    obtain ⟨written, wrote, elsewhere, held, read⟩ :=
      setMetadata_spec store infoHash key value document ordinary encoded
    rw [wrote, Option.getD_some]
    refine ⟨elsewhere, fun _ => held, fun tested distinct => ?_⟩
    rw [read, if_neg distinct]

/-- The plugin writes the label alone. -/
theorem autoLabel_frame (infoHash : String) (label : Option Label) (store : Store) :
    (∀ other ≠ infoHash, autoLabel infoHash label store other = store other) ∧
    ((store infoHash).isSome = true → (autoLabel infoHash label store infoHash).isSome = true) ∧
    ∀ tested, (tested = "label" → label.isNone = true) →
      documentOf (autoLabel infoHash label store infoHash) tested =
        documentOf (store infoHash) tested := by
  unfold autoLabel
  cases label with
  | none => exact ⟨fun _ _ => rfl, id, fun _ _ => rfl⟩
  | some label =>
    dsimp only
    split
    · exact ⟨fun _ _ => rfl, id, fun _ _ => rfl⟩
    · obtain ⟨elsewhere, held, read⟩ := setMetadata_frame store infoHash "label"
        label.document.toValue (by decide)
      refine ⟨elsewhere, held, fun tested other => read tested fun same => ?_⟩
      simp at other
      exact other same

/-- Writes to one torrent leave the others. -/
theorem writeAll_elsewhere (infoHash : String) (writes : List (String × Value)) (store : Store)
    (ordinary : ∀ entry ∈ writes, entry.1 ≠ migrateKey) (other : String)
    (distinct : other ≠ infoHash) : writeAll infoHash writes store other = store other := by
  induction writes generalizing store with
  | nil => rfl
  | cons entry rest ih =>
    obtain ⟨key, value⟩ := entry
    have frame := (setMetadata_frame store infoHash key value
      (ordinary _ List.mem_cons_self)).1 other distinct
    rw [writeAll]
    cases wrote : setMetadata store infoHash key value with
    | none => rfl
    | some written =>
      rw [wrote, Option.getD_some] at frame
      rw [← frame]
      exact ih written fun later member => ordinary later (List.mem_cons_of_mem _ member)

/-- Where a label is read as empty the plugin writes that of its rule. -/
theorem documentOf_autoLabel (infoHash : String) (label : Label) (store : Store) :
    documentOf (autoLabel infoHash (some label) store infoHash) "label" =
      if (((documentOf (store infoHash) "label").map Json.toValue).getD .null).truthy then
        documentOf (store infoHash) "label"
      else Json.ofValue label.document.toValue := by
  have reading : metadataOf store infoHash "label" =
      ((documentOf (store infoHash) "label").map Json.toValue).getD .null := by
    unfold metadataOf
    cases documentOf (store infoHash) "label" <;> rfl
  rw [← reading, autoLabel]
  split
  · rfl
  · obtain ⟨own, encoded, _⟩ := Json.toValue_ofValue _ (Json.plain_toValue label.document)
    obtain ⟨written, wrote, _, _, read⟩ := setMetadata_spec store infoHash "label" _ own
      (by decide) encoded
    rw [wrote, Option.getD_some, read, if_pos rfl, encoded]

section Adds

variable (conversions : Conversions) (reads : Reads) (metadata : Option MetadataMap)
  (store : Store)

/-- Configured options are plain, or absent. -/
theorem configured_plain : reads.configured = .undefined ∨ Json.Plain reads.configured := by
  cases given : reads.defaultOptions with
  | none => exact .inl (by simp [Reads.configured, given])
  | some document =>
    exact .inr (by simpa [Reads.configured, given] using Json.plain_toValue document)

/-- The handlers of an add whose first one throws write nothing. -/
theorem addHandlers_throws (throws : ¬ Returns conversions reads metadata) :
    addHandlers conversions reads metadata store = store := by
  obtain ⟨defaulted, _⟩ := defaultsOf_spec _ (configured_plain reads)
  have thrown :=
    (completed_document conversions reads.configured _ defaulted metadata).trans (if_neg throws)
  rw [addHandlers, thrown]
  exact torrentAdd_throws conversions reads.configured _ defaulted metadata throws _ _

variable (returns : Returns conversions reads metadata)
include returns

/-- Where it returns, the plugin follows. -/
theorem addHandlers_returns : addHandlers conversions reads metadata store =
    autoLabel reads.infoHash.text (reads.given conversions)
      (torrentAdd conversions reads.configured reads.infoHash.text
        (metadata.map MetadataMap.document) store) := by
  obtain ⟨defaulted, _⟩ := defaultsOf_spec _ (configured_plain reads)
  have whole :=
    (completed_document conversions reads.configured _ defaulted metadata).trans (if_pos returns)
  rw [addHandlers, whole]
  rfl

/-- The first handler of an add, with the default options it reads. -/
theorem torrentAdd_configured :
    (∀ other ≠ reads.infoHash.text, torrentAdd conversions reads.configured reads.infoHash.text
      (metadata.map MetadataMap.document) store other = store other) ∧
    (torrentAdd conversions reads.configured reads.infoHash.text
      (metadata.map MetadataMap.document) store reads.infoHash.text).isSome = true ∧
    ∀ key, documentOf (torrentAdd conversions reads.configured reads.infoHash.text
        (metadata.map MetadataMap.document) store reads.infoHash.text) key =
      if key ∈ (completion (defaultsOf reads.configured) metadata).map Prod.fst then
        ((completion (defaultsOf reads.configured) metadata).lookup key).bind Json.ofValue
      else documentOf (store reads.infoHash.text) key := by
  obtain ⟨defaulted, plain⟩ := defaultsOf_spec _ (configured_plain reads)
  exact torrentAdd_spec conversions reads.configured _ defaulted plain metadata returns
    reads.infoHash.text store

/-- The handlers of an add write the completion over what is stored, and perhaps
the label of a rule; they touch one hash alone. -/
theorem addHandlers_spec :
    (∀ other ≠ reads.infoHash.text,
      addHandlers conversions reads metadata store other = store other) ∧
    (addHandlers conversions reads metadata store reads.infoHash.text).isSome = true ∧
    ∀ key, (key = "label" → (reads.given conversions).isNone = true) →
      documentOf (addHandlers conversions reads metadata store reads.infoHash.text) key =
        if key ∈ (completion (defaultsOf reads.configured) metadata).map Prod.fst then
          ((completion (defaultsOf reads.configured) metadata).lookup key).bind Json.ofValue
        else documentOf (store reads.infoHash.text) key := by
  obtain ⟨elsewhere, held, read⟩ := torrentAdd_configured conversions reads metadata store returns
  obtain ⟨labelElsewhere, labelHeld, labelRead⟩ := autoLabel_frame reads.infoHash.text
    (reads.given conversions) (torrentAdd conversions reads.configured reads.infoHash.text
      (metadata.map MetadataMap.document) store)
  rw [addHandlers_returns conversions reads metadata store returns]
  refine ⟨fun other distinct => ?_, labelHeld held, fun key ordinary => ?_⟩
  · rw [labelElsewhere other distinct, elsewhere other distinct]
  · rw [labelRead key ordinary, read]

/-- The label after an add that a rule of AutoLabel matches. -/
theorem addHandlers_label (label : Label) (ruled : reads.given conversions = some label)
    (middle : Option Json)
    (carries : middle =
      if "label" ∈ (completion (defaultsOf reads.configured) metadata).map Prod.fst then
        ((completion (defaultsOf reads.configured) metadata).lookup "label").bind Json.ofValue
      else documentOf (store reads.infoHash.text) "label") :
    documentOf (addHandlers conversions reads metadata store reads.infoHash.text) "label" =
      if ((middle.map Json.toValue).getD .null).truthy then middle
      else Json.ofValue label.document.toValue := by
  obtain ⟨_, _, read⟩ := torrentAdd_configured conversions reads metadata store returns
  rw [addHandlers_returns conversions reads metadata store returns, ruled, documentOf_autoLabel,
    read, ← carries]

omit returns in
/-- The handlers of an add touch one hash alone, in any case. -/
theorem addHandlers_elsewhere (other : String) (distinct : other ≠ reads.infoHash.text) :
    addHandlers conversions reads metadata store other = store other := by
  by_cases returns : Returns conversions reads metadata
  · exact (addHandlers_spec conversions reads metadata store returns).1 other distinct
  · rw [addHandlers_throws conversions reads metadata store returns]

end Adds

end Writes

end Hadouken.MetadataRuns
