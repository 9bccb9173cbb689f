import Hadouken.MetadataRuns

/-!
# Removal and re-use of an info hash

Metadata should belong to the torrents of the session, and to those whose
removal is not handled yet; a torrent that was added anew should have what its
own add carries, completed with default options. A run is traced with what has
been written to each torrent since it was added.

The handler of the removal leaves the map as it is, and so a map stays for good
under its hash. A handle that expired writes under the zero hash. The handler of an
add that cannot log the default options throws, and writes nothing.
-/

namespace Hadouken.MetadataRemoval

open Script MetadataStore TorrentFiles SavedTorrents Runs MetadataRuns

/-- What was written to a torrent since it was added: nothing yet, what the
handlers of its own add write, or something else. -/
inductive Phase where
  | added
  | completed (reads : Reads) (metadata : Option MetadataMap)
  | written

/-- After a handler that is not about the torrent's own add. -/
def Phase.disturbed : Phase → Phase
  | .added => .added
  | _ => .written

/-- After the handlers of an add that is not the torrent's own: where they throw,
nothing was written. -/
def Phase.afterOther (conversions : Conversions) (reads : Reads) (metadata : Option MetadataMap)
    (phase : Phase) : Phase :=
  if Returns conversions reads metadata then phase.disturbed else phase

/-- After the handlers of an add of the torrent, its first or a later one. -/
def Phase.afterAdd (conversions : Conversions) (reads : Reads) (metadata : Option MetadataMap) :
    Phase → Phase
  | .added => .completed reads metadata
  | phase => phase.afterOther conversions reads metadata

/-- Another add leaves a torrent completed only where its handlers throw. -/
theorem Phase.afterOther_completed (conversions : Conversions) (reads others : Reads)
    (metadata other : Option MetadataMap) (phase : Phase)
    (now : phase.afterOther conversions reads metadata = .completed others other) :
    ¬ Returns conversions reads metadata ∧ phase = .completed others other := by
  unfold afterOther at now
  split at now
  · cases phase <;> cases now
  · rename_i throws
    exact ⟨throws, now⟩

/-- A run with what was written to each torrent. -/
structure Traced where
  state : MetadataRuns.State
  phase : InfoHash → Phase

/-- The phases after a step. -/
def phasesAfter (conversions : Conversions) (traced : Traced) :
    MetadataRuns.Event → InfoHash → Phase
  | .add infoHash _ _ =>
      if Present traced.state.session infoHash then traced.phase
      else Function.update traced.phase infoHash .added
  | .remove infoHash | .setProperty infoHash _ _ | .recheck infoHash =>
      Function.update traced.phase infoHash .written
  | .finishCheck _ => traced.phase
  | .handle reads =>
      match traced.state.queued with
      | .torrentAdd infoHash number metadata :: _ =>
          Function.update traced.phase reads.infoHash
            (if traced.state.session.Current infoHash number then
              (traced.phase reads.infoHash).afterAdd conversions reads metadata
            else (traced.phase reads.infoHash).afterOther conversions reads metadata)
      | .torrentChecked _ _ :: _ =>
          Function.update traced.phase reads.infoHash (traced.phase reads.infoHash).disturbed
      | _ => traced.phase

/-- One step, with what it writes. -/
def step (conversions : Conversions) (traced : Traced) (event : MetadataRuns.Event) :
    Option Traced :=
  (MetadataRuns.step conversions traced.state event).map fun next =>
    ⟨next, phasesAfter conversions traced event⟩

/-- The process just started. -/
def Traced.started : Traced := ⟨.started, fun _ => .written⟩

/-- The torrent is in the session, or its removal waits to be handled. -/
def Known (state : MetadataRuns.State) (infoHash : InfoHash) : Prop :=
  Present state.session infoHash ∨ .torrentRemoved infoHash ∈ state.queued

/-- Entries are of known torrents, and a torrent to which only the handlers of
its add have written has the completion of what was added, the label apart where
a rule gives one. -/
structure Forgets (conversions : Conversions) (traced : Traced) : Prop where
  known : ∀ infoHash, (traced.state.store infoHash).isSome = true →
    ∃ torrent : InfoHash, torrent.text = infoHash ∧ Known traced.state torrent
  completed : ∀ infoHash reads metadata, traced.phase infoHash = .completed reads metadata →
    ∀ key, (key = "label" → (reads.given conversions).isNone = true) →
      documentOf (traced.state.store infoHash.text) key =
        ((completion (defaultsOf reads.configured) metadata).lookup key).bind Json.ofValue

/-- The handlers of an add leave a torrent of which this map is stored with its
completed metadata: they write over every key that is stored, or throw and find just
these metadata. -/
def Settles (conversions : Conversions) (reads : Reads) (metadata map : Option MetadataMap) :
    Prop :=
  ∀ key, (key = "label" → (reads.given conversions).isNone = true) →
    if Returns conversions reads metadata then
      (documentOf map key).isSome = true →
        key ∈ (completion (defaultsOf reads.configured) metadata).map Prod.fst
    else documentOf map key =
      ((completion (defaultsOf reads.configured) metadata).lookup key).bind Json.ofValue

/-- A removal is handled with nothing stored, unless the torrent is back or will
be removed once more; an add is handled while its handle reports the hash, unless its
handlers throw, and, if it is the first of a new torrent, they leave this one with its
completed metadata. -/
def Clean (conversions : Conversions) (traced : Traced) : MetadataRuns.Event → Prop
  | .handle reads =>
      match traced.state.queued with
      | .torrentRemoved infoHash :: rest =>
          Present traced.state.session infoHash ∨ .torrentRemoved infoHash ∈ rest ∨
            traced.state.store infoHash.text = none
      | .torrentAdd infoHash number metadata :: _ =>
          Admissible traced.state.session infoHash number reads →
            (Returns conversions reads metadata → reads.infoHash = infoHash) ∧
            (traced.state.session.Current infoHash number → traced.phase infoHash = .added →
              Settles conversions reads metadata (traced.state.store infoHash.text))
      | _ => True
  | _ => True

/-- Each add in the queue is of a torrent in the session, or the removal of the
torrent follows. -/
def Covered (session : Session) : List MetadataRuns.Alert → Prop
  | [] => True
  | .torrentAdd infoHash _ _ :: rest =>
      (Present session infoHash ∨ .torrentRemoved infoHash ∈ rest) ∧ Covered session rest
  | _ :: rest => Covered session rest

/-- A posted alert keeps the queue covered, if it is about a torrent of the
session and takes no other out of it. -/
theorem covered_post (session next : Session) (alert : MetadataRuns.Alert)
    (stays : ∀ infoHash, Present session infoHash →
      Present next infoHash ∨ .torrentRemoved infoHash = alert)
    (own : ∀ infoHash number metadata, alert = .torrentAdd infoHash number metadata →
      Present next infoHash)
    (queued : List MetadataRuns.Alert) (covered : Covered session queued) :
    Covered next (queued ++ [alert]) := by
  induction queued with
  | nil =>
    cases alert with
    | torrentAdd infoHash number metadata => exact ⟨.inl (own _ _ _ rfl), trivial⟩
    | torrentChecked infoHash number => trivial
    | torrentRemoved infoHash => trivial
  | cons first rest ih =>
    cases first with
    | torrentAdd infoHash number metadata =>
      obtain ⟨about, later⟩ := covered
      refine ⟨?_, ih later⟩
      rcases about with here | removed
      · exact (stays infoHash here).imp id fun same => by simp [same]
      · exact .inr (List.mem_append_left _ removed)
    | torrentChecked infoHash number => exact ih covered
    | torrentRemoved infoHash => exact ih covered

/-- What is posted makes no torrent unknown, if those it takes out of the session
are those whose removal it tells. -/
theorem known_post (state : MetadataRuns.State) (next : Session) (alert : MetadataRuns.Alert)
    (stays : ∀ infoHash, Present state.session infoHash →
      Present next infoHash ∨ .torrentRemoved infoHash = alert)
    (infoHash : InfoHash) (known : Known state infoHash) :
    Known { state with session := next, queued := state.queued ++ [alert] } infoHash := by
  rcases known with here | removed
  · exact (stays infoHash here).imp id fun same => by simp [same]
  · exact .inr (List.mem_append_left _ removed)

/-- What stays in the session after an add. -/
theorem present_addTo (session : Session) (infoHash : InfoHash) (hasMetadata : Bool)
    (tested : InfoHash) :
    Present (addTo session infoHash hasMetadata) tested ↔
      tested = infoHash ∨ Present session tested := by
  unfold addTo
  by_cases present : Present session infoHash
  · rw [if_pos present]
    constructor
    · exact .inr
    · rintro (rfl | here)
      · exact present
      · exact here
  · rw [if_neg present]
    by_cases same : tested = infoHash
    · subst same
      simp [Present]
    · simp [Present, same, Session.put_hasMetadata_of_ne]

/-- What stays in the session after a removal. -/
theorem present_drop (session : Session) (infoHash tested : InfoHash) :
    Present (session.drop infoHash) tested ↔ tested ≠ infoHash ∧ Present session tested := by
  by_cases same : tested = infoHash
  · subst same
    simp [Present, Session.drop]
  · simp [Present, Session.drop, same]

/-- A removal takes one torrent out of the session, and tells so. -/
theorem stays_drop (session : Session) (infoHash tested : InfoHash)
    (here : Present session tested) : Present (session.drop infoHash) tested ∨
      MetadataRuns.Alert.torrentRemoved tested = .torrentRemoved infoHash := by
  by_cases same : tested = infoHash
  · exact .inr (by rw [same])
  · exact .inl ((present_drop session infoHash tested).mpr ⟨same, here⟩)

/-- Every queued add is covered, and nothing is known of the zero hash. -/
structure Invariant (traced : Traced) : Prop where
  covered : Covered traced.state.session traced.state.queued
  zero : ¬ Known traced.state .zero

/-- Posting an alert about a torrent that is or was in the session. -/
theorem invariant_posted (traced : Traced) (next : Session) (alert : MetadataRuns.Alert)
    (phase : InfoHash → Phase)
    (stays : ∀ infoHash, Present traced.state.session infoHash →
      Present next infoHash ∨ .torrentRemoved infoHash = alert)
    (own : ∀ infoHash number metadata, alert = .torrentAdd infoHash number metadata →
      Present next infoHash)
    (zero : ¬ (Present next .zero ∨ .torrentRemoved .zero = alert))
    (invariant : Invariant traced) :
    Invariant ⟨{ traced.state with session := next, queued := traced.state.queued ++ [alert] },
      phase⟩ := by
  refine ⟨covered_post _ _ alert stays own _ invariant.covered, ?_⟩
  rintro (here | removed)
  · exact zero (.inl here)
  · rcases List.mem_append.mp removed with before | last
    · exact invariant.zero (.inr before)
    · exact zero (.inr (List.mem_singleton.mp last))

/-- Handling an alert takes it from the queue and leaves the session. -/
theorem invariant_handled (traced : Traced) (alert : MetadataRuns.Alert)
    (rest : List MetadataRuns.Alert) (queue : traced.state.queued = alert :: rest)
    (store : Store) (phase : InfoHash → Phase) (invariant : Invariant traced) :
    Invariant ⟨{ traced.state with queued := rest, store := store }, phase⟩ := by
  obtain ⟨covered, zero⟩ := invariant
  rw [queue] at covered
  constructor
  · cases alert with
    | torrentAdd infoHash number metadata => exact covered.2
    | torrentChecked infoHash number => exact covered
    | torrentRemoved infoHash => exact covered
  · rintro (here | removed)
    · exact zero (.inl here)
    · exact zero (.inr (by rw [queue]; exact List.mem_cons_of_mem _ removed))

section Kept

variable {conversions : Conversions}

/-- Posting keeps the property, if no torrent is newly taken for completed. -/
theorem forgets_posted (traced : Traced) (next : Session) (alert : MetadataRuns.Alert)
    (phase : InfoHash → Phase)
    (stays : ∀ infoHash, Present traced.state.session infoHash →
      Present next infoHash ∨ .torrentRemoved infoHash = alert)
    (before : ∀ infoHash reads metadata, phase infoHash = .completed reads metadata →
      traced.phase infoHash = .completed reads metadata)
    (forgets : Forgets conversions traced) :
    Forgets conversions
      ⟨{ traced.state with session := next, queued := traced.state.queued ++ [alert] }, phase⟩ := by
  constructor
  · intro infoHash stored
    obtain ⟨torrent, same, known⟩ := forgets.known infoHash stored
    exact ⟨torrent, same, known_post _ _ _ stays torrent known⟩
  · exact fun infoHash reads metadata now =>
      forgets.completed infoHash reads metadata (before _ _ _ now)

/-- Writes to one torrent leave what is told of the others. -/
theorem completed_elsewhere (traced : Traced) (changed : InfoHash) (store : Store) (phase : Phase)
    (elsewhere : ∀ other ≠ changed.text, store other = traced.state.store other)
    (forgets : Forgets conversions traced) (infoHash : InfoHash) (other : infoHash ≠ changed)
    (reads : Reads) (metadata : Option MetadataMap)
    (now : Function.update traced.phase changed phase infoHash = .completed reads metadata)
    (key : String) (ordinary : key = "label" → (reads.given conversions).isNone = true) :
    documentOf (store infoHash.text) key =
      ((completion (defaultsOf reads.configured) metadata).lookup key).bind Json.ofValue := by
  rw [Function.update_of_ne other] at now
  rw [elsewhere _ (InfoHash.text_ne other)]
  exact forgets.completed infoHash reads metadata now key ordinary

/-- So do writes to a torrent of the session. -/
theorem forgets_written (traced : Traced) (written : InfoHash) (store : Store)
    (elsewhere : ∀ other ≠ written.text, store other = traced.state.store other)
    (present : Present traced.state.session written) (forgets : Forgets conversions traced) :
    Forgets conversions ⟨{ traced.state with store := store },
      Function.update traced.phase written .written⟩ := by
  constructor
  · intro infoHash stored
    by_cases own : infoHash = written.text
    · exact ⟨written, own.symm, .inl present⟩
    · exact forgets.known infoHash (by rw [← elsewhere infoHash own]; exact stored)
  · intro infoHash reads metadata now key ordinary
    by_cases own : infoHash = written
    · simp [own] at now
    · exact completed_elsewhere traced written store .written elsewhere forgets infoHash own reads
        metadata now key ordinary

/-- An alert that is not a removal can be handled without a torrent becoming
unknown. -/
theorem known_handled (state : MetadataRuns.State) (alert : MetadataRuns.Alert)
    (rest : List MetadataRuns.Alert) (queue : state.queued = alert :: rest) (infoHash : InfoHash)
    (other : .torrentRemoved infoHash ≠ alert) (known : Known state infoHash) :
    Known { state with queued := rest } infoHash := by
  rcases known with here | removed
  · exact .inl here
  · rw [queue] at removed
    exact .inr ((List.mem_cons.mp removed).resolve_left other)

/-- Once the alert about a removal is handled, nothing may be stored of a torrent
that is gone. -/
theorem forgets_removed_iff (traced : Traced) (infoHash : InfoHash)
    (rest : List MetadataRuns.Alert) (queue : traced.state.queued = .torrentRemoved infoHash :: rest)
    (forgets : Forgets conversions traced) :
    Forgets conversions ⟨{ traced.state with queued := rest }, traced.phase⟩ ↔
      Present traced.state.session infoHash ∨ .torrentRemoved infoHash ∈ rest ∨
        traced.state.store infoHash.text = none := by
  constructor
  · intro kept
    cases stored : traced.state.store infoHash.text with
    | none => exact .inr (.inr rfl)
    | some map =>
      obtain ⟨torrent, same, known⟩ := kept.known infoHash.text (by rw [stored]; rfl)
      obtain rfl := (InfoHash.text_inj _ _).mp same
      exact known.imp id .inl
  · intro clean
    refine ⟨fun tested stored => ?_, forgets.completed⟩
    obtain ⟨torrent, rfl, known⟩ := forgets.known tested stored
    by_cases own : torrent = infoHash
    · subst own
      rcases clean with here | removed | unstored
      · exact ⟨torrent, rfl, .inl here⟩
      · exact ⟨torrent, rfl, .inr removed⟩
      · exact absurd stored (by simp [unstored])
    · exact ⟨torrent, rfl, known_handled traced.state _ rest queue torrent (by simp [own]) known⟩

end Kept

section Steps

variable (conversions : Conversions)

/-- A step keeps the invariant. -/
theorem invariant_step (traced : Traced) (event : MetadataRuns.Event) (next : Traced)
    (invariant : Invariant traced) (stepped : step conversions traced event = some next) :
    Invariant next := by
  obtain ⟨state, moved, rfl⟩ := Option.map_eq_some_iff.mp stepped
  have outcome := step_cases conversions traced.state event state moved
  cases event with
  | add infoHash hasMetadata metadata =>
    obtain ⟨other, rfl⟩ := outcome
    apply invariant_posted _ _ _ _ _ _ _ invariant
    · exact fun tested here => .inl ((present_addTo _ _ _ _).mpr (.inr here))
    · intro added number own same
      cases same
      exact (present_addTo _ _ _ _).mpr (.inl rfl)
    · rintro (here | same)
      · rcases (present_addTo _ _ _ _).mp here with same | before
        · exact other same.symm
        · exact invariant.zero (.inl before)
      · cases same
  | remove infoHash =>
    obtain ⟨present, rfl⟩ := outcome
    apply invariant_posted _ _ _ _ _ _ _ invariant
    · exact stays_drop traced.state.session infoHash
    · intro added number own same
      cases same
    · rintro (here | same)
      · exact invariant.zero (.inl ((present_drop _ _ _).mp here).2)
      · cases same
        exact invariant.zero (.inl present)
  | setProperty infoHash key value =>
    obtain ⟨_, rfl⟩ := outcome
    exact ⟨invariant.covered, invariant.zero⟩
  | recheck infoHash =>
    obtain ⟨_, rfl⟩ := outcome
    exact ⟨invariant.covered, invariant.zero⟩
  | finishCheck infoHash =>
    obtain ⟨_, rfl⟩ := outcome
    apply invariant_posted _ _ _ _ _ _ _ invariant
    · exact fun tested here => .inl here
    · intro added number own same
      cases same
    · rintro (here | same)
      · exact invariant.zero (.inl here)
      · cases same
  | handle reads =>
    obtain ⟨alert, rest, store, queue, _, rfl⟩ := outcome
    exact invariant_handled traced alert rest queue store _ invariant

/-- Only the handlers can break the property. -/
theorem forgets_unhandled (traced : Traced) (event : MetadataRuns.Event) (next : Traced)
    (unhandled : ∀ reads, event ≠ .handle reads) (forgets : Forgets conversions traced)
    (stepped : step conversions traced event = some next) : Forgets conversions next := by
  obtain ⟨state, moved, rfl⟩ := Option.map_eq_some_iff.mp stepped
  have outcome := step_cases conversions traced.state event state moved
  cases event with
  | add infoHash hasMetadata metadata =>
    obtain ⟨_, rfl⟩ := outcome
    apply forgets_posted _ _ _ _ _ _ forgets
    · exact fun tested here => .inl ((present_addTo _ _ _ _).mpr (.inr here))
    · intro tested reads own now
      dsimp only [phasesAfter] at now
      split at now
      · exact now
      · by_cases same : tested = infoHash
        · simp [same] at now
        · rwa [Function.update_of_ne same] at now
  | remove infoHash =>
    obtain ⟨_, rfl⟩ := outcome
    apply forgets_posted _ _ _ _ _ _ forgets
    · exact stays_drop traced.state.session infoHash
    · intro tested reads own now
      dsimp only [phasesAfter] at now
      by_cases same : tested = infoHash
      · simp [same] at now
      · rwa [Function.update_of_ne same] at now
  | setProperty infoHash key value =>
    obtain ⟨present, rfl⟩ := outcome
    apply forgets_written traced infoHash _ _ present forgets
    exact writeAll_elsewhere infoHash.text _ _
      (HashUpdates.setProperty_ordinary conversions _ key value)
  | recheck infoHash =>
    obtain ⟨present, rfl⟩ := outcome
    apply forgets_written traced infoHash _ _ present forgets
    exact (setMetadata_frame _ infoHash.text pauseKey _ (by decide)).1
  | finishCheck infoHash =>
    obtain ⟨_, rfl⟩ := outcome
    exact forgets_posted _ _ _ _ (fun _ here => .inl here) (fun _ _ _ now => now) forgets
  | handle reads => exact absurd rfl (unhandled reads)

/-- A finished check writes at most an entry that is there. -/
theorem forgets_checked (traced : Traced) (infoHash : InfoHash) (number : Nat)
    (rest : List MetadataRuns.Alert)
    (queue : traced.state.queued = .torrentChecked infoHash number :: rest) (read : InfoHash)
    (forgets : Forgets conversions traced) :
    Forgets conversions ⟨{ traced.state with
        queued := rest
        store := torrentChecked read.text traced.state.store },
      Function.update traced.phase read (traced.phase read).disturbed⟩ := by
  obtain ⟨elsewhere, absent, _, _⟩ := torrentChecked_frame read.text traced.state.store
  constructor
  · intro tested stored
    have before : (traced.state.store tested).isSome = true := by
      by_cases own : tested = read.text
      · subst own
        by_contra missing
        rw [Option.not_isSome_iff_eq_none] at missing
        simp [absent missing] at stored
      · rw [← elsewhere tested own]
        exact stored
    obtain ⟨torrent, same, known⟩ := forgets.known tested before
    exact ⟨torrent, same, known_handled traced.state _ rest queue torrent (by simp) known⟩
  · intro tested reads metadata now key ordinary
    by_cases own : tested = read
    · subst own
      dsimp only at now
      rw [Function.update_self] at now
      cases phase : traced.phase tested <;> simp [phase, Phase.disturbed] at now
    · exact completed_elsewhere traced read _ _ elsewhere forgets tested own reads metadata now key
        ordinary

section Added

variable (traced : Traced) (infoHash : InfoHash) (number : Nat) (metadata : Option MetadataMap)
  (rest : List MetadataRuns.Alert)
  (queue : traced.state.queued = .torrentAdd infoHash number metadata :: rest) (reads : Reads)
  (admissible : Admissible traced.state.session infoHash number reads)
  (invariant : Invariant traced)
include queue admissible invariant

/-- A handle that expired makes an entry for the zero hash, of which no torrent
is known. -/
theorem reported_of_forgets (phase : InfoHash → Phase)
    (kept : Forgets conversions ⟨{ traced.state with
        queued := rest
        store := addHandlers conversions reads metadata traced.state.store }, phase⟩)
    (returns : Returns conversions reads metadata) : reads.infoHash = infoHash := by
  rcases admissible with own | ⟨_, expired, _⟩
  · exact own
  · obtain ⟨torrent, same, known⟩ := kept.known reads.infoHash.text
      (addHandlers_spec conversions reads metadata traced.state.store returns).2.1
    obtain rfl := (InfoHash.text_inj _ _).mp same
    rw [expired] at known
    refine absurd ?_ invariant.zero
    exact known.imp id fun removed => by rw [queue]; exact List.mem_cons_of_mem _ removed

omit admissible invariant in
/-- The handlers of its add have to leave a new torrent with its completed metadata. -/
theorem settles_of_forgets (own : reads.infoHash = infoHash)
    (current : traced.state.session.Current infoHash number)
    (fresh : traced.phase infoHash = .added)
    (kept : Forgets conversions ⟨{ traced.state with
        queued := rest
        store := addHandlers conversions reads metadata traced.state.store },
      phasesAfter conversions traced (.handle reads)⟩) :
    Settles conversions reads metadata (traced.state.store infoHash.text) := by
  subst own
  intro key ordinary
  have now : phasesAfter conversions traced (.handle reads) reads.infoHash =
      .completed reads metadata := by
    simp [phasesAfter, queue, current, fresh, Phase.afterAdd]
  have written := kept.completed reads.infoHash reads metadata now key ordinary
  dsimp only at written
  by_cases returns : Returns conversions reads metadata
  · rw [if_pos returns]
    intro stored
    obtain ⟨_, _, read⟩ := addHandlers_spec conversions reads metadata traced.state.store returns
    rw [read key ordinary] at written
    by_contra left
    rw [← lookup_isSome_iff, Option.not_isSome_iff_eq_none] at left
    rw [if_neg (by rw [← lookup_isSome_iff, left]; simp), left, Option.bind_none] at written
    simp [written] at stored
  · rw [if_neg returns]
    rwa [addHandlers_throws conversions reads metadata traced.state.store returns] at written

omit queue admissible invariant in
/-- Where they do, what is stored afterwards is the completed metadata. -/
theorem completed_of_settles
    (settles : Settles conversions reads metadata (traced.state.store reads.infoHash.text))
    (key : String) (ordinary : key = "label" → (reads.given conversions).isNone = true) :
    documentOf (addHandlers conversions reads metadata traced.state.store reads.infoHash.text)
      key = ((completion (defaultsOf reads.configured) metadata).lookup key).bind Json.ofValue := by
  have settled := settles key ordinary
  by_cases returns : Returns conversions reads metadata
  · rw [if_pos returns] at settled
    rw [(addHandlers_spec conversions reads metadata traced.state.store returns).2.2 key ordinary]
    split
    · rfl
    · rename_i left
      have missing : documentOf (traced.state.store reads.infoHash.text) key = none := by
        rw [← Option.not_isSome_iff_eq_none]
        exact fun stored => left (settled stored)
      rw [← lookup_isSome_iff, Option.not_isSome_iff_eq_none] at left
      rw [missing, left, Option.bind_none]
  · rw [if_neg returns] at settled
    rw [addHandlers_throws conversions reads metadata traced.state.store returns]
    exact settled

/-- The handlers of an add keep the property exactly when they write under the
hash of the add, or throw, and leave a new torrent with its completed metadata. -/
theorem forgets_added_iff (forgets : Forgets conversions traced) :
    Forgets conversions ⟨{ traced.state with
        queued := rest
        store := addHandlers conversions reads metadata traced.state.store },
      phasesAfter conversions traced (.handle reads)⟩ ↔
    (Returns conversions reads metadata → reads.infoHash = infoHash) ∧
      (traced.state.session.Current infoHash number → traced.phase infoHash = .added →
        Settles conversions reads metadata (traced.state.store infoHash.text)) := by
  have elsewhere := addHandlers_elsewhere conversions reads metadata traced.state.store
  have reported : traced.state.session.Current infoHash number → reads.infoHash = infoHash :=
    fun current => admissible.resolve_right fun expired => expired.1 current
  constructor
  · intro kept
    refine ⟨reported_of_forgets conversions traced infoHash number metadata rest queue reads
      admissible invariant _ kept, fun current fresh => ?_⟩
    exact settles_of_forgets conversions traced infoHash number metadata rest queue reads
      (reported current) current fresh kept
  · rintro ⟨own, settles⟩
    constructor
    · intro tested stored
      have before : (traced.state.store tested).isSome = true →
          ∃ torrent : InfoHash, torrent.text = tested ∧
            Known { traced.state with queued := rest } torrent := by
        intro stored
        obtain ⟨torrent, same, known⟩ := forgets.known tested stored
        exact ⟨torrent, same, known_handled traced.state _ rest queue torrent (by simp) known⟩
      by_cases returns : Returns conversions reads metadata
      · obtain rfl := own returns
        by_cases here : tested = reads.infoHash.text
        · have covered := invariant.covered
          rw [queue] at covered
          exact ⟨reads.infoHash, here.symm, covered.1⟩
        · exact before (by rw [← elsewhere tested here]; exact stored)
      · rw [addHandlers_throws conversions reads metadata traced.state.store returns] at stored ⊢
        exact before stored
    · intro tested others other now key ordinary
      -- Another add leaves the torrent completed only where it throws, and writes nothing.
      have afterOther : (traced.phase reads.infoHash).afterOther conversions reads metadata =
          .completed others other →
          documentOf (addHandlers conversions reads metadata traced.state.store
            reads.infoHash.text) key =
          ((completion (defaultsOf others.configured) other).lookup key).bind Json.ofValue := by
        intro completed
        obtain ⟨throws, held⟩ := Phase.afterOther_completed conversions _ _ _ _ _ completed
        rw [addHandlers_throws conversions reads metadata traced.state.store throws]
        exact forgets.completed _ _ _ held key ordinary
      by_cases here : tested = reads.infoHash
      · subst here
        simp only [phasesAfter, queue, Function.update_self] at now
        split at now
        · rename_i current
          obtain rfl := reported current
          cases fresh : traced.phase reads.infoHash with
          | added =>
            obtain ⟨rfl, rfl⟩ : reads = others ∧ metadata = other := by
              simpa [fresh, Phase.afterAdd] using now
            exact completed_of_settles conversions traced metadata reads (settles current fresh)
              key ordinary
          | completed first source =>
            rw [fresh] at now afterOther
            exact afterOther now
          | written =>
            rw [fresh] at now afterOther
            exact afterOther now
        · exact afterOther now
      · simp only [phasesAfter, queue] at now
        exact completed_elsewhere traced reads.infoHash _ _ elsewhere forgets tested here others
          other now key ordinary

end Added

/-- A step keeps the property exactly when it is clean. -/
theorem forgets_step_iff (traced : Traced) (event : MetadataRuns.Event)
    (invariant : Invariant traced) (forgets : Forgets conversions traced) :
    (∀ next, step conversions traced event = some next → Forgets conversions next) ↔
      Clean conversions traced event := by
  cases event with
  | handle reads =>
    cases queue : traced.state.queued with
    | nil => simp [step, MetadataRuns.step, queue, Clean]
    | cons alert rest =>
      cases alert with
      | torrentAdd infoHash number metadata =>
        by_cases admissible : Admissible traced.state.session infoHash number reads
        · have added := forgets_added_iff conversions traced infoHash number metadata rest
            queue reads admissible invariant forgets
          simp only [step, MetadataRuns.step, queue, MetadataRuns.handle, admissible, if_true,
            Option.map_some, Option.some.injEq, forall_eq', Clean, true_implies]
          exact added
        · simp [step, MetadataRuns.step, queue, MetadataRuns.handle, admissible, Clean]
      | torrentChecked infoHash number =>
        simp only [Clean, queue, iff_true]
        intro next stepped
        obtain ⟨state, moved, rfl⟩ := Option.map_eq_some_iff.mp stepped
        obtain rfl := step_checked conversions traced.state reads queue moved
        simp only [phasesAfter, queue]
        exact forgets_checked conversions traced infoHash number rest queue reads.infoHash forgets
      | torrentRemoved infoHash =>
        have removed := forgets_removed_iff traced infoHash rest queue forgets
        simp only [step, MetadataRuns.step, queue, MetadataRuns.handle, Option.map_some,
          Option.some.injEq, forall_eq', Clean, phasesAfter]
        exact removed
  | _ =>
    refine iff_of_true (fun next stepped => ?_) trivial
    exact forgets_unhandled conversions traced _ next (by simp) forgets stepped

end Steps

end Hadouken.MetadataRemoval
