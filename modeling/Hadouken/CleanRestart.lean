import Hadouken.TorrentsDirectory

/-!
# Metadata across a clean restart

At a shutdown with all alerts handled, metadata reaches the disk only beside
resume data. The next start reads it back into the parameters of each torrent,
and the handler of the add alert stores it again, with default options where it
has none. Finished checks may be handled in between.

The store of the new process starts out empty. Metadata files that a save does
not touch are those an earlier one left. What is read back from a file may have
other numbers than what was written. The handler throws where it cannot log the
default options, and then stores nothing.
-/

namespace Hadouken.CleanRestart

open Files TorrentFiles Script AbortingLoop LoadTorrents SaveTorrents SavedTorrents
  TorrentsDirectory MetadataStore

variable {γ : Type}

/-- The alerts of the new session that write metadata. -/
inductive Posted where
  | torrentAdd (infoHash : InfoHash) (metadata : Option Json)
  | torrentChecked (infoHash : InfoHash)

/-- The alert is about an added torrent. -/
def Posted.isAdd : Posted → Bool
  | .torrentAdd _ _ => true
  | .torrentChecked _ => false

/-- The alert about an added torrent. -/
def posted (params : AddTorrentParams γ) : Option Posted :=
  params.torrent.map fun info => .torrentAdd info.infoHash params.metadata

/-- The handlers of an alert that is posted while torrents are loaded. -/
def handlePosted (conversions : Conversions) (defaultOptions : Value) (store : Store) :
    Posted → Store
  | .torrentAdd infoHash metadata =>
      torrentAdd conversions defaultOptions infoHash.text metadata store
  | .torrentChecked infoHash => torrentChecked infoHash.text store

/-- The store after all alerts of the new session. -/
def reloadedStore (conversions : Conversions) (defaultOptions : Value) (alerts : List Posted) :
    Store :=
  alerts.foldl (handlePosted conversions defaultOptions) fun _ => none

/-- A codec, with what its JSON makes of a document that nests within the engine's
limit: it is read back, but for its numbers, since the digits printed for one may be
read as the number next to it. -/
structure LimitedCodec (γ : Type) extends Codec γ where
  limit : Nat
  reread : ℚ → ℚ
  parseJson_limited : ∀ document, document.toValue.depth ≤ limit →
    parseJson (print document) = some (document.mapNumbers reread)

/-- The object of the map nests within a limit. -/
def Nests (limit : Nat) (map : MetadataMap) : Prop := (Value.object map.values).depth ≤ limit

/-- The same key/value map, the internal key aside. -/
def Same : Value → Value → Prop
  | .object members, .object others =>
      ∀ key, key ≠ pauseKey → members.lookup key = others.lookup key
  | .null, .null => True
  | _, _ => False

/-- What stands at a path is the file of a map that could be encoded, or no file. -/
def IsFileOf (codec : LimitedCodec γ) (node : Option (Node γ)) : Option MetadataMap → Prop
  | none => ∀ content, node ≠ some (.file content)
  | some map => Nests codec.limit map ∧ node = some (.file (some (codec.print map.document)))

/-- The metadata files the next start looks for hold these maps. -/
def Holds (codec : LimitedCodec γ) (torrentsPath : Path) (files : FileSystem γ)
    (maps : InfoHash → Option MetadataMap) : Prop :=
  ∀ infoHash, IsFileOf codec
    (files.lookup (metadataFileOf (torrentFile torrentsPath infoHash))) (maps infoHash)

/-- The torrent's metadata was written beside its resume data, to the path the
next start reads. -/
def Rewritten (torrentsPath : Path) (batches : List (List (SaveAlert γ))) (infoHash : InfoHash) :
    Prop :=
  Answered batches infoHash ∧
    metadataFileOf (torrentFile torrentsPath infoHash) = metadataFile torrentsPath infoHash

/-- The batches are searched. -/
instance (torrentsPath : Path) (batches : List (List (SaveAlert γ))) (infoHash : InfoHash) :
    Decidable (Rewritten torrentsPath batches infoHash) := by
  unfold Rewritten; infer_instance

/-- The maps on disk after the save. -/
def savedMaps (torrentsPath : Path) (store : Store) (batches : List (List (SaveAlert γ)))
    (maps : InfoHash → Option MetadataMap) (infoHash : InfoHash) : Option MetadataMap :=
  if Rewritten torrentsPath batches infoHash then (store infoHash.text).or (maps infoHash)
  else maps infoHash

/-- `saveTorrents` comes to its end: all answers come, and the encoder gets through
what is written of the torrents with answers. -/
structure Ends (codec : LimitedCodec γ) (torrentsPath : Path) (store : Store)
    (torrents : List TorrentEntry) (batches : List (List (SaveAlert γ)))
    (files saved : FileSystem γ) : Prop where
  ended : saveTorrents codec.print store torrentsPath torrents files batches = some saved
  nests : ∀ infoHash, Answered batches infoHash → ∀ map, store infoHash.text = some map →
    Nests codec.limit map

/-- The text that is written is that of the torrent's document. -/
theorem metadataText_eq (print : Json → γ) (store : Store) (infoHash : InfoHash) :
    metadataText print store infoHash =
      (store infoHash.text).map fun map => print map.document := by
  unfold metadataText metadata
  cases store infoHash.text <;> rfl

/-- Saving writes the metadata of the answered torrents and leaves that of the
others. -/
theorem holds_saveTorrents (codec : LimitedCodec γ) (torrentsPath : Path) (store : Store)
    (torrents : List TorrentEntry) (batches : List (List (SaveAlert γ)))
    (files saved : FileSystem γ) (maps : InfoHash → Option MetadataMap)
    (holds : Holds codec torrentsPath files maps)
    (ends : Ends codec torrentsPath store torrents batches files saved) :
    Holds codec torrentsPath saved (savedMaps torrentsPath store batches maps) := by
  intro infoHash
  have before := holds infoHash
  rw [awaitAlerts_eq_foldl codec.print store torrentsPath batches _ saved ends.ended]
  by_cases same : metadataFileOf (torrentFile torrentsPath infoHash) =
      metadataFile torrentsPath infoHash
  · rw [same] at before ⊢
    rw [lookup_metadataFile_foldl, metadataText_eq]
    by_cases answered : Answered batches infoHash
    · have rewritten : Rewritten torrentsPath batches infoHash := ⟨answered, same⟩
      have listed : some infoHash ∈ batches.flatten.map SaveAlert.answers := answered
      rw [savedMaps, if_pos rewritten, if_pos listed]
      cases stored : store infoHash.text with
      | none => exact before
      | some map => exact ⟨ends.nests infoHash answered map stored, rfl⟩
    · have unwritten : ¬ Rewritten torrentsPath batches infoHash := fun rewritten =>
        answered rewritten.1
      have unlisted : some infoHash ∉ batches.flatten.map SaveAlert.answers := answered
      rw [savedMaps, if_neg unwritten, if_neg unlisted]
      exact before
  · have elsewhere : ∀ other, metadataFileOf (torrentFile torrentsPath infoHash) ≠
        metadataFile torrentsPath other := by
      intro other equal
      obtain rfl := metadataFileOf_eq_metadataFile torrentsPath infoHash other equal
      exact same equal
    have unwritten : ¬ Rewritten torrentsPath batches infoHash := fun rewritten =>
      same rewritten.2
    rw [savedMaps, if_neg unwritten, lookup_foldl_of_ne _ _ _ _
      (metadataFileOf_ne_resumeFile torrentsPath infoHash) elsewhere]
    exact before

/-- The parameters of a saved torrent carry the map on disk, as it is read back. -/
theorem metadata_of_readParams (codec : LimitedCodec γ) (defaults : Defaults) (torrentsPath : Path)
    (files : FileSystem γ) (maps : InfoHash → Option MetadataMap)
    (holds : Holds codec torrentsPath files maps) (infoHash : InfoHash)
    (params : AddTorrentParams γ)
    (built : readParams codec.toFormats defaults files (torrentFile torrentsPath infoHash) =
      some params) :
    params.metadata =
      ((maps infoHash).map (MetadataMap.readBack codec.reread)).map MetadataMap.document := by
  obtain ⟨_, read⟩ := readParams_reads _ _ _ _ _ built
  have stands := holds infoHash
  unfold readMetadata at read
  cases own : maps infoHash with
  | none =>
    rw [own] at stands
    have absent : fileExists files (metadataFileOf (torrentFile torrentsPath infoHash)) = false := by
      unfold fileExists
      split
      · rename_i content found
        exact absurd found (stands content)
      · rfl
    simp only [absent] at read
    exact (Option.some.inj read).symm
  | some map =>
    rw [own] at stands
    obtain ⟨nests, found⟩ : Nests codec.limit map ∧
        files.lookup (metadataFileOf (torrentFile torrentsPath infoHash)) =
          some (.file (some (codec.print map.document))) := stands
    have parsed := codec.parseJson_limited map.document (by rwa [map.toValue_document])
    simp only [fileExists, readFile, found, if_true, Option.bind_some, parsed,
      Option.map_some, ← map.document_readBack, MetadataMap.toValue_document] at read
    exact (Option.some.inj read).symm

/-- The handler got past the default options, and the metadata in the store is the
completion of these data, the internal key aside. -/
def Loaded (conversions : Conversions) (options : Members) (source map : Option MetadataMap) :
    Prop :=
  Completes conversions options source ∧ map.isSome = true ∧
    ∀ key, key ≠ pauseKey → valueOf map key = (completion options source).lookup key

/-- The handler of the add alert loads the completion where it returns, and touches
no other torrent. -/
theorem torrentAdd_loaded (conversions : Conversions) (defaultOptions : Value) (options : Members)
    (defaulted : defaultedOptions defaultOptions = some options)
    (plain : Json.Plain (.object options)) (source : Option MetadataMap)
    (returns : Completes conversions options source) (infoHash : String) (store : Store)
    (prior : store infoHash = none ∨ Loaded conversions options source (store infoHash)) :
    (∀ other ≠ infoHash, torrentAdd conversions defaultOptions infoHash
      (source.map MetadataMap.document) store other = store other) ∧
    Loaded conversions options source (torrentAdd conversions defaultOptions infoHash
      (source.map MetadataMap.document) store infoHash) := by
  obtain ⟨elsewhere, held, read⟩ := torrentAdd_spec conversions defaultOptions options defaulted
    plain source returns infoHash store
  refine ⟨elsewhere, returns, held, ?_⟩
  intro key ordinaryKey
  rw [valueOf, read]
  by_cases written : key ∈ (completion options source).map Prod.fst
  · obtain ⟨value, document, found, encoded, decoded⟩ :=
      completion_encodable options plain source key written
    rw [if_pos written, found, Option.bind_some, encoded, Option.map_some, decoded]
  · have absent : (completion options source).lookup key = none := by
      rw [← Option.not_isSome_iff_eq_none, lookup_isSome_iff]
      exact written
    rw [if_neg written, absent]
    rcases prior with none | loaded
    · rw [none]
      rfl
    · rw [← absent]
      exact loaded.2.2 key ordinaryKey

section Reloading

variable (conversions : Conversions) (defaultOptions : Value) (options : Members)
  (defaulted : defaultedOptions defaultOptions = some options)
  (plain : Json.Plain (.object options)) (source : InfoHash → Option MetadataMap)
include defaulted plain

/-- One alert loads the torrent it adds, unless its handler throws, and keeps what is
loaded and what is not there yet. -/
theorem handlePosted_loaded (store : Store) (alert : Posted)
    (own : ∀ infoHash metadata, alert = .torrentAdd infoHash metadata →
      metadata = (source infoHash).map MetadataMap.document)
    (prior : ∀ infoHash : InfoHash, store infoHash.text = none ∨
      Loaded conversions options (source infoHash) (store infoHash.text)) (infoHash : InfoHash) :
    (handlePosted conversions defaultOptions store alert infoHash.text = none ∨
      Loaded conversions options (source infoHash)
        (handlePosted conversions defaultOptions store alert infoHash.text)) ∧
    ((Completes conversions options (source infoHash) ∧
          ∃ metadata, alert = .torrentAdd infoHash metadata) ∨
        Loaded conversions options (source infoHash) (store infoHash.text) →
      Loaded conversions options (source infoHash)
        (handlePosted conversions defaultOptions store alert infoHash.text)) := by
  cases alert with
  | torrentAdd added metadata =>
    obtain rfl := own added metadata rfl
    by_cases returns : Completes conversions options (source added)
    · obtain ⟨elsewhere, loaded⟩ := torrentAdd_loaded conversions defaultOptions options defaulted
        plain (source added) returns added.text store (prior added)
      by_cases same : infoHash = added
      · subst same
        exact ⟨.inr loaded, fun _ => loaded⟩
      · have distinct : infoHash.text ≠ added.text := InfoHash.text_ne same
        rw [handlePosted, elsewhere _ distinct]
        refine ⟨prior infoHash, ?_⟩
        rintro (⟨_, _, equal⟩ | loaded)
        · cases equal
          exact absurd rfl same
        · exact loaded
    · rw [handlePosted, torrentAdd_throws conversions defaultOptions options defaulted _ returns]
      refine ⟨prior infoHash, ?_⟩
      rintro (⟨completes, _, equal⟩ | loaded)
      · cases equal
        exact absurd completes returns
      · exact loaded
  | torrentChecked checked =>
    obtain ⟨elsewhere, absent, held, frame⟩ := torrentChecked_frame checked.text store
    by_cases same : infoHash = checked
    · subst same
      have keeps : Loaded conversions options (source infoHash) (store infoHash.text) →
          Loaded conversions options (source infoHash)
            (torrentChecked infoHash.text store infoHash.text) := by
        rintro ⟨completes, present, agreeing⟩
        refine ⟨completes, held present, fun key ordinary => ?_⟩
        rw [valueOf, frame key ordinary, ← agreeing key ordinary, valueOf]
      refine ⟨(prior infoHash).imp absent keeps, ?_⟩
      rintro (⟨_, _, equal⟩ | loaded)
      · cases equal
      · exact keeps loaded
    · have distinct : infoHash.text ≠ checked.text := InfoHash.text_ne same
      rw [handlePosted, elsewhere _ distinct]
      refine ⟨prior infoHash, ?_⟩
      rintro (⟨_, _, equal⟩ | loaded)
      · cases equal
      · exact loaded

/-- All alerts together load every torrent that is added and whose handler returns,
and nothing else. The induction keeps each torrent either loaded or not there yet. -/
theorem foldl_loaded (alerts : List Posted)
    (own : ∀ infoHash metadata, .torrentAdd infoHash metadata ∈ alerts →
      metadata = (source infoHash).map MetadataMap.document)
    (store : Store)
    (prior : ∀ infoHash : InfoHash, store infoHash.text = none ∨
      Loaded conversions options (source infoHash) (store infoHash.text)) (infoHash : InfoHash) :
    let after := alerts.foldl (handlePosted conversions defaultOptions) store
    (after infoHash.text = none ∨
      Loaded conversions options (source infoHash) (after infoHash.text)) ∧
    ((Completes conversions options (source infoHash) ∧
          ∃ metadata, .torrentAdd infoHash metadata ∈ alerts) ∨
        Loaded conversions options (source infoHash) (store infoHash.text) →
      Loaded conversions options (source infoHash) (after infoHash.text)) := by
  induction alerts generalizing store with
  | nil =>
    refine ⟨prior infoHash, ?_⟩
    rintro (⟨_, _, member⟩ | loaded)
    · cases member
    · exact loaded
  | cons alert rest ih =>
    have first := handlePosted_loaded conversions defaultOptions options defaulted plain source
      store alert
      (fun infoHash metadata same => own infoHash metadata (same ▸ List.mem_cons_self)) prior
    obtain ⟨kept, loads⟩ := ih
      (fun infoHash metadata member => own infoHash metadata (List.mem_cons_of_mem _ member))
      _ fun infoHash => (first infoHash).1
    refine ⟨kept, fun added => loads ?_⟩
    rcases added with ⟨completes, metadata, member⟩ | loaded
    · rcases List.mem_cons.mp member with here | later
      · exact .inr ((first infoHash).2 (.inl ⟨completes, metadata, here.symm⟩))
      · exact .inl ⟨completes, metadata, later⟩
    · exact .inr ((first infoHash).2 (.inr loaded))

end Reloading

/-- The alerts of the new session: one for each added torrent, in their order,
and finished checks in between. -/
def PostedBy (added : List (AddTorrentParams γ)) (alerts : List Posted) : Prop :=
  alerts.filter Posted.isAdd = added.filterMap posted

/-- What the map has under a key is what the completion has, for all keys but
the internal one: the options are those on disk or the default ones, and the
rest is on disk. -/
def CompletedBy (options : Members) (map source : Option MetadataMap) : Prop :=
  (∀ key, key ≠ pauseKey → key ≠ "options" → valueOf map key = valueOf source key) ∧
    valueOf map "options" =
      if HasOptions source then valueOf source "options" else some (.object options)

/-- The numbers under all keys but the internal one are read back as they were. -/
def ReadAlike (reread : ℚ → ℚ) (map : Option MetadataMap) : Prop :=
  ∀ key, key ≠ pauseKey → (valueOf map key).map (Value.mapNumbers reread) = valueOf map key

/-- The metadata of a torrent comes back. Where the handler of its add gets past the
default options, the torrent has metadata, and either they were rewritten, have
options and are read back as written, or the file of an earlier save, completed with
the default options, is still up to date. Where that handler throws, the torrent had
none. -/
def Retrieved (reread : ℚ → ℚ) (conversions : Conversions) (torrentsPath : Path) (store : Store)
    (batches : List (List (SaveAlert γ))) (maps : InfoHash → Option MetadataMap)
    (options : Members) (infoHash : InfoHash) : Prop :=
  if Completes conversions options
      ((savedMaps torrentsPath store batches maps infoHash).map (MetadataMap.readBack reread)) then
    (store infoHash.text).isSome = true ∧
      if Rewritten torrentsPath batches infoHash then
        HasOptions (store infoHash.text) ∧ ReadAlike reread (store infoHash.text)
      else CompletedBy options (store infoHash.text)
          ((maps infoHash).map (MetadataMap.readBack reread))
  else store infoHash.text = none

/-- The completion of the saved data is the map before exactly when the data
retrieve it. -/
theorem completion_eq_iff (options : Members) (map source : Option MetadataMap) :
    (∀ key, key ≠ pauseKey → valueOf map key = (completion options source).lookup key) ↔
      CompletedBy options map source := by
  have own : ∀ key, ((source.map MetadataMap.values).getD []).lookup key = valueOf source key := by
    intro key
    cases source with
    | none => rfl
    | some map => exact lookup_values_eq map key
  have lookups : ∀ key, (completion options source).lookup key =
      if key = "options" then
        if HasOptions source then valueOf source "options" else some (.object options)
      else valueOf source key := by
    intro key
    unfold completion
    by_cases has : HasOptions source
    · by_cases here : key = "options" <;> simp [has, own, here]
    · by_cases here : key = "options" <;> simp [has, own, here]
  simp only [lookups]
  constructor
  · intro agreeing
    refine ⟨fun key ordinary other => ?_, ?_⟩
    · rw [agreeing key ordinary, if_neg other]
    · rw [agreeing "options" (by decide), if_pos rfl]
  · rintro ⟨others, same⟩ key ordinary
    by_cases here : key = "options"
    · subst here
      rw [if_pos rfl, same]
    · rw [if_neg here, others key ordinary here]

/-- What is read back of a map completes it exactly when the map has options, and its
numbers are read back as they were. -/
theorem completedBy_readBack_iff (reread : ℚ → ℚ) (options : Members) (map : Option MetadataMap) :
    CompletedBy options map (map.map (MetadataMap.readBack reread)) ↔
      HasOptions map ∧ ReadAlike reread map := by
  unfold CompletedBy ReadAlike
  simp only [valueOf_readBack]
  have kept : (valueOf map "options").map (Value.mapNumbers reread) = valueOf map "options" →
      (HasOptions (map.map (MetadataMap.readBack reread)) ↔ HasOptions map) := by
    intro same
    rw [HasOptions, HasOptions, valueOf_readBack, same]
  constructor
  · rintro ⟨others, same⟩
    by_cases has : HasOptions (map.map (MetadataMap.readBack reread))
    · rw [if_pos has] at same
      refine ⟨(kept same.symm).mp has, fun key ordinary => ?_⟩
      by_cases options : key = "options"
      · subst options
        exact same.symm
      · exact (others key ordinary options).symm
    · -- The default options would be stored, and an object is read back as an object.
      rw [if_neg has] at same
      apply absurd _ has
      rw [HasOptions, valueOf_readBack, same]
      rfl
  · rintro ⟨has, alike⟩
    refine ⟨fun key ordinary _ => (alike key ordinary).symm, ?_⟩
    have same := alike "options" (by decide)
    rw [if_pos ((kept same).mpr has), same]

section Restart

variable (codec : LimitedCodec γ) (conversions : Conversions) (defaults : Defaults)
  (defaultOptions : Value)
  (configured : defaultOptions = .undefined ∨ Json.Plain defaultOptions)
  (torrentsPath : Path) (session : Session) (files : FileSystem γ)
  (agreed : Agrees session (saved torrentsPath files))
  (sound : Sound codec.toCodec torrentsPath files)
  (maps : InfoHash → Option MetadataMap) (holds : Holds codec torrentsPath files maps)
  (store : Store) (torrents : List TorrentEntry) (batches : List (List (SaveAlert γ)))
  (savedFiles : FileSystem γ)
  (ends : Ends codec torrentsPath store torrents batches files savedFiles)
  (listing : List Path) (listed : Lists listing torrentsPath savedFiles) (alerts : List Posted)
  (handled : PostedBy
    (effects (loadTorrent codec.toFormats defaults savedFiles) listing).flatten alerts)
include configured agreed sound holds ends listed handled

/-- The alerts of the new session load every torrent from the maps on disk, but for
those whose handler throws: they store nothing. -/
theorem reloadedStore_loaded (infoHash : InfoHash)
    (present : session.hasMetadata infoHash = some true) :
    let source := (savedMaps torrentsPath store batches maps infoHash).map
      (MetadataMap.readBack codec.reread)
    let after := reloadedStore conversions defaultOptions alerts infoHash.text
    (after = none ∨ Loaded conversions (defaultsOf defaultOptions) source after) ∧
      (Completes conversions (defaultsOf defaultOptions) source →
        Loaded conversions (defaultsOf defaultOptions) source after) := by
  obtain ⟨defaulted, plain⟩ := defaultsOf_spec defaultOptions configured
  have soundSaved := sound_saveTorrents codec.toCodec store torrentsPath torrents files savedFiles
    batches sound ends.ended
  have holdsSaved := holds_saveTorrents codec torrentsPath store torrents batches files savedFiles
    maps holds ends
  have adds : ∀ added metadata, .torrentAdd added metadata ∈ alerts ↔ ∃ params,
      (∃ infoHash, saved torrentsPath savedFiles infoHash = true ∧
        readParams codec.toFormats defaults savedFiles (torrentFile torrentsPath infoHash) =
          some params) ∧ posted params = some (.torrentAdd added metadata) := by
    intro added metadata
    have filtered : Posted.torrentAdd added metadata ∈ alerts ↔
        Posted.torrentAdd added metadata ∈ alerts.filter Posted.isAdd := by
      simp [List.mem_filter, Posted.isAdd]
    rw [filtered, handled, List.mem_filterMap]
    simp only [added_iff_saved codec.toCodec defaults torrentsPath savedFiles listing soundSaved listed]
  have postedOf : ∀ infoHash params, saved torrentsPath savedFiles infoHash = true →
      readParams codec.toFormats defaults savedFiles (torrentFile torrentsPath infoHash) =
        some params →
      posted params = some (.torrentAdd infoHash
        (((savedMaps torrentsPath store batches maps infoHash).map
          (MetadataMap.readBack codec.reread)).map MetadataMap.document)) := by
    intro infoHash params there built
    rw [posted, torrent_of_readParams codec.toCodec defaults torrentsPath savedFiles soundSaved infoHash
      there params built, Option.map_some, codec.info_infoHash,
      metadata_of_readParams codec defaults torrentsPath savedFiles _ holdsSaved infoHash params
        built]
  obtain ⟨kept, loads⟩ := foldl_loaded conversions defaultOptions _ defaulted plain
    (fun infoHash => (savedMaps torrentsPath store batches maps infoHash).map
      (MetadataMap.readBack codec.reread)) alerts
    (fun added metadata member => by
      obtain ⟨params, ⟨other, there, built⟩, same⟩ := (adds added metadata).mp member
      rw [postedOf other params there built] at same
      cases same
      rfl) (fun _ => none) (fun _ => .inl rfl) infoHash
  refine ⟨kept, fun completes => loads (.inl ⟨completes, ?_⟩)⟩
  have there : saved torrentsPath savedFiles infoHash = true := by
    rw [saved, fileExists, lookup_torrentFile_saveTorrents _ _ _ _ _ _ _ infoHash ends.ended]
    exact (agreed infoHash).mpr present
  obtain ⟨params, built⟩ := Option.isSome_iff_exists.mp
    ((readParams_isSome_iff codec.toFormats defaults savedFiles _).mpr
      (wellFormed_of_sound codec.toCodec torrentsPath savedFiles soundSaved infoHash there))
  exact ⟨_, (adds _ _).mpr ⟨params, ⟨infoHash, there, built⟩,
    postedOf infoHash params there built⟩⟩

/-- One torrent has its metadata back exactly when they are retrieved. -/
theorem same_iff_retrieved (infoHash : InfoHash)
    (present : session.hasMetadata infoHash = some true) :
    Same (metadata store infoHash.text)
        (metadata (reloadedStore conversions defaultOptions alerts) infoHash.text) ↔
      Retrieved codec.reread conversions torrentsPath store batches maps
        (defaultsOf defaultOptions) infoHash := by
  obtain ⟨kept, loads⟩ := reloadedStore_loaded codec conversions defaults defaultOptions
    configured torrentsPath session files agreed sound maps holds store torrents batches savedFiles
    ends listing listed alerts handled infoHash present
  unfold Retrieved metadata
  by_cases completes : Completes conversions (defaultsOf defaultOptions)
      ((savedMaps torrentsPath store batches maps infoHash).map
        (MetadataMap.readBack codec.reread))
  · obtain ⟨_, there, loaded⟩ := loads completes
    obtain ⟨after, reloaded⟩ := Option.isSome_iff_exists.mp there
    rw [reloaded] at loaded
    rw [if_pos completes, reloaded]
    cases before : store infoHash.text with
    | none => simp [Same]
    | some map =>
      have completed := completion_eq_iff (defaultsOf defaultOptions) (some map)
        ((savedMaps torrentsPath store batches maps infoHash).map
          (MetadataMap.readBack codec.reread))
      have compared : Same (.object map.values) (.object after.values) ↔
          CompletedBy (defaultsOf defaultOptions) (some map)
            ((savedMaps torrentsPath store batches maps infoHash).map
              (MetadataMap.readBack codec.reread)) := by
        rw [← completed]
        simp only [Same, lookup_values_eq]
        constructor
        · intro agreeing key ordinary
          rw [agreeing key ordinary, loaded key ordinary]
        · intro agreeing key ordinary
          rw [agreeing key ordinary, loaded key ordinary]
      rw [compared, savedMaps, before]
      by_cases rewritten : Rewritten torrentsPath batches infoHash
      · rw [if_pos rewritten, if_pos rewritten, Option.some_or, completedBy_readBack_iff]
        simp
      · simp [rewritten]
  · -- A handler that throws leaves the new store without the torrent.
    have empty : reloadedStore conversions defaultOptions alerts infoHash.text = none :=
      kept.resolve_right fun loaded => completes loaded.1
    rw [if_neg completes, empty]
    cases before : store infoHash.text with
    | none => simp [Same]
    | some map => simp [Same]

end Restart

/-- Alerts about the added torrents alone, in their order, are posted so. -/
theorem postedBy_added (added : List (AddTorrentParams γ)) :
    PostedBy added (added.filterMap posted) := by
  rw [PostedBy, List.filter_eq_self]
  intro alert member
  obtain ⟨params, _, same⟩ := List.mem_filterMap.mp member
  obtain ⟨info, _, rfl⟩ := Option.map_eq_some_iff.mp same
  rfl

section Labelled

/-- A session of one torrent with metadata. -/
def single : Session where
  hasMetadata infoHash := if infoHash = .zero then some true else none
  removals _ := 0

/-- Its torrent file, and no companion. -/
def singleFile : FileSystem (InfoHash ⊕ Json) :=
  writeFile [] (torrentFile [] .zero) (generated.content .zero)

/-- The contents with the engine's limit; no number is read as another. -/
def generatedLimited : LimitedCodec (InfoHash ⊕ Json) where
  toCodec := generated
  limit := 1000
  reread := id
  parseJson_limited document _ := congrArg some document.mapNumbers_id.symm

/-- A label, and options. -/
def labelled : MetadataMap where
  entries := [("label", .string "linux"), ("options", .object [])]
  nodup := by decide
  ordinary := by decide

/-- A torrent with a label. -/
def labelledStore : Store := fun infoHash => if infoHash = InfoHash.zero.text then some labelled else none

/-- What is stored is nested in one object. -/
theorem nests_labelledStore (infoHash : String) (map : MetadataMap)
    (held : labelledStore infoHash = some map) : Nests generatedLimited.limit map := by
  unfold labelledStore at held
  split at held
  · obtain rfl := Option.some.inj held
    show _ ≤ 1000
    decide
  · cases held

/-- The torrent's file is all there is. -/
theorem agrees_single : Agrees single (saved [] singleFile) := by
  intro infoHash
  rw [saved, singleFile, fileExists_writeFile]
  by_cases same : infoHash = .zero <;> simp [single, same, fileExists]

/-- The directory was written by the program. -/
theorem sound_singleFile : Sound generated [] singleFile :=
  sound_writeTorrent generated [] [] (sound_nil generated []) .zero

/-- It holds the torrent without companions. -/
theorem holds_singleFile : Holds generatedLimited [] singleFile fun _ => none := by
  intro infoHash content found
  rw [singleFile, writeFile, lookup_assign,
    if_neg (metadataFileOf_ne_torrentFile [] infoHash .zero)] at found
  cases found

end Labelled

end Hadouken.CleanRestart
