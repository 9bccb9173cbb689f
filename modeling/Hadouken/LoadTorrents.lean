import Hadouken.Library.AbortingLoop
import Hadouken.Library.Json
import Hadouken.Library.ValueStack
import Hadouken.TorrentFiles

/-!
# Loading the saved torrents

`loadTorrents` of core.js goes through the torrents directory and adds each
torrent with its companions. Three operations of one entry can throw, and
nothing catches what they throw before the end of `load`, so that an entry can
cut short the loop and everything after it.

The parsers are parameters, over contents of any type. The phases of `load`
around the loop are observed only in whether they return, and so are `rss.load`
and the plugins.
-/

namespace Hadouken.LoadTorrents

open Files TorrentFiles Script AbortingLoop

variable {γ : Type}

/-- What a torrent file gives. -/
structure TorrentInfo where
  infoHash : InfoHash
  name : String
deriving DecidableEq

/-- The `TorrentInfo` constructor and `JSON.parse` on the content of a file.
Neither has a result where it throws. -/
structure Formats (γ : Type) where
  torrentInfo : γ → Option TorrentInfo
  parseJson : γ → Option Json

/-- What a torrent is added with. -/
structure AddTorrentParams (γ : Type) where
  flags : Nat
  savePath : String
  sparseMode : Bool
  torrent : Option TorrentInfo
  metadata : Option Json
  resumeData : Option γ

/-- What the defaults of new parameters depend on: the library's own flags, and
two entries of the configuration. -/
structure Defaults where
  flags : Nat
  defaultSavePath : Option String
  sparse : Bool

/-- `AddTorrentParams.getDefault` of bittorrent.js. -/
def getDefault (defaults : Defaults) : AddTorrentParams γ where
  flags := defaults.flags ||| 0x1000
  savePath :=
    match defaults.defaultSavePath with
    | some path => if path = "" then "." else path
    | none => "."
  sparseMode := defaults.sparse || true
  torrent := none
  metadata := none
  resumeData := none

/-- The save path after `if(given) { p.savePath = given; }`. The native setter
takes strings only. -/
def overrideSavePath (given : Value) (initial : String) : Option String :=
  if given.truthy then
    match given with
    | .string path => some (ValueStack.cString path)
    | _ => none
  else some initial

/-- A save path is overridden by a text, or by nothing. -/
theorem overrideSavePath_isSome_iff (given : Value) (initial : String) :
    (overrideSavePath given initial).isSome = true ↔
      (given.truthy = true → ∃ path, given = .string path) := by
  by_cases present : given.truthy = true
  · cases given <;> simp [overrideSavePath, Value.truthy] at present ⊢ <;> simp [present]
  · simp [overrideSavePath, present]

/-- `new bt.TorrentInfo(file)`, which throws on what is no readable torrent. -/
def readTorrent (formats : Formats γ) (files : FileSystem γ) (file : Path) : Option TorrentInfo :=
  match files.lookup file with
  | some (.file (some content)) => formats.torrentInfo content
  | _ => none

/-- The metadata of an entry, if it has a metadata file. An empty file reads as
`undefined`, on which `JSON.parse` throws. The value is stored as the document
the engine encodes it to. -/
def readMetadata (formats : Formats γ) (files : FileSystem γ) (file : Path) : Option (Option Json) :=
  let metadataFile := metadataFileOf file
  if fileExists files metadataFile then
    (readFile files metadataFile).bind fun data =>
      (formats.parseJson data).map fun document => Json.ofValue document.toValue
  else some none

/-- The resume data of an entry, if it has a resume file. An empty file reads as
`undefined`, which the native setter refuses. -/
def readResume (files : FileSystem γ) (file : Path) : Option (Option γ) :=
  let resumeFile := resumeFileOf file
  if fileExists files resumeFile then (readFile files resumeFile).map some else some none

/-- The parameters built for an entry, if none of its operations throws. -/
def readParams (formats : Formats γ) (defaults : Defaults) (files : FileSystem γ) (file : Path) :
    Option (AddTorrentParams γ) := do
  let params : AddTorrentParams γ := getDefault defaults
  let torrent ← readTorrent formats files file
  let metadata ← readMetadata formats files file
  let resumeData ← readResume files file
  return { params with torrent := some torrent, metadata := metadata, resumeData := resumeData }

/-- The body of the loop: the calls of `session.addTorrent` it makes. -/
def loadTorrent (formats : Formats γ) (defaults : Defaults) (files : FileSystem γ) (file : Path) :
    Iteration (AddTorrentParams γ) :=
  if !isTorrentFile file then ⟨[], true⟩
  else
    match readParams formats defaults files file with
    | some params => ⟨[params], true⟩
    | none => ⟨[], false⟩

/-- What `load` does from the torrents on. -/
inductive Action (γ : Type) where
  | addTorrent (params : AddTorrentParams γ)
  | loadRss
  | loadPlugins
  | tick

/-- The phases of `load` around the loop: whether everything before it returns,
and whether `rss.load` and the plugins' `load` do. -/
structure Phases where
  settings : Bool
  rss : Bool
  plugins : Bool

/-- `load`, over a listing of the torrents directory. -/
def load (formats : Formats γ) (defaults : Defaults) (phases : Phases) (files : FileSystem γ)
    (listing : List Path) : List (Action γ) :=
  let body := loadTorrent formats defaults files
  if phases.settings then
    (effects body listing).flatten.map Action.addTorrent ++
      if completes body listing then
        .loadRss :: if phases.rss then
          .loadPlugins :: if phases.plugins then [.tick] else []
        else []
      else []
  else []

/-- The torrent file of the entry is valid, and each of its companions is absent
or well-formed. -/
structure WellFormed (formats : Formats γ) (files : FileSystem γ) (file : Path) : Prop where
  torrent : ∃ info, readTorrent formats files file = some info
  metadata : fileExists files (metadataFileOf file) = true →
    ∃ data document, readFile files (metadataFileOf file) = some data ∧
      formats.parseJson data = some document
  resume : fileExists files (resumeFileOf file) = true →
    ∃ data, readFile files (resumeFileOf file) = some data

/-- The parameters of an entry are built exactly when it is well-formed. -/
theorem readParams_isSome_iff (formats : Formats γ) (defaults : Defaults) (files : FileSystem γ)
    (file : Path) :
    (readParams formats defaults files file).isSome = true ↔ WellFormed formats files file := by
  have metadata : (readMetadata formats files file).isSome = true ↔
      (fileExists files (metadataFileOf file) = true →
        ∃ data document, readFile files (metadataFileOf file) = some data ∧
          formats.parseJson data = some document) := by
    unfold readMetadata
    by_cases present : fileExists files (metadataFileOf file) = true
    · cases data : readFile files (metadataFileOf file) with
      | none => simp [present, data]
      | some text => simp [present, data, Option.isSome_iff_exists]
    · simp [present]
  have resume : (readResume files file).isSome = true ↔
      (fileExists files (resumeFileOf file) = true →
        ∃ data, readFile files (resumeFileOf file) = some data) := by
    unfold readResume
    by_cases present : fileExists files (resumeFileOf file) = true
    · simp [present, Option.isSome_iff_exists]
    · simp [present]
  have all : (readParams formats defaults files file).isSome = true ↔
      (readTorrent formats files file).isSome = true ∧
        (readMetadata formats files file).isSome = true ∧
        (readResume files file).isSome = true := by
    unfold readParams
    cases readTorrent formats files file with
    | none => simp
    | some info =>
      cases readMetadata formats files file with
      | none => simp
      | some data => cases readResume files file <;> simp
  rw [all, metadata, resume, Option.isSome_iff_exists]
  constructor
  · rintro ⟨torrent, metadata, resume⟩
    exact ⟨torrent, metadata, resume⟩
  · rintro ⟨torrent, metadata, resume⟩
    exact ⟨torrent, metadata, resume⟩

/-- The parameters hold what the entry's files were read as. -/
theorem readParams_reads (formats : Formats γ) (defaults : Defaults) (files : FileSystem γ)
    (file : Path) (params : AddTorrentParams γ)
    (built : readParams formats defaults files file = some params) :
    readTorrent formats files file = params.torrent ∧
      readMetadata formats files file = some params.metadata := by
  unfold readParams at built
  cases torrent : readTorrent formats files file with
  | none => simp [torrent] at built
  | some info =>
    cases metadata : readMetadata formats files file with
    | none => simp [torrent, metadata] at built
    | some data =>
      cases resume : readResume files file with
      | none => simp [torrent, metadata, resume] at built
      | some buffer =>
        simp only [torrent, metadata, resume, Option.bind_eq_bind, Option.bind_some] at built
        obtain rfl := Option.some.inj built
        exact ⟨rfl, rfl⟩

/-- The loop goes on after an entry that is no torrent file or is well-formed. -/
theorem loadTorrent_goesOn_iff (formats : Formats γ) (defaults : Defaults) (files : FileSystem γ)
    (file : Path) :
    (loadTorrent formats defaults files file).goesOn = true ↔
      (isTorrentFile file = true → WellFormed formats files file) := by
  rw [← readParams_isSome_iff formats defaults files file]
  unfold loadTorrent
  by_cases torrent : isTorrentFile file = true
  · cases built : readParams formats defaults files file <;> simp [torrent]
  · simp [torrent]

/-- The loop runs to its end exactly when each torrent file it lists is
well-formed. -/
theorem completes_iff (formats : Formats γ) (defaults : Defaults) (files : FileSystem γ)
    (listing : List Path) :
    completes (loadTorrent formats defaults files) listing = true ↔
      ∀ file ∈ listing, isTorrentFile file = true → WellFormed formats files file := by
  simp only [completes, List.all_eq_true, loadTorrent_goesOn_iff]

/-- A loop that completes has added every torrent file it lists. -/
theorem mem_effects_of_completes (formats : Formats γ) (defaults : Defaults) (files : FileSystem γ)
    (listing : List Path)
    (complete : completes (loadTorrent formats defaults files) listing = true)
    (params : AddTorrentParams γ) :
    params ∈ (effects (loadTorrent formats defaults files) listing).flatten ↔
      ∃ file ∈ listing, isTorrentFile file = true ∧
        readParams formats defaults files file = some params := by
  rw [effects_of_completes _ listing complete]
  simp only [List.mem_flatten, List.mem_map]
  constructor
  · rintro ⟨_, ⟨file, listed, rfl⟩, member⟩
    refine ⟨file, listed, ?_⟩
    unfold loadTorrent at member
    by_cases torrent : isTorrentFile file = true
    · cases built : readParams formats defaults files file with
      | none => simp [torrent, built] at member
      | some own =>
        obtain rfl : params = own := by simpa [torrent, built] using member
        exact ⟨torrent, rfl⟩
    · simp [torrent] at member
  · rintro ⟨file, listed, torrent, built⟩
    refine ⟨_, ⟨file, listed, rfl⟩, ?_⟩
    simp [loadTorrent, torrent, built]

/-- Each well-formed entry is added whatever the others are, and the phases
after the loop are reached. -/
def Isolated (formats : Formats γ) (defaults : Defaults) (phases : Phases) (files : FileSystem γ)
    (listing : List Path) : Prop :=
  (∀ file ∈ listing, isTorrentFile file = true → WellFormed formats files file →
    ∃ params, readParams formats defaults files file = some params ∧
      .addTorrent params ∈ load formats defaults phases files listing) ∧
  .loadRss ∈ load formats defaults phases files listing ∧
  .loadPlugins ∈ load formats defaults phases files listing ∧
  .tick ∈ load formats defaults phases files listing

/-- One entry that is not well-formed is enough to lose what comes after it:
the entries are isolated from one another exactly when all torrent files are
well-formed and the phases around the loop return. -/
theorem isolated_iff_all_wellFormed (formats : Formats γ) (defaults : Defaults) (phases : Phases)
    (files : FileSystem γ) (listing : List Path) :
    Isolated formats defaults phases files listing ↔
      (phases.settings = true ∧ phases.rss = true ∧ phases.plugins = true) ∧
        ∀ file ∈ listing, isTorrentFile file = true → WellFormed formats files file := by
  rw [← completes_iff formats defaults files listing]
  constructor
  · rintro ⟨_, _, _, ticking⟩
    unfold load at ticking
    cases settings : phases.settings <;> cases rss : phases.rss <;>
      cases plugins : phases.plugins <;>
      by_cases complete : completes (loadTorrent formats defaults files) listing = true <;>
      simp [settings, rss, plugins, complete] at ticking ⊢
  · rintro ⟨⟨settings, rss, plugins⟩, complete⟩
    refine ⟨?_, ?_, ?_, ?_⟩
    · intro file listed torrent wellFormed
      obtain ⟨params, built⟩ := Option.isSome_iff_exists.mp
        ((readParams_isSome_iff formats defaults files file).mpr wellFormed)
      refine ⟨params, built, ?_⟩
      have added := (mem_effects_of_completes formats defaults files listing complete params).mpr
        ⟨file, listed, torrent, built⟩
      rw [load, if_pos settings]
      exact List.mem_append_left _ (List.mem_map_of_mem added)
    · simp [load, settings, rss, plugins, complete]
    · simp [load, settings, rss, plugins, complete]
    · simp [load, settings, rss, plugins, complete]

/-- One content, which makes a torrent and is no JSON. -/
def torrentOnly : Formats Unit where
  torrentInfo _ := some ⟨.zero, "torrent"⟩
  parseJson _ := none

/-- A directory with an empty torrent file and a valid one. -/
def truncated : FileSystem Unit :=
  [("t/a.torrent".toList, .file none), ("t/b.torrent".toList, .file (some ()))]

/-- The empty torrent file, listed first, keeps the valid one from being added. -/
theorem truncated_entry_not_isolated :
    ¬ Isolated torrentOnly ⟨0, none, false⟩ ⟨true, true, true⟩ truncated
      ["t/a.torrent".toList, "t/b.torrent".toList] := by
  have empty : readTorrent torrentOnly truncated "t/a.torrent".toList = none := by decide
  have incomplete : ¬ completes (loadTorrent torrentOnly ⟨0, none, false⟩ truncated)
      ["t/a.torrent".toList, "t/b.torrent".toList] = true := by
    rw [completes_iff]
    intro wellFormed
    obtain ⟨info, read⟩ := (wellFormed _ List.mem_cons_self (by decide)).torrent
    rw [empty] at read
    cases read
  rintro ⟨_, _, _, ticking⟩
  rw [load, if_pos rfl, if_neg incomplete, List.append_nil] at ticking
  obtain ⟨_, _, impossible⟩ := List.mem_map.mp ticking
  cases impossible

end Hadouken.LoadTorrents
