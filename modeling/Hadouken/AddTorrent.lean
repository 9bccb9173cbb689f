import Hadouken.Library.LexicalPaths
import Hadouken.Library.ValueStack
import Hadouken.LoadTorrents
import Mathlib.Data.Nat.Bitwise

/-!
# Adding a torrent from the web interface

`webui.addTorrent` builds the parameters of a torrent from what a client sends.
The save path is the default one or an entry of the configured download
directories, chosen by an index, with a path of the client's appended to it.

Native functions take their strings as C strings, up to a NUL. The base64
decoder and the parser of torrent files are one parameter, and so is the
normalisation of `fs.combine`. A result is absent where the method throws.
-/

namespace Hadouken.AddTorrent

open Script ValueStack LexicalPaths LoadTorrents

/-- What the method depends on besides its arguments. -/
structure Site where
  conversions : Conversions
  normalizer : Normalizer
  torrentInfo : Value → Option TorrentInfo
  defaults : Defaults
  downloadDirectories : List String

/-- The parameters given to `session.addTorrent`. -/
structure NewTorrent extends AddTorrentParams Unit where
  url : String
  filePriorities : List Value
  trackers : List Value

/-- `fs.combine` with two arguments. -/
def combine (normalizer : Normalizer) (path name : String) : String :=
  cString (.ofList (normalizer.normalize
    (append (cString path).toList (cString name).toList)))

/-- Neither joining nor normalising brings in a NUL. -/
theorem toList_combine (normalizer : Normalizer) (path name : String) :
    (combine normalizer path name).toList =
      normalizer.normalize (append (cString path).toList (cString name).toList) := by
  rw [combine, cString_ofList, String.toList_ofList]
  intro c member
  rcases normalizer.mem_normalize _ c member with joined | rfl | rfl
  · rcases mem_of_mem_append _ _ c joined with base | own | rfl
    · exact nul_not_mem_cString path c base
    · exact nul_not_mem_cString name c own
    · decide
  · decide
  · decide

/-- The default save path, as the native property holds it. -/
def defaultSavePath (site : Site) : String :=
  cString (getDefault site.defaults : AddTorrentParams Unit).savePath

/-- The download directory that `params.savePath` selects, if it selects one. -/
def selectDirectory (site : Site) (savePath : Value) : Option (Option String) :=
  if savePath.truthy then do
    match ← site.conversions.parseInt savePath with
    | .finite idx =>
        if 0 < idx ∧ idx ≤ site.downloadDirectories.length then
          -- no entry stands between two indices, and the native setter refuses `undefined`
          if idx.den = 1 then
            (site.downloadDirectories[idx.num.toNat - 1]?).map fun dir => some (cString dir)
          else none
        else return none
    | _ => return none
  else return none

/-- The save path the torrent gets. -/
def savePath (site : Site) (savePath subPath : Value) : Option String := do
  let base := (← selectDirectory site savePath).getD (defaultSavePath site)
  if subPath.truthy then
    match subPath with
    | .string name => return cString (combine site.normalizer base name)
    | _ => none
  else return base

/-- The metadata the torrent is added with. -/
def metaOf (label tags : Value) : Members :=
  let labelled : Members :=
    match label with
    | .string text => [("label", .string text)]
    | _ => []
  match tags with
  | .array items named => assign "tags" (.array items named) labelled
  | _ => labelled

/-- The flags after `paused` and `sequentialDownload`. -/
def flags (initial : Nat) (paused sequentialDownload : Value) : Nat :=
  let flags := if paused.truthy then initial.ldiff 64 ||| 32 else initial
  if sequentialDownload.truthy then flags ||| 2048 else flags

/-- The native setters of lists take arrays and ignore everything else. -/
def listOf : Value → List Value
  | .array items _ => items
  | _ => []

/-- The torrent given as the data of a file. -/
def torrentOf (site : Site) (type data : Value) : Option (Option TorrentInfo) :=
  match type with
  | .string "file" => (site.torrentInfo data).map some
  | _ => some none

/-- The address given as the data, which the native setter takes as a string. -/
def urlOf (type data : Value) : Option String :=
  match type, data with
  | .string "url", .string text => some (cString text)
  | .string "url", _ => none
  | _, _ => some ""

/-- `webui.addTorrent`: the parameters it adds the torrent with. -/
def addTorrent (site : Site) (type data params : Value) : Option NewTorrent := do
  let type := type.orElse (.string "file")
  let params := params.orElse (.object [])
  let read key := (params.member key).getD .undefined
  let initial : AddTorrentParams Unit := getDefault site.defaults
  let torrent ← torrentOf site type data
  let url ← urlOf type data
  let savePath ← savePath site (read "savePath") (read "subPath")
  let document ← Json.ofValue (.object (metaOf (read "label") (read "tags")))
  return {
    flags := flags initial.flags (read "paused") (read "sequentialDownload")
    savePath := savePath
    sparseMode := initial.sparseMode
    torrent := torrent
    metadata := some document
    resumeData := none
    url := url
    filePriorities := listOf (read "filePriorities")
    trackers := listOf (read "trackers") }

/-- A torrent that is added has the save path made from the two parameters. -/
theorem savePath_of_added (site : Site) (type data : Value) (params : Members)
    (added : NewTorrent) (done : addTorrent site type data (.object params) = some added) :
    savePath site ((params.lookup "savePath").getD .undefined)
      ((params.lookup "subPath").getD .undefined) = some added.savePath := by
  simp only [addTorrent, Option.bind_eq_bind, Option.bind_eq_some_iff, Value.orElse,
    Value.truthy_object, if_true, Value.member_object, Option.getD_some, Option.pure_def,
    Option.some.injEq] at done
  obtain ⟨torrent, _, url, _, path, found, document, _, rfl⟩ := done
  exact found

/-- A torrent given by its address is added whenever its save path is known. -/
theorem addTorrent_url (site : Site) (params : Members) (path : String)
    (found : savePath site ((params.lookup "savePath").getD .undefined)
      ((params.lookup "subPath").getD .undefined) = some path) :
    ∃ added, addTorrent site (.string "url") (.string "") (.object params) = some added ∧
      added.savePath = path := by
  have type : Value.orElse (.string "url") (.string "file") = .string "url" := rfl
  have torrent : torrentOf site (.string "url") (.string "") = some none := by
    simp [torrentOf]
  have url : urlOf (.string "url") (.string "") = some (cString "") := by simp [urlOf]
  have read : ∀ key, ((Value.object params).orElse (.object [])).member key =
      some ((params.lookup key).getD .undefined) := fun _ => rfl
  simp [addTorrent, type, torrent, url, read, found, Json.ofValue]

end Hadouken.AddTorrent
