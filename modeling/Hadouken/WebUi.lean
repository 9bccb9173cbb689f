import Hadouken.Library.LexicalPaths
import Hadouken.Library.Members

/-!
# The web interface's files

`http_server::process_request` strips the configured root from the requested
path and hands what is left to the handler whose pattern matches it. The handler
of the web interface cuts out the name of a file and looks it up in the archive
it has read, or joins it to the directory of the web interface.

Paths are those of a POSIX system. The archive and the files on disk are
parameters, over contents of any type; a path that exists has some content.
-/

namespace Hadouken.WebUi

open LexicalPaths

variable {γ : Type}

/-- The letters after the last dot of a path's last segment, with the dot. -/
def extension (path : List Char) : List Char :=
  let name := (path.splitOn '/').getLastD []
  if name = here ∨ name = parent ∨ '.' ∉ name then []
  else '.' :: (name.reverse.takeWhile (· ≠ '.')).reverse

/-- `gui_request_handler`, with the archive it keeps, if it uses one. -/
structure GuiRequestHandler (γ : Type) where
  guiPath : List Char
  cache : Option (List (List Char × γ))

/-- The constructor: a path with the extension `.zip` is read as an archive, if
it can be opened. -/
def GuiRequestHandler.new (guiPath : List Char)
    (openArchive : List Char → Option (List (List Char × γ))) : GuiRequestHandler γ where
  guiPath := guiPath
  cache := if extension guiPath = ".zip".toList then openArchive guiPath else none

/-- Where the content of an answer comes from. -/
inductive Source where
  | archiveEntry (name : List Char)
  | file (path : List Char)
deriving DecidableEq

/-- What a request for a file is answered with. -/
inductive Reply (γ : Type) where
  | moved (location : List Char)
  | notFound (message : List Char)
  | served (source : Source) (contentType : String) (content : γ)
  | api
deriving DecidableEq

/-- The type of a file with this extension. -/
def contentType (ext : List Char) : String :=
  if ext = ".css".toList then "text/css"
  else if ext = ".js".toList then "text/javascript"
  else if ext = ".png".toList then "image/png"
  else "text/html"

/-- The file a path below `/gui` names. -/
def fileOf (virtualPath : List Char) : List Char :=
  let file := if 4 ≤ virtualPath.length then virtualPath.drop 4 else "index.html".toList
  if file.head? = some '/' then file.tail else file

/-- `gui_request_handler::execute`. -/
def GuiRequestHandler.execute (handler : GuiRequestHandler γ) (disk : List Char → Option γ)
    (virtualPath : List Char) : Reply γ :=
  let file := fileOf virtualPath
  match handler.cache with
  | some entries =>
      match entries.lookup file with
      | some content => .served (.archiveEntry file) (contentType (extension file)) content
      | none => .notFound ("404 - Not found: '".toList ++ file ++ "'.".toList)
  | none =>
      let resourcePath := append handler.guiPath file
      match disk resourcePath with
      | some content =>
          .served (.file resourcePath) (contentType (extension resourcePath)) content
      | none => .notFound "404 - Not found.".toList

/-- The configured root, with a slash at both ends. -/
def configuredRoot (setting : List Char) : List Char :=
  let root := if setting = [] then ['/'] else setting
  let root := if root.head? = some '/' then root else '/' :: root
  if root.getLast? = some '/' then root else root ++ ['/']

/-- The path below the root, if the requested path is below it. -/
def virtualPathOf (root path : List Char) : Option (List Char) :=
  if root.isPrefixOf path then
    let virtualPath := path.drop root.length
    some (if virtualPath.head? = some '/' then virtualPath else '/' :: virtualPath)
  else none

/-- The pattern `^/api[/]?$`. -/
def matchesApi (virtualPath : List Char) : Bool :=
  virtualPath = "/api".toList ∨ virtualPath = "/api/".toList

/-- The pattern `^/gui.*$`, in which a dot is no end of line. -/
def matchesGui (virtualPath : List Char) : Bool :=
  "/gui".toList.isPrefixOf virtualPath &&
    (virtualPath.drop 4).all fun c => c ≠ '\n' ∧ c ≠ '\r'

/-- `http_server::process_request`. -/
def processRequest (handler : GuiRequestHandler γ) (disk : List Char → Option γ)
    (rootSetting path : List Char) : Reply γ :=
  let root := configuredRoot rootSetting
  let missing : Reply γ := .notFound ("404 - Could not find '".toList ++ path ++ "'".toList)
  if path = ['/'] then .moved (root ++ "gui/index.html".toList)
  else
    match virtualPathOf root path with
    | none => missing
    | some virtualPath =>
        if matchesApi virtualPath then .api
        else if matchesGui virtualPath then handler.execute disk virtualPath
        else missing

/-- The content sent back is that of an archive entry, or of a file whose path
lies in the directory of the web interface. -/
def Confined (handler : GuiRequestHandler γ) : Reply γ → Prop
  | .served (.archiveEntry name) _ content =>
      ∃ entries, handler.cache = some entries ∧ (name, content) ∈ entries
  | .served (.file path) _ _ => Within (locate handler.guiPath) (locate path)
  | _ => True

/-- The file the handler of the web interface looks up for a requested path, if
the request reaches it. -/
def requestedFile (rootSetting path : List Char) : Option (List Char) :=
  if path = ['/'] then none
  else (virtualPathOf (configuredRoot rootSetting) path).bind fun virtualPath =>
    if matchesApi virtualPath then none
    else if matchesGui virtualPath then some (fileOf virtualPath)
    else none

/-- The requests that are safe: the archive is used, or an existing file that is
asked for stays in the directory. -/
def Safe (handler : GuiRequestHandler γ) (disk : List Char → Option γ)
    (rootSetting path : List Char) : Prop :=
  handler.cache = none →
    ∀ file, requestedFile rootSetting path = some file →
      (disk (append handler.guiPath file)).isSome = true → Stays handler.guiPath file

/-- The handler's answer is confined exactly when the file it looks up is in the
archive, missing, or stays in the directory. -/
theorem execute_confined_iff (handler : GuiRequestHandler γ) (disk : List Char → Option γ)
    (virtualPath : List Char) :
    Confined handler (handler.execute disk virtualPath) ↔
      (handler.cache = none →
        (disk (append handler.guiPath (fileOf virtualPath))).isSome = true →
          Stays handler.guiPath (fileOf virtualPath)) := by
  cases cached : handler.cache with
  | some entries =>
    cases found : entries.lookup (fileOf virtualPath) with
    | none => simp [GuiRequestHandler.execute, cached, found, Confined]
    | some content =>
      simp [GuiRequestHandler.execute, cached, found, Confined, mem_of_lookup _ _ _ found]
  | none =>
    cases found : disk (append handler.guiPath (fileOf virtualPath)) with
    | none => simp [GuiRequestHandler.execute, cached, found, Confined]
    | some content =>
      simp only [GuiRequestHandler.execute, cached, found, Confined, Option.isSome_some,
        true_implies]
      exact within_append_iff _ _

/-- What a request gets is confined exactly when the request is safe, whatever
the root, the archive and the files on disk are. -/
theorem confined_iff_safe (handler : GuiRequestHandler γ) (disk : List Char → Option γ)
    (rootSetting path : List Char) :
    Confined handler (processRequest handler disk rootSetting path) ↔
      Safe handler disk rootSetting path := by
  unfold processRequest Safe requestedFile
  by_cases top : path = ['/']
  · simp [top, Confined]
  · cases below : virtualPathOf (configuredRoot rootSetting) path with
    | none => simp [top, below, Confined]
    | some virtualPath =>
      by_cases api : matchesApi virtualPath = true
      · simp [top, below, api, Confined]
      · by_cases gui : matchesGui virtualPath = true
        · simp [top, below, api, gui, execute_confined_iff]
        · simp [top, below, api, gui, Confined]

/-- The web interface in the directory `/opt/webui`. -/
def inDirectory : GuiRequestHandler String := .new "/opt/webui".toList fun _ => none

/-- A disk where one file outside of the directory is asked for. -/
def secrets (path : List Char) : Option String :=
  if path = "/opt/webui/../secret".toList then some "secret" else none

/-- A request that climbs out of the directory gets the file outside. -/
theorem climbing_request_not_confined :
    ¬ Confined inDirectory
      (processRequest inDirectory secrets "/".toList "/gui/../secret".toList) := by
  have climbs : processRequest inDirectory secrets "/".toList "/gui/../secret".toList =
      .served (.file "/opt/webui/../secret".toList) "text/html" "secret" := by
    decide
  have outside : ¬ Within (locate inDirectory.guiPath) (locate "/opt/webui/../secret".toList) := by
    decide
  rw [climbs]
  exact outside

end Hadouken.WebUi
