import Hadouken.BoundaryData
import Hadouken.Library.ValueStack
import Hadouken.TorrentFiles
import Mathlib.Data.List.Nodup

/-!
# The script objects of alerts

The initialiser of a class of alerts calls the initialiser of the class it derives
from and adds properties of its own to the object, by name. Every object has the
name and the number of its alert's class from the root class, and scripts tell
alerts apart by them.

The objects that other wrappers make, of handles, feeds, resume data, parameters
and statuses, come with the alerts as values.
-/

namespace Hadouken.AlertWrapper

open Script ValueStack TorrentFiles BoundaryData

/-- Names of properties. The engine hides two of them from scripts. -/
inductive Key where
  | named (name : String)
  | pointer
  | finalizer
deriving DecidableEq

/-- What stands under a name. -/
inductive Slot where
  | value (content : Value)
  | buffer (content : Bytes)
  | native (pointer : Nat)
  | finalize

/-- The object that is made of an alert, in the order of its properties. -/
abbrev Object := List (Key × Slot)

/-- A C string. -/
def text (content : String) : Slot := .value (.string (cString content))

/-- An integer. -/
def number (content : Int) : Slot := .value (.integer content)

/-- `boost::system::error_code`. -/
structure ErrorCode where
  message : String
  value : Int

/-- `error_code_wrapper::initialize`. -/
def ErrorCode.initialise (error : ErrorCode) : Slot :=
  .value (.object
    [("message", .string (cString error.message)), ("value", .integer error.value)])

/-- The property that an initialiser adds for an error, if it is one. -/
def ErrorCode.property (error : ErrorCode) : List (String × Slot) :=
  if error.value ≠ 0 then [("error", error.initialise)] else []

/-- An address and a port. -/
structure Endpoint where
  address : String
  port : Int

/-- The object made of an endpoint. -/
def Endpoint.initialise (endpoint : Endpoint) : Slot :=
  .value (.object
    [("address", .string (cString endpoint.address)), ("port", .integer endpoint.port)])

/-- `libtorrent::peer_request`. -/
structure PeerRequest where
  piece : Int
  start : Int
  length : Int

/-- The object made of a request. -/
def PeerRequest.initialise (request : PeerRequest) : Slot :=
  .value (.object [("length", .integer request.length), ("index", .integer request.piece),
    ("start", .integer request.start)])

/-- The channels of a `stats_alert` that are shown. -/
inductive StatsChannel where
  | downloadDhtProtocol
  | downloadIpProtocol
  | downloadPayload
  | downloadProtocol
  | downloadTrackerProtocol
  | uploadDhtProtocol
  | uploadIpProtocol
  | uploadPayload
  | uploadProtocol
  | uploadTrackerProtocol

/-- `libtorrent::alert`, with what its virtual functions return. -/
structure Alert where
  pointer : Nat
  message : String
  what : String
  type : Int

/-- `libtorrent::torrent_alert`. -/
structure TorrentAlert extends Alert where
  torrent : Value

/-- `libtorrent::peer_alert`. A peer's id has the form of an info hash. -/
structure PeerAlert extends TorrentAlert where
  ip : Endpoint
  pid : InfoHash

/-- `libtorrent::tracker_alert`. -/
structure TrackerAlert extends TorrentAlert where
  url : String

/-- The alerts that `construct` has a case for, by their classes. -/
inductive SpecificAlert where
  | torrentAdded (alert : TorrentAlert)
  | torrentRemoved (alert : TorrentAlert) (infoHash : InfoHash)
  | readPiece (alert : TorrentAlert) (ec : ErrorCode) (piece : Int) (content : Bytes)
  | fileCompleted (alert : TorrentAlert) (index : Int)
  | fileRenamed (alert : TorrentAlert) (index : Int) (name : String)
  | fileRenameFailed (alert : TorrentAlert) (index : Int) (error : ErrorCode)
  | performance (alert : TorrentAlert) (warningCode : Int)
  | stateChanged (alert : TorrentAlert) (state prevState : Int)
  | trackerError (alert : TrackerAlert) (statusCode timesInRow : Int) (msg : String)
      (error : ErrorCode)
  | trackerWarning (alert : TrackerAlert) (msg : String)
  | scrapeReply (alert : TrackerAlert) (complete incomplete : Int)
  | scrapeFailed (alert : TrackerAlert) (msg : String)
  | trackerReply (alert : TrackerAlert) (numPeers : Int)
  | dhtReply (alert : TrackerAlert) (numPeers : Int)
  | trackerAnnounce (alert : TrackerAlert) (event : Int)
  | hashFailed (alert : TorrentAlert) (pieceIndex : Int)
  | peerBan (alert : PeerAlert)
  | peerSnubbed (alert : PeerAlert)
  | peerUnsnubbed (alert : PeerAlert)
  | peerError (alert : PeerAlert) (error : ErrorCode)
  | peerConnect (alert : PeerAlert) (socketType : Int)
  | peerDisconnected (alert : PeerAlert) (error : ErrorCode)
  | invalidRequest (alert : PeerAlert) (request : PeerRequest)
  | torrentFinished (alert : TorrentAlert)
  | pieceFinished (alert : TorrentAlert) (pieceIndex : Int)
  | requestDropped (alert : PeerAlert) (blockIndex pieceIndex : Int)
  | blockTimeout (alert : PeerAlert) (blockIndex pieceIndex : Int)
  | blockFinished (alert : PeerAlert) (blockIndex pieceIndex : Int)
  | blockDownloading (alert : PeerAlert) (blockIndex pieceIndex : Int)
      (peerSpeedmsg : Option String)
  | unwantedBlock (alert : PeerAlert) (blockIndex pieceIndex : Int)
  | storageMoved (alert : TorrentAlert) (path : String)
  | storageMovedFailed (alert : TorrentAlert) (error : ErrorCode)
  | torrentDeleted (alert : TorrentAlert) (infoHash : InfoHash)
  | torrentDeleteFailed (alert : TorrentAlert) (error : ErrorCode) (infoHash : InfoHash)
  | saveResumeData (alert : TorrentAlert) (resumeData : Value)
  | saveResumeDataFailed (alert : TorrentAlert) (error : ErrorCode)
  | torrentPaused (alert : TorrentAlert)
  | torrentResumed (alert : TorrentAlert)
  | torrentChecked (alert : TorrentAlert)
  | urlSeed (alert : TorrentAlert) (url msg : String)
  | fileError (alert : TorrentAlert) (error : ErrorCode) (file : String)
  | metadataFailed (alert : TorrentAlert) (error : ErrorCode)
  | metadataReceived (alert : TorrentAlert)
  | udpError (alert : Alert) (endpoint : Endpoint) (error : ErrorCode)
  | externalIp (alert : Alert) (externalAddress : String)
  | listenFailed (alert : Alert) (endpoint : Endpoint) (error : ErrorCode)
      (operation sockType : Int)
  | listenSucceeded (alert : Alert) (endpoint : Endpoint) (sockType : Int)
  | portmapError (alert : Alert) (error : ErrorCode) (mapping mapType : Int)
  | portmap (alert : Alert) (mapping mapType externalPort : Int)
  | portmapLog (alert : Alert) (mapType : Int) (msg : String)
  | fastresumeRejected (alert : TorrentAlert) (error : ErrorCode)
  | peerBlocked (alert : TorrentAlert) (ip : String) (reason : Int)
  | dhtGetPeers (alert : Alert) (infoHash : InfoHash)
  | stats (alert : TorrentAlert) (transferred : StatsChannel → Int) (interval : Int)
  | cacheFlushed (alert : TorrentAlert)
  | lsdPeer (alert : PeerAlert)
  | trackerid (alert : TorrentAlert) (trackerId : String)
  | dhtBootstrap (alert : Alert)
  | rss (alert : Alert) (url : String) (state : Int) (feed : Value)
  | torrentError (alert : TorrentAlert) (error : ErrorCode)
  | torrentNeedCert (alert : TorrentAlert) (error : ErrorCode)
  | addTorrent (alert : TorrentAlert) (params : Value) (error : ErrorCode)
  | stateUpdate (alert : Alert) (status : List Value)
  | torrentUpdate (alert : TorrentAlert) (oldIh newIh : InfoHash)
  | i2p (alert : Alert) (error : ErrorCode)

/-- Put properties into an object, in order. -/
def extend (own : List (String × Slot)) (object : Object) : Object :=
  assignEach (own.map fun property => (.named property.1, property.2)) object

/-- The initialiser of the root class. -/
def Alert.initialise (alert : Alert) : Object :=
  assignEach [(.pointer, .native alert.pointer),
    (.named "_message", text alert.message),
    (.named "name", .value (.string alert.what)),
    (.named "type", number alert.type),
    (.finalizer, .finalize)] []

/-- The initialiser of its class. -/
def TorrentAlert.initialise (alert : TorrentAlert) : Object :=
  extend [("torrent", .value alert.torrent)] alert.toAlert.initialise

/-- The initialiser of its class. -/
def PeerAlert.initialise (alert : PeerAlert) : Object :=
  extend [("ip", alert.ip.initialise), ("peerId", text alert.pid.text)]
    alert.toTorrentAlert.initialise

/-- The initialiser of its class. -/
def TrackerAlert.initialise (alert : TrackerAlert) : Object :=
  extend [("url", text alert.url)] alert.toTorrentAlert.initialise

/-- An alert as one of the class it derives from. -/
inductive Base where
  | alert (alert : Alert)
  | torrentAlert (alert : TorrentAlert)
  | peerAlert (alert : PeerAlert)
  | trackerAlert (alert : TrackerAlert)

/-- The initialiser of the class. -/
def Base.initialise : Base → Object
  | .alert given => given.initialise
  | .torrentAlert given => given.initialise
  | .peerAlert given => given.initialise
  | .trackerAlert given => given.initialise

/-- The alert as one of the root class. -/
def Base.root : Base → Alert
  | .alert given => given
  | .torrentAlert given => given.toAlert
  | .peerAlert given => given.toAlert
  | .trackerAlert given => given.toAlert

/-- The cast to the class that the alert's class derives from. -/
def SpecificAlert.base : SpecificAlert → Base
  | .torrentAdded alert | .torrentRemoved alert _ | .readPiece alert _ _ _
  | .fileCompleted alert _ | .fileRenamed alert _ _ | .fileRenameFailed alert _ _
  | .performance alert _ | .stateChanged alert _ _ | .hashFailed alert _
  | .torrentFinished alert | .pieceFinished alert _ | .storageMoved alert _
  | .storageMovedFailed alert _ | .torrentDeleted alert _ | .torrentDeleteFailed alert _ _
  | .saveResumeData alert _ | .saveResumeDataFailed alert _ | .torrentPaused alert
  | .torrentResumed alert | .torrentChecked alert | .urlSeed alert _ _ | .fileError alert _ _
  | .metadataFailed alert _ | .metadataReceived alert | .fastresumeRejected alert _
  | .peerBlocked alert _ _ | .stats alert _ _ | .cacheFlushed alert | .trackerid alert _
  | .torrentError alert _ | .torrentNeedCert alert _ | .addTorrent alert _ _
  | .torrentUpdate alert _ _ => .torrentAlert alert
  | .trackerError alert _ _ _ _ | .trackerWarning alert _ | .scrapeReply alert _ _
  | .scrapeFailed alert _ | .trackerReply alert _ | .dhtReply alert _
  | .trackerAnnounce alert _ => .trackerAlert alert
  | .peerBan alert | .peerSnubbed alert | .peerUnsnubbed alert | .peerError alert _
  | .peerConnect alert _ | .peerDisconnected alert _ | .invalidRequest alert _
  | .requestDropped alert _ _ | .blockTimeout alert _ _ | .blockFinished alert _ _
  | .blockDownloading alert _ _ _ | .unwantedBlock alert _ _ | .lsdPeer alert =>
      .peerAlert alert
  | .udpError alert _ _ | .externalIp alert _ | .listenFailed alert _ _ _ _
  | .listenSucceeded alert _ _ | .portmapError alert _ _ _ | .portmap alert _ _ _
  | .portmapLog alert _ _ | .dhtGetPeers alert _ | .dhtBootstrap alert | .rss alert _ _ _
  | .stateUpdate alert _ | .i2p alert _ => .alert alert

/-- The properties that the initialiser of the alert's own class adds, in order.
Torrents that were added have no initialiser of their own. -/
def SpecificAlert.own : SpecificAlert → List (String × Slot)
  | .torrentAdded _ | .peerBan _ | .peerSnubbed _ | .peerUnsnubbed _ | .torrentFinished _
  | .torrentPaused _ | .torrentResumed _ | .torrentChecked _ | .metadataReceived _
  | .cacheFlushed _ | .lsdPeer _ | .dhtBootstrap _ => []
  | .torrentRemoved _ infoHash => [("infoHash", text infoHash.text)]
  | .readPiece _ ec piece content =>
      ec.property ++ [("index", number piece), ("size", number content.length),
        ("buffer", .buffer (pieceBuffer content))]
  | .fileCompleted _ index => [("index", number index)]
  | .fileRenamed _ index name => [("index", number index), ("name", text name)]
  | .fileRenameFailed _ index error => ("index", number index) :: error.property
  | .performance _ warningCode => [("code", number warningCode)]
  | .stateChanged _ state prevState =>
      [("state", number state), ("previousState", number prevState)]
  | .trackerError _ statusCode timesInRow msg error =>
      [("statusCode", number statusCode), ("times", number timesInRow), ("message", text msg)] ++
        error.property
  | .trackerWarning _ msg => [("message", text msg)]
  | .scrapeReply _ complete incomplete =>
      [("complete", number complete), ("incomplete", number incomplete)]
  | .scrapeFailed _ msg => [("message", text msg)]
  | .trackerReply _ numPeers => [("numPeers", number numPeers)]
  | .dhtReply _ numPeers => [("numPeers", number numPeers)]
  | .trackerAnnounce _ event => [("event", number event)]
  | .hashFailed _ pieceIndex => [("pieceIndex", number pieceIndex)]
  | .peerError _ error => error.property
  | .peerConnect _ socketType => [("socketType", number socketType)]
  | .peerDisconnected _ error => error.property
  | .invalidRequest _ request => [("request", request.initialise)]
  | .pieceFinished _ pieceIndex => [("pieceIndex", number pieceIndex)]
  | .requestDropped _ blockIndex pieceIndex | .blockTimeout _ blockIndex pieceIndex
  | .blockFinished _ blockIndex pieceIndex | .unwantedBlock _ blockIndex pieceIndex =>
      [("blockIndex", number blockIndex), ("pieceIndex", number pieceIndex)]
  | .blockDownloading _ blockIndex pieceIndex peerSpeedmsg =>
      [("blockIndex", number blockIndex), ("pieceIndex", number pieceIndex),
        ("speedMessage", (peerSpeedmsg.map text).getD (.value .null))]
  | .storageMoved _ path => [("path", text path)]
  | .storageMovedFailed _ error => error.property
  | .torrentDeleted _ infoHash => [("infoHash", text infoHash.text)]
  | .torrentDeleteFailed _ error infoHash =>
      error.property ++ [("infoHash", text infoHash.text)]
  | .saveResumeData _ resumeData => [("resumeData", .value resumeData)]
  | .saveResumeDataFailed _ error => error.property
  | .urlSeed _ url msg => [("url", text url), ("message", text msg)]
  | .fileError _ error file => error.property ++ [("file", text file)]
  | .metadataFailed _ error => error.property
  | .udpError _ endpoint error => ("ip", endpoint.initialise) :: error.property
  | .externalIp _ externalAddress => [("address", text externalAddress)]
  | .listenFailed _ endpoint error operation sockType =>
      ("ip", endpoint.initialise) :: error.property ++
        [("operation", number operation), ("socketType", number sockType)]
  | .listenSucceeded _ endpoint sockType =>
      [("ip", endpoint.initialise), ("socketType", number sockType)]
  | .portmapError _ error mapping mapType =>
      error.property ++ [("mapping", number mapping), ("type", number mapType)]
  | .portmap _ mapping mapType externalPort =>
      [("mapping", number mapping), ("type", number mapType),
        ("externalPort", number externalPort)]
  | .portmapLog _ mapType msg => [("type", number mapType), ("message", text msg)]
  | .fastresumeRejected _ error => error.property
  | .peerBlocked _ ip reason => [("address", text ip), ("reason", number reason)]
  | .dhtGetPeers _ infoHash => [("infoHash", text infoHash.text)]
  | .stats _ transferred interval =>
      [("downloadDhtProtocol", number (transferred .downloadDhtProtocol)),
        ("downloadIpProtocol", number (transferred .downloadIpProtocol)),
        ("downloadPayload", number (transferred .downloadPayload)),
        ("downloadProtocol", number (transferred .downloadProtocol)),
        ("downloadTrackerProtocol", number (transferred .downloadTrackerProtocol)),
        ("uploadDhtProtocol", number (transferred .uploadDhtProtocol)),
        ("uploadIpProtocol", number (transferred .uploadIpProtocol)),
        ("uploadPayload", number (transferred .uploadPayload)),
        ("uploadProtocol", number (transferred .uploadProtocol)),
        ("uploadTrackerProtocol", number (transferred .uploadTrackerProtocol)),
        ("interval", number interval)]
  | .trackerid _ trackerId => [("trackerId", text trackerId)]
  | .rss _ url state feed =>
      [("url", text url), ("state", number state), ("feed", .value feed)]
  | .torrentError _ error => error.property
  | .torrentNeedCert _ error => error.property
  | .addTorrent _ params error => ("params", .value params) :: error.property
  | .stateUpdate _ status => [("status", .value (.array status []))]
  | .torrentUpdate _ oldIh newIh =>
      [("oldInfoHash", text oldIh.text), ("infoHash", text newIh.text)]
  | .i2p _ error => error.property

/-- The overload of `initialize` for the alert's class. -/
def SpecificAlert.initialise (alert : SpecificAlert) : Object :=
  extend alert.own alert.base.initialise

/-- An alert that the session posts: of one of the classes above, or of a class
whose case is missing. -/
inductive Posted where
  | specific (alert : SpecificAlert)
  | other (alert : Alert)

/-- `construct`, with no object where it pushes null. -/
def construct : Posted → Option Object
  | .specific alert => some alert.initialise
  | .other _ => none

/-- The text a script reads as the alert's name. -/
def nameOf (object : Object) : Option String :=
  match object.lookup (.named "name") with
  | some (.value (.string name)) => some name
  | _ => none

/-- `saveTorrents` counts one of its requests down. -/
def CountsDown (object : Object) : Prop :=
  nameOf object = some "save_resume_data_failed_alert" ∨
    nameOf object = some "save_resume_data_alert"

/-- The object has the alert's name and type, and all that the initialisers of the
classes above have put there. -/
def KeepsIdentity (alert : SpecificAlert) : Prop :=
  ∃ object, construct (.specific alert) = some object ∧
    object.lookup (.named "name") = some (.value (.string alert.base.root.what)) ∧
    object.lookup (.named "type") = some (number alert.base.root.type) ∧
    ∀ key slot, alert.base.initialise.lookup key = some slot → object.lookup key = some slot

/-- No property of the class itself says otherwise than the name or the type. -/
def Agreeing : SpecificAlert → Prop
  | .fileRenamed alert _ name => cString name = alert.what
  | .portmapError alert _ _ mapType | .portmap alert _ mapType _ | .portmapLog alert mapType _ =>
      mapType = alert.type
  | _ => True

/-- The names under which the initialisers of the classes above put properties. -/
def Base.names : Base → List String
  | .alert _ => ["_message", "name", "type"]
  | .torrentAlert _ => ["_message", "name", "type", "torrent"]
  | .peerAlert _ => ["_message", "name", "type", "torrent", "ip", "peerId"]
  | .trackerAlert _ => ["_message", "name", "type", "torrent", "url"]

/-- The property of the class itself that replaces one of the classes above. -/
def SpecificAlert.replacing : SpecificAlert → Option (String × Slot)
  | .fileRenamed _ _ name => some ("name", text name)
  | .portmapError _ _ _ mapType | .portmap _ _ mapType _ | .portmapLog _ mapType _ =>
      some ("type", number mapType)
  | _ => none

section Objects

/-- What scripts see of the object that the initialiser above makes. -/
theorem lookup_base (base : Base) :
    base.initialise.lookup (.named "name") = some (.value (.string base.root.what)) ∧
      base.initialise.lookup (.named "type") = some (number base.root.type) := by
  cases base <;>
    simp [Base.initialise, Base.root, PeerAlert.initialise, TrackerAlert.initialise,
      TorrentAlert.initialise, Alert.initialise, extend, assignEach]

/-- What is found in a base is one of its names. -/
theorem mem_names_of_lookup (base : Base) (name : String) (slot : Slot)
    (found : base.initialise.lookup (.named name) = some slot) : name ∈ base.names := by
  have carried := (lookup_isSome_iff (.named name) base.initialise).mp (by rw [found]; rfl)
  cases base <;>
    simpa [Base.initialise, Base.names, PeerAlert.initialise, TrackerAlert.initialise,
      TorrentAlert.initialise, Alert.initialise, extend, assignEach, assign] using carried

/-- An error is a property where it is one. -/
@[simp] theorem mem_property (error : ErrorCode) (property : String × Slot) :
    property ∈ error.property ↔ error.value ≠ 0 ∧ property = ("error", error.initialise) := by
  rw [ErrorCode.property]
  split <;> simp [*]

/-- It is one property at most. -/
@[simp] theorem nodup_property (error : ErrorCode) : (error.property.map Prod.fst).Nodup := by
  rw [ErrorCode.property]
  split <;> simp

/-- No initialiser puts two properties under one name. -/
theorem nodup_own (alert : SpecificAlert) : (alert.own.map Prod.fst).Nodup := by
  cases alert <;> simp +contextual [SpecificAlert.own, List.nodup_append]

/-- The names that the classes above use are not used again, but for the
replacing property. -/
theorem replacing_of_mem_names (alert : SpecificAlert) (property : String × Slot)
    (inside : property ∈ alert.own) (above : property.1 ∈ alert.base.names) :
    alert.replacing = some property := by
  revert above inside
  cases alert <;>
    simp +contextual [SpecificAlert.own, SpecificAlert.base, Base.names,
      SpecificAlert.replacing, or_imp]

/-- What replaces a property of the base is one of the alert's own. -/
theorem mem_own_of_replacing (alert : SpecificAlert) (property : String × Slot)
    (replaced : alert.replacing = some property) : property ∈ alert.own := by
  revert replaced
  cases alert <;> simp +contextual [SpecificAlert.own, SpecificAlert.replacing, eq_comm]

/-- The alert's own properties have different names. -/
theorem nodup_own_keys (alert : SpecificAlert) :
    ((alert.own.map fun property => (Key.named property.1, property.2)).map Prod.fst).Nodup := by
  have injective : Function.Injective Key.named := fun _ _ same => Key.named.inj same
  simpa [List.map_map, Function.comp_def] using List.Nodup.map injective (nodup_own alert)

/-- A property of the class itself is in the finished object. -/
theorem lookup_own (alert : SpecificAlert) (property : String × Slot)
    (inside : property ∈ alert.own) :
    alert.initialise.lookup (.named property.1) = some property.2 :=
  lookup_assignEach_of_mem _ _ _ _ (nodup_own_keys alert)
    (List.mem_map.mpr ⟨property, inside, rfl⟩)

/-- An initialiser keeps what is there exactly when the replacing property is
what it replaces. -/
theorem initialise_keeps_iff (alert : SpecificAlert) :
    (∀ key slot, alert.base.initialise.lookup key = some slot →
        alert.initialise.lookup key = some slot) ↔
      ∀ property, alert.replacing = some property → ∀ slot,
        alert.base.initialise.lookup (.named property.1) = some slot → slot = property.2 := by
  rw [SpecificAlert.initialise, extend, assignEach_keeps_iff _ _ (nodup_own_keys alert)]
  constructor
  · intro own property replaced slot found
    have inside := mem_own_of_replacing alert property replaced
    exact own (.named property.1, property.2) (List.mem_map.mpr ⟨property, inside, rfl⟩) slot found
  · intro same member inside slot found
    obtain ⟨property, propertyInside, rfl⟩ := List.mem_map.mp inside
    have above := mem_names_of_lookup alert.base property.1 slot found
    exact same property (replacing_of_mem_names alert property propertyInside above) slot found

/-- The replacing property agrees with what it replaces. -/
theorem agreeing_iff_replacing (alert : SpecificAlert) :
    Agreeing alert ↔ ∀ property, alert.replacing = some property → ∀ slot,
      alert.base.initialise.lookup (.named property.1) = some slot → slot = property.2 := by
  obtain ⟨name, type⟩ := lookup_base alert.base
  cases alert <;> simp only [Agreeing, SpecificAlert.replacing, reduceCtorEq, false_imp_iff,
    implies_true, Option.some.injEq, forall_eq', name, type]
  all_goals simp [SpecificAlert.base, Base.root, text, number, Value.integer, eq_comm]

/-- The waiting loop counts alerts that keep their identity by their classes. -/
theorem countsDown_iff (alert : SpecificAlert) (keeps : KeepsIdentity alert) :
    CountsDown alert.initialise ↔
      alert.base.root.what = "save_resume_data_failed_alert" ∨
        alert.base.root.what = "save_resume_data_alert" := by
  obtain ⟨object, constructed, name, -, -⟩ := keeps
  obtain rfl := Option.some.inj constructed
  simp [CountsDown, nameOf, name]

/-- It counts the alert about a renamed file by the file's new name. -/
theorem countsDown_fileRenamed_iff (alert : TorrentAlert) (index : Int) (name : String) :
    CountsDown (SpecificAlert.fileRenamed alert index name).initialise ↔
      cString name = "save_resume_data_failed_alert" ∨
        cString name = "save_resume_data_alert" := by
  have shown := lookup_own (.fileRenamed alert index name) ("name", text name)
    (by simp [SpecificAlert.own])
  simp [CountsDown, nameOf, shown, text]

end Objects

/-- The object of an alert keeps the alert's identity exactly when no property of
its class says otherwise. -/
theorem keepsIdentity_iff_agreeing (alert : SpecificAlert) :
    KeepsIdentity alert ↔ Agreeing alert := by
  obtain ⟨name, type⟩ := lookup_base alert.base
  rw [agreeing_iff_replacing, ← initialise_keeps_iff]
  constructor
  · rintro ⟨object, constructed, -, -, keeps⟩
    obtain rfl := Option.some.inj constructed
    exact keeps
  · intro keeps
    exact ⟨alert.initialise, rfl, keeps _ _ name, keeps _ _ type, keeps⟩

/-- A file that was renamed to the name of a class of alerts. -/
def renamedFile : SpecificAlert :=
  .fileRenamed ⟨⟨0, "", "file_renamed_alert", 7⟩, .undefined⟩ 0 "save_resume_data_alert"

/-- A port that was mapped by NAT-PMP. -/
def mappedPort : SpecificAlert := .portmap ⟨0, "", "portmap_alert", 51⟩ 0 0 6881

/-- The first has lost its name, the second its type. -/
theorem replaced_names_lose_identity :
    ¬ KeepsIdentity renamedFile ∧ ¬ KeepsIdentity mappedPort := by
  constructor
  · rintro ⟨object, constructed, name, -, -⟩
    obtain rfl := Option.some.inj constructed
    have shown := lookup_own renamedFile ("name", text "save_resume_data_alert")
      (by simp [renamedFile, SpecificAlert.own])
    have whole : cString "save_resume_data_alert" = "save_resume_data_alert" := by decide
    rw [name] at shown
    simp [text, whole, renamedFile, SpecificAlert.base, Base.root] at shown
  · rintro ⟨object, constructed, -, type, -⟩
    obtain rfl := Option.some.inj constructed
    have shown := lookup_own mappedPort ("type", number 0) (by simp [mappedPort, SpecificAlert.own])
    rw [type] at shown
    simp [number, Value.integer, mappedPort, SpecificAlert.base, Base.root] at shown

end Hadouken.AlertWrapper
