import Hadouken.Settings
import Hadouken.ConfigWrites

/-!
# The settings of the web interface

`webui.getSettings` lists its rows from three sources: the session's settings,
the state of the session and the configuration. `webui.setSettings` takes an
object with some of the keys and writes the configuration and the session.

A value is absent where reading it throws, and a row without its value makes the
whole request fail. An option whose write throws ends the request; those before
it have been made. Log lines are left out.
-/

namespace Hadouken.WebuiSettings

open Script Config Settings ConfigWrites

/-- The services of the session that are started and stopped. -/
inductive Service where
  | dht
  | lsd
  | natpmp
  | upnp
deriving DecidableEq

/-- The service's name in the configuration. -/
def Service.name : Service → String
  | .dht => "dht"
  | .lsd => "lsd"
  | .natpmp => "natpmp"
  | .upnp => "upnp"

/-- `"bittorrent." + name + ".enabled"`. -/
def Service.key (service : Service) : List String := ["bittorrent", service.name, "enabled"]

/-- `"bittorrent.utp.enabled"`. -/
def utpKey : List String := ["bittorrent", "utp", "enabled"]

/-- `"http.webui.cookie"`. -/
def cookieKey : List String := ["http", "webui", "cookie"]

/-- What the session has in effect. -/
structure Live where
  running : Running
  services : Service → Bool

/-- The configuration, and what is in effect. -/
structure Daemon where
  config : Value
  live : Live

/-- What the requests are answered with: conversions, the JSON encoder with its
limit on nesting, and the absolute form of a path. Integers are printed with their
digits up to 2⁵³. -/
structure Site where
  conversions : Conversions
  encodeLimit : Nat
  print : Json → String
  absolute : String → String
  print_boolean : ∀ flag, print (.boolean flag) = toString flag
  print_integer : ∀ value : Int, value.natAbs ≤ 9007199254740992 →
    print (.number value) = toString value
  print_ne_empty : ∀ document, print document ≠ ""

section GetSettings

/-- `TYPE`. -/
inductive RowType where
  | number
  | boolean
  | string
  | array
deriving DecidableEq

/-- A row of the answer. -/
structure Row (α : Type) where
  key : String
  type : RowType
  value : α
  params : Value

/-- `ACCESS.READWRITE`. -/
def readWrite : Value := .string "Y"

/-- A row of its own. -/
def row (key : String) (type : RowType) (value : Option Value) : Row (Option Value) :=
  ⟨key, type, value, readWrite⟩

variable (site : Site) (daemon : Daemon)

/-- The text of a configured value: itself, or as JSON. -/
def shown (type : RowType) (val : Value) : Option Value :=
  if type = .string then some val
  else (Json.encode site.encodeLimit val).map fun document =>
    (document.map fun document => Value.string (site.print document)).getD .undefined

/-- `get(cfgKey, resKey, type, defaultValue, access)`. -/
def get (cfgKey : List String) (resKey : String) (type : RowType) (defaultValue : String) :
    Row (Option Value) where
  key := resKey
  type := type
  value := (findKey daemon.config cfgKey).bind fun val =>
    match val with
    | .undefined => some (.string defaultValue)
    | val => shown site type val
  params := .object [("access", readWrite)]

/-- The path of the row `save_path`. Only a string has an absolute path. -/
def absoluteSavePath : Option Value := do
  let savePath := (← findKey daemon.config (key "defaultSavePath")).orElse (.string ".")
  match savePath with
  | .string text =>
      let absolute := (site.absolute text).toList
      if text = "." ∧ absolute.getLast? = some '.' then
        return .string (String.ofList absolute.dropLast)
      return .string (String.ofList absolute)
  | _ => none

/-- `toString()` of a boolean and of an integer. -/
def flagText (flag : Bool) : Option Value := some (.string (toString flag))

/-- Beyond a bound, minus one. -/
def orUnlimited (number : Int) (beyond : Bool) : String := toString (if beyond then -1 else number)

/-- The rows of `webui.getSettings`, in their order. -/
def rows : List (Row (Option Value)) :=
  let session := daemon.live
  let settings := daemon.live.running.settings
  let int (number : CInt) : Int := number.value
  [row "bind_port" .number (some (.integer session.running.port.value)),
    row "conns_globally" .number (some (.integer (int (settings .connectionsLimit)))),
    row "dht" .boolean (flagText (session.services .dht)),
    row "download_directories" .array
      ((findKey daemon.config (key "downloadDirectories")).map fun directories =>
        directories.orElse (.array [] [])),
    row "enable_bw_management" .boolean (flagText (int (settings .mixedModeAlgorithm) = 1)),
    row "max_dl_rate" .number (some (.integer (int (settings .downloadRateLimit)))),
    row "max_ul_rate" .number (some (.integer (int (settings .uploadRateLimit)))),
    row "net.calc_overhead" .boolean (flagText (settings .rateLimitIpOverhead)),
    row "net.ratelimit_utp" .boolean (flagText (settings .rateLimitUtp)),
    row "save_path" .string (absoluteSavePath site daemon),
    get site daemon Service.lsd.key "lsd" .boolean "false",
    get site daemon Service.natpmp.key "natpmp" .boolean "false",
    get site daemon Service.upnp.key "upnp" .boolean "false",
    get site daemon cookieKey "webui.cookie" .string "{}",
    row "bt.allow_same_ip" .boolean (flagText (settings .allowMultipleConnectionsPerIp)),
    row "bt.anonymous_mode" .boolean (flagText (settings .anonymousMode)),
    get site daemon utpKey "net.enable_utp" .boolean "true",
    row "net.max_halfopen" .number (some (.string (orUnlimited (int (settings .halfOpenLimit))
      (2147483647 ≤ int (settings .halfOpenLimit))))),
    get site daemon (key "activeDownloads") "bt.active_downloads" .number
      (orUnlimited (int (settings .activeDownloads)) (2147483647 < int (settings .activeDownloads))),
    get site daemon (key "activeSeeds") "bt.active_seeds" .number
      (orUnlimited (int (settings .activeSeeds)) (2147483647 < int (settings .activeSeeds))),
    get site daemon (key "activeLimit") "bt.active_limit" .number
      (orUnlimited (int (settings .activeLimit)) (2147483647 < int (settings .activeLimit))),
    get site daemon (key "dontCountSlowTorrents") "bt.dont_count_slow_torrents" .boolean "true"]

/-- The row as it is answered, if reading its value does not throw. -/
def Row.answered (row : Row (Option Value)) : Option (Row Value) :=
  row.value.map fun value => ⟨row.key, row.type, value, row.params⟩

/-- `webui.getSettings`. -/
def getSettings : Option (List (Row Value)) := (rows site daemon).mapM Row.answered

end GetSettings

section SetSettings

/-- The arms of the switch besides those for the port and the session settings. -/
inductive Arm where
  | service (service : Service)
  | downloadDirectories
  | enableUtp
  | savePath
  | cookie

/-- The switch over the keys. Keys without a case go to `core.setSettings`. -/
def arms : List (String × Arm) :=
  [("dht", .service .dht),
    ("download_directories", .downloadDirectories),
    ("lsd", .service .lsd),
    ("net.enable_utp", .enableUtp),
    ("natpmp", .service .natpmp),
    ("upnp", .service .upnp),
    ("save_path", .savePath),
    ("webui.cookie", .cookie)]

variable (conversions : Conversions)

/-- `set(key, value)`. -/
def set (daemon : Daemon) (option : String × Value) : Option Daemon :=
  match arms.lookup option.1 with
  | none => do
      let state ← Settings.set conversions ⟨daemon.config, daemon.live.running⟩ option
      return { config := state.config, live := { daemon.live with running := state.running } }
  | some (.service service) => do
      let flag := option.2.truthy
      let config ← setKey daemon.config service.key (.boolean flag)
      return {
        config := config
        live := { daemon.live with services := Function.update daemon.live.services service flag } }
  | some .downloadDirectories =>
      match option.2 with
      | .array items named => do
          let config ← setKey daemon.config (key "downloadDirectories") (.array items named)
          return { daemon with config := config }
      | _ => some daemon
  | some .enableUtp => do
      -- the session has no properties for what is set next
      let config ← setKey daemon.config utpKey (.boolean option.2.truthy)
      return { daemon with config := config }
  | some .savePath => do
      let config ← setKey daemon.config (key "defaultSavePath") option.2
      return { daemon with config := config }
  | some .cookie => do
      let config ← setKey daemon.config cookieKey option.2
      return { daemon with config := config }

/-- `webui.setSettings`: the state it leaves, and whether it returns. -/
def setSettings : Daemon → Members → Daemon × Bool
  | daemon, [] => (daemon, true)
  | daemon, option :: rest =>
      match set conversions daemon option with
      | none => (daemon, false)
      | some next => setSettings next rest

end SetSettings

section Changes

/-- What an arm does: a write to the configuration, and a change of the session. -/
structure Change where
  path : List String
  value : Value
  live : Live → Live

/-- The session listens on the port. -/
def Live.withPort (port : CInt) (live : Live) : Live :=
  { live with running := { live.running with port := port } }

/-- The session has the setting. -/
def Live.withSetting (setting : Setting) (content : setting.kind.Content) (live : Live) : Live :=
  { live with running := { live.running with
      settings := Function.update live.running.settings setting content } }

/-- The service runs or not. -/
def Live.withService (service : Service) (flag : Bool) (live : Live) : Live :=
  { live with services := Function.update live.services service flag }

variable (conversions : Conversions)

/-- The change for an option, if there is any. Only its conversion can throw. -/
def change (option : String × Value) : Option (Option Change) :=
  match arms.lookup option.1 with
  | some (.service service) =>
      some (some ⟨service.key, .boolean option.2.truthy, Live.withService service option.2.truthy⟩)
  | some .downloadDirectories =>
      match option.2 with
      | .array items named => some (some ⟨key "downloadDirectories", .array items named, id⟩)
      | _ => some none
  | some .enableUtp => some (some ⟨utpKey, .boolean option.2.truthy, id⟩)
  | some .savePath => some (some ⟨key "defaultSavePath", option.2, id⟩)
  | some .cookie => some (some ⟨cookieKey, option.2, id⟩)
  | none =>
      match Settings.arms.lookup option.1 with
      | none => some none
      | some .bindPort =>
          (conversions.parseInt option.2).map fun port =>
            some ⟨key "listenPort", .number port, Live.withPort (toInt port)⟩
      | some (.setting setting conversion) =>
          (conversion.convert conversions option.2).bind fun value =>
            if isNaN value then some none
            else (setting.kind.require value).map fun content =>
              some ⟨key setting.name, value, Live.withSetting setting content⟩

/-- What a setting pushes is no NaN. -/
theorem isNaN_push (kind : Kind) (content : kind.Content) : isNaN (kind.push content) = false := by
  cases kind <;> rfl

/-- The change for a setting of the session whose value converts. -/
theorem change_converted (name : String) (value : Value) (setting : Setting)
    (conversion : Conversion) (content : setting.kind.Content) (other : arms.lookup name = none)
    (arm : Settings.arms.lookup name = some (.setting setting conversion))
    (converted : conversion.convert conversions value = some (setting.kind.push content)) :
    change conversions (name, value) =
      some (some ⟨key setting.name, setting.kind.push content,
        Live.withSetting setting content⟩) := by
  simp only [change, other, arm, converted, Option.bind_some, isNaN_push, Kind.require_push]
  rfl

/-- Make a change, if there is any. -/
def Change.apply (daemon : Daemon) : Option Change → Option Daemon
  | none => some daemon
  | some change =>
      (setKey daemon.config change.path change.value).map fun config =>
        ⟨config, change.live daemon.live⟩

/-- A change writes the configuration, and then changes the session. -/
theorem apply_some (daemon : Daemon) (made : Change) :
    Change.apply daemon (some made) = (setKey daemon.config made.path made.value).bind fun config =>
      some ⟨config, made.live daemon.live⟩ :=
  Option.map_eq_bind ..

/-- Every arm is its change. -/
theorem set_eq (daemon : Daemon) (option : String × Value) :
    set conversions daemon option =
      (change conversions option).bind (Change.apply daemon) := by
  obtain ⟨name, value⟩ := option
  unfold set change
  cases arms.lookup name with
  | some arm =>
    cases arm with
    | service service =>
      exact (apply_some daemon ⟨service.key, .boolean value.truthy,
        Live.withService service value.truthy⟩).symm
    | downloadDirectories =>
      cases value with
      | array items named =>
        exact (apply_some daemon ⟨key "downloadDirectories", .array items named, id⟩).symm
      | _ => rfl
    | enableUtp => exact (apply_some daemon ⟨utpKey, .boolean value.truthy, id⟩).symm
    | savePath => exact (apply_some daemon ⟨key "defaultSavePath", value, id⟩).symm
    | cookie => exact (apply_some daemon ⟨cookieKey, value, id⟩).symm
  | none =>
    simp only [Settings.set]
    cases Settings.arms.lookup name with
    | none => rfl
    | some arm =>
      cases arm with
      | bindPort =>
        simp only []
        cases conversions.parseInt value with
        | none => rfl
        | some port =>
          simp only [Option.bind_eq_bind, Option.bind_some, Option.map_some, apply_some]
          cases setKey daemon.config (key "listenPort") (.number port) <;> rfl
      | setting setting conversion =>
        simp only []
        cases conversion.convert conversions value with
        | none => rfl
        | some converted =>
          simp only [Option.bind_eq_bind, Option.bind_some]
          by_cases nan : isNaN converted = true
          · simp [nan, Change.apply]
          · simp only [nan]
            cases setting.kind.require converted <;>
              cases written : setKey daemon.config (key setting.name) converted <;>
              simp [Change.apply, written, Live.withSetting]

/-- The part of the session an arm changes. -/
inductive Part where
  | port
  | setting (setting : Setting)
  | service (service : Service)
  | nothing
deriving DecidableEq

/-- Where an arm writes, and what it changes of the session. -/
def Arm.place : Arm → List String × Part
  | .service own => (own.key, .service own)
  | .downloadDirectories => (key "downloadDirectories", .nothing)
  | .enableUtp => (utpKey, .nothing)
  | .savePath => (key "defaultSavePath", .nothing)
  | .cookie => (cookieKey, .nothing)

/-- The same for the arms of `core.setSettings`. -/
def corePlace : Settings.Arm → List String × Part
  | .bindPort => (key "listenPort", .port)
  | .setting setting _ => (key setting.name, .setting setting)

/-- Where the arm for a key writes. -/
def places : List (String × List String × Part) :=
  arms.map (fun arm => (arm.1, arm.2.place)) ++
    Settings.arms.map fun arm => (arm.1, corePlace arm.2)

/-- A part of the session is as it was. -/
def SameAt (before after : Live) : Part → Prop
  | .port => after.running.port = before.running.port
  | .setting setting => after.running.settings setting = before.running.settings setting
  | .service service => after.services service = before.services service
  | .nothing => True

/-- The arms write to different places. -/
theorem places_apart : ∀ place ∈ places, ∀ other ∈ places, other.1 ≠ place.1 →
    diverge place.2.1 other.2.1 = true ∧ (other.2.2 ≠ place.2.2 ∨ other.2.2 = .nothing) := by
  decide

/-- No place is the length of an array, and none is the root. -/
theorem places_ordinary : ∀ place ∈ places, "length" ∉ place.2.1 ∧ place.2.1 ≠ [] := by
  decide

/-- The port is one part of what is in effect. -/
theorem sameAt_withPort (port : CInt) (live : Live) (part : Part) (other : part ≠ .port) :
    SameAt live (live.withPort port) part := by
  cases part with
  | port => exact absurd rfl other
  | _ => first | rfl | trivial

/-- A setting is one part. -/
theorem sameAt_withSetting (setting : Setting) (content : setting.kind.Content) (live : Live)
    (part : Part) (other : part ≠ .setting setting) :
    SameAt live (live.withSetting setting content) part := by
  cases part with
  | setting own =>
    have distinct : own ≠ setting := fun same => other (congrArg Part.setting same)
    exact Function.update_of_ne distinct content live.running.settings
  | _ => first | rfl | trivial

/-- A service is one part. -/
theorem sameAt_withService (service : Service) (flag : Bool) (live : Live) (part : Part)
    (other : part ≠ .service service) : SameAt live (live.withService service flag) part := by
  cases part with
  | service own =>
    have distinct : own ≠ service := fun same => other (congrArg Part.service same)
    exact Function.update_of_ne distinct flag live.services
  | _ => first | rfl | trivial

/-- Nothing has changed. -/
theorem sameAt_refl (live : Live) (part : Part) : SameAt live live part := by
  cases part <;> first | rfl | trivial

/-- What two changes leave, both together leave. -/
theorem sameAt_trans (first second third : Live) (part : Part)
    (later : SameAt second third part) (earlier : SameAt first second part) :
    SameAt first third part := by
  cases part with
  | nothing => trivial
  | port => exact Eq.trans later earlier
  | setting setting => exact Eq.trans later earlier
  | service service => exact Eq.trans later earlier

/-- A change stays at its place. -/
structure At (place : String × List String × Part) (option : String × Value) (change : Change) :
    Prop where
  listed : place ∈ places
  key : place.1 = option.1
  path : place.2.1 = change.path
  own : ∀ live other, SameAt (change.live live) (change.live other) place.2.2
  others : ∀ live part, part ≠ place.2.2 → SameAt live (change.live live) part

/-- A change of the configuration alone is at its place. -/
theorem at_configuration (name : String) (value written : Value) (path : List String)
    (listed : (name, path, Part.nothing) ∈ places) :
    At (name, path, .nothing) (name, value) ⟨path, written, id⟩ where
  listed := listed
  key := rfl
  path := rfl
  own _ _ := trivial
  others live part _ := sameAt_refl live part

/-- Every change of an arm is at the arm's place. -/
theorem change_at (option : String × Value) (made : Change)
    (changes : change conversions option = some (some made)) :
    ∃ place, At place option made := by
  obtain ⟨name, value⟩ := option
  unfold change at changes
  cases found : arms.lookup name with
  | some arm =>
    have listed : (name, arm.place) ∈ places :=
      List.mem_append_left _ (List.mem_map.mpr ⟨_, mem_of_lookup name arm arms found, rfl⟩)
    simp only [found] at changes
    cases arm with
    | service service =>
      obtain rfl := Option.some.inj (Option.some.inj changes)
      exact ⟨_, listed, rfl, rfl, fun live other => by simp [Arm.place, SameAt, Live.withService],
        fun live part => sameAt_withService service _ live part⟩
    | downloadDirectories =>
      cases value with
      | array items named =>
        obtain rfl := Option.some.inj (Option.some.inj changes)
        exact ⟨_, at_configuration name _ _ _ listed⟩
      | _ => cases changes
    | enableUtp =>
      obtain rfl := Option.some.inj (Option.some.inj changes)
      exact ⟨_, at_configuration name _ _ _ listed⟩
    | savePath =>
      obtain rfl := Option.some.inj (Option.some.inj changes)
      exact ⟨_, at_configuration name _ _ _ listed⟩
    | cookie =>
      obtain rfl := Option.some.inj (Option.some.inj changes)
      exact ⟨_, at_configuration name _ _ _ listed⟩
  | none =>
    simp only [found] at changes
    cases core : Settings.arms.lookup name with
    | none =>
      rw [core] at changes
      cases changes
    | some arm =>
      have listed : (name, corePlace arm) ∈ places :=
        List.mem_append_right _ (List.mem_map.mpr ⟨_, mem_of_lookup name arm _ core, rfl⟩)
      simp only [core] at changes
      cases arm with
      | bindPort =>
        obtain ⟨port, _, same⟩ := Option.map_eq_some_iff.mp changes
        obtain rfl := Option.some.inj same
        exact ⟨_, listed, rfl, rfl, fun _ _ => rfl,
          fun live part => sameAt_withPort (toInt port) live part⟩
      | setting setting conversion =>
        obtain ⟨converted, _, rest⟩ := Option.bind_eq_some_iff.mp changes
        split at rest
        · cases rest
        · obtain ⟨content, _, same⟩ := Option.map_eq_some_iff.mp rest
          obtain rfl := Option.some.inj same
          exact ⟨_, listed, rfl, rfl,
            fun live other => by simp [corePlace, SameAt, Live.withSetting],
            fun live part => sameAt_withSetting setting content live part⟩

/-- A change is made exactly where its write gets through, and its write puts the
value at its place. -/
theorem apply_at (daemon : Daemon) (option : String × Value) (made : Change)
    (place : String × List String × Part) (own : At place option made) :
    (Change.apply daemon (some made)).isSome = reaches daemon.config made.path ∧
      ∀ next, Change.apply daemon (some made) = some next →
        Placed daemon.config next.config made.path made.value ∧
          next.live = made.live daemon.live := by
  obtain ⟨noLength, nonempty⟩ := places_ordinary place own.listed
  rw [own.path] at noLength nonempty
  obtain ⟨part, rest, path⟩ := List.exists_cons_of_ne_nil nonempty
  rw [path] at noLength ⊢
  simp only [Change.apply, Option.isSome_map, path]
  refine ⟨setKey_isSome part rest daemon.config made.value noLength, fun next applied => ?_⟩
  obtain ⟨config, written, rfl⟩ := Option.map_eq_some_iff.mp applied
  exact ⟨placed_setKey part rest daemon.config config made.value noLength written, rfl⟩

/-- Keys that part from where an option writes are as before. -/
theorem framed_set (daemon next : Daemon) (option : String × Value)
    (done : set conversions daemon option = some next) (other : List String)
    (parts : ∀ place ∈ places, place.1 = option.1 → diverge place.2.1 other = true)
    (noLength : "length" ∉ other) : Framed daemon.config next.config other := by
  rw [set_eq] at done
  obtain ⟨made, changes, applied⟩ := Option.bind_eq_some_iff.mp done
  cases made with
  | none =>
    obtain rfl := Option.some.inj applied
    exact ⟨fun _ found => found, rfl, rfl, rfl, rfl⟩
  | some made =>
    obtain ⟨config, written, rfl⟩ := Option.map_eq_some_iff.mp applied
    obtain ⟨own, listed, key, path, _⟩ := change_at conversions option made changes
    have parted := parts own listed key
    rw [path] at parted
    exact framed_setKey made.path other daemon.config config made.value parted
      (path ▸ (places_ordinary own listed).1) noLength written

/-- What an option leaves untouched: the places of the other keys. -/
theorem untouched_set (daemon next : Daemon) (option : String × Value)
    (done : set conversions daemon option = some next) (place : String × List String × Part)
    (listed : place ∈ places) (other : place.1 ≠ option.1) :
    Framed daemon.config next.config place.2.1 ∧ SameAt daemon.live next.live place.2.2 := by
  constructor
  · refine framed_set conversions daemon next option done place.2.1 (fun own ownListed key => ?_)
      (places_ordinary place listed).1
    exact (places_apart own ownListed place listed (by rw [key]; exact other)).1
  · rw [set_eq] at done
    obtain ⟨made, changes, applied⟩ := Option.bind_eq_some_iff.mp done
    cases made with
    | none =>
      obtain rfl := Option.some.inj applied
      exact sameAt_refl _ _
    | some made =>
      obtain ⟨config, _, rfl⟩ := Option.map_eq_some_iff.mp applied
      obtain ⟨own, ownListed, key, _, _, others⟩ := change_at conversions option made changes
      rcases (places_apart own ownListed place listed (by rw [key]; exact other)).2 with
        apart | still
      · exact others daemon.live place.2.2 apart
      · rw [still]
        trivial

/-- The same over the options of a call, however it ends. -/
theorem untouched_setSettings (options : Members) (daemon : Daemon)
    (place : String × List String × Part) (listed : place ∈ places)
    (other : place.1 ∉ options.map Prod.fst) :
    Framed daemon.config (setSettings conversions daemon options).1.config place.2.1 ∧
      SameAt daemon.live (setSettings conversions daemon options).1.live place.2.2 := by
  induction options generalizing daemon with
  | nil => exact ⟨⟨fun _ found => found, rfl, rfl, rfl, rfl⟩, sameAt_refl _ _⟩
  | cons option rest ih =>
    rw [List.map_cons, List.mem_cons, not_or] at other
    rw [setSettings]
    cases done : set conversions daemon option with
    | none => exact ⟨⟨fun _ found => found, rfl, rfl, rfl, rfl⟩, sameAt_refl _ _⟩
    | some next =>
      obtain ⟨framed, same⟩ := untouched_set conversions daemon next option done place listed other.1
      obtain ⟨laterFramed, laterSame⟩ := ih next other.2
      exact ⟨laterFramed.trans framed, sameAt_trans _ _ _ _ laterSame same⟩

end Changes

end Hadouken.WebuiSettings
