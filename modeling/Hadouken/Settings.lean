import Hadouken.Config
import Hadouken.Library.Runs
import Mathlib.Data.Rat.Floor
import Mathlib.Logic.Function.Basic

/-!
# Session settings

The settings of the session come from three places: the library's own defaults,
the property tree that `application::start` reads, and the scripts' configuration
that `load` reads. While the daemon runs, `webui.setSettings` changes both the
session and the configuration.

Modelled are the listening port and the settings `webui.setSettings` writes; its
arms for other entries are left out. The phases of `load` before the settings
are modelled as far as they can throw. A result is absent where the code throws.
-/

namespace Hadouken.Settings

open Script Config

/-- A value of the type `int`. -/
structure CInt where
  value : Int
  lower : -2 ^ 31 ≤ value
  upper : value < 2 ^ 31
deriving DecidableEq

/-- The integers of 32 bits. -/
def CInt.InRange (value : Int) : Prop := -2 ^ 31 ≤ value ∧ value < 2 ^ 31

/-- Values beyond the range become its ends. -/
def CInt.clamp (value : Int) : CInt where
  value := max (-2 ^ 31) (min value (2 ^ 31 - 1))
  lower := by omega
  upper := by omega

/-- An integer of 32 bits is not clamped. -/
theorem CInt.clamp_value (number : CInt) : CInt.clamp number.value = number := by
  obtain ⟨value, lower, upper⟩ := number
  simp only [CInt.clamp, CInt.mk.injEq]
  omega

/-- The conversion of a script number to `int`. -/
def toInt : Number → CInt
  | .nan => CInt.clamp 0
  | .infinite negative => CInt.clamp (if negative then -2 ^ 31 else 2 ^ 31)
  | .finite value => CInt.clamp (value.num.tdiv value.den)

/-- It is its own conversion. -/
theorem toInt_integer (number : CInt) : toInt (.finite number.value) = number := by
  simp [toInt, CInt.clamp_value]

/-- The types of the session's settings. -/
inductive Kind where
  | int
  | bool
deriving DecidableEq

/-- What a setting of the type holds. -/
abbrev Kind.Content : Kind → Type
  | .int => CInt
  | .bool => Bool

/-- Contents are compared. -/
instance (kind : Kind) : DecidableEq kind.Content := by
  cases kind <;> unfold Kind.Content <;> infer_instance

/-- The value a getter of the settings object pushes. -/
def Kind.push : (kind : Kind) → kind.Content → Value
  | .int, number => .integer number.value
  | .bool, flag => .boolean flag

/-- `duk_require_int` and `duk_require_boolean`, which throw on other types. -/
def Kind.require : (kind : Kind) → Value → Option kind.Content
  | .int, .number number => some (toInt number)
  | .bool, .boolean flag => some flag
  | _, _ => none

/-- What is pushed for a content is taken for it. -/
@[simp] theorem Kind.require_push (kind : Kind) (content : kind.Content) :
    kind.require (kind.push content) = some content := by
  cases kind with
  | int => exact congrArg some (toInt_integer content)
  | bool => rfl

/-- Contents are told apart by what is pushed for them. -/
theorem Kind.push_inj (kind : Kind) (first second : kind.Content) :
    kind.push first = kind.push second ↔ first = second := by
  constructor
  · intro same
    have required := congrArg kind.require same
    rw [require_push, require_push] at required
    exact Option.some.inj required
  · rintro rfl
    rfl

/-- What a getter pushes is plain. -/
theorem Kind.plain_push (kind : Kind) (content : kind.Content) :
    Json.Plain (kind.push content) := by
  cases kind with
  | int => exact ⟨_, rfl⟩
  | bool => trivial

/-- Something is pushed for every content. -/
theorem Kind.push_ne_undefined (kind : Kind) (content : kind.Content) :
    kind.push content ≠ .undefined := by
  cases kind <;> simp [Kind.push, Value.integer]

/-- The settings `webui.setSettings` writes. -/
inductive Setting where
  | connectionsLimit
  | downloadRateLimit
  | uploadRateLimit
  | mixedModeAlgorithm
  | halfOpenLimit
  | activeDownloads
  | activeSeeds
  | activeLimit
  | rateLimitIpOverhead
  | rateLimitUtp
  | allowMultipleConnectionsPerIp
  | anonymousMode
  | dontCountSlowTorrents
deriving DecidableEq

/-- The type of a setting. -/
def Setting.kind : Setting → Kind
  | .connectionsLimit | .downloadRateLimit | .uploadRateLimit | .mixedModeAlgorithm
  | .halfOpenLimit | .activeDownloads | .activeSeeds | .activeLimit => .int
  | .rateLimitIpOverhead | .rateLimitUtp | .allowMultipleConnectionsPerIp | .anonymousMode
  | .dontCountSlowTorrents => .bool

/-- The name of a setting, in the settings object as in the configuration. -/
def Setting.name : Setting → String
  | .connectionsLimit => "connectionsLimit"
  | .downloadRateLimit => "downloadRateLimit"
  | .uploadRateLimit => "uploadRateLimit"
  | .mixedModeAlgorithm => "mixedModeAlgorithm"
  | .halfOpenLimit => "halfOpenLimit"
  | .activeDownloads => "activeDownloads"
  | .activeSeeds => "activeSeeds"
  | .activeLimit => "activeLimit"
  | .rateLimitIpOverhead => "rateLimitIpOverhead"
  | .rateLimitUtp => "rateLimitUtp"
  | .allowMultipleConnectionsPerIp => "allowMultipleConnectionsPerIp"
  | .anonymousMode => "anonymousMode"
  | .dontCountSlowTorrents => "dontCountSlowTorrents"

/-- Settings are told apart by their names. -/
theorem Setting.name_inj (first second : Setting) : first.name = second.name ↔ first = second := by
  constructor
  · intro same
    cases first <;> cases second <;> first | rfl | (exact absurd same (by decide))
  · rintro rfl
    rfl

/-- A content for each setting. -/
abbrev SessionSettings := (setting : Setting) → setting.kind.Content

/-- `"bittorrent." + name`. -/
def key (name : String) : List String := ["bittorrent", name]

section Start

/-- The property tree's conversions of a node. What a setter wrote is converted
back; for other nodes nothing is assumed. -/
structure PropertyTree where
  get : (kind : Kind) → Value → Option kind.Content
  get_push : ∀ kind content, get kind (kind.push content) = some content

/-- The settings `application::start` reads. -/
def startSettings : List Setting :=
  [.activeDownloads, .activeSeeds, .activeLimit, .dontCountSlowTorrents]

/-- `config_.get("bittorrent." + name, fallback)`. -/
def treeGet (tree : PropertyTree) (config : Value) (setting : Setting)
    (fallback : setting.kind.Content) : setting.kind.Content :=
  ((treeLookup config (key setting.name)).bind (tree.get setting.kind)).getD fallback

/-- The settings part of `application::start`. -/
def start (tree : PropertyTree) (config : Value) (defaults : SessionSettings) : SessionSettings :=
  startSettings.foldl
    (fun settings setting =>
      Function.update settings setting (treeGet tree config setting (settings setting)))
    defaults

end Start

section Load

variable (conversions : Conversions) (config : Value)

/-- The listening port of `load`. -/
def loadPort : Option CInt := do
  let listenPort := (← findKey config (key "listenPort")).orElse (.integer 6881)
  let number ← conversions.toNumber listenPort
  if number = .nan then return CInt.clamp 6881
  return toInt number

/-- The country database needs a string for its path. -/
def loadGeoIp : Option Unit := do
  let geoIp ← findKey config (key "geoIpFile")
  if geoIp.truthy then
    match geoIp with
    | .string _ => return
    | _ => none

/-- One DHT router: a string and a number. -/
def addDhtRouter (router : Value) : Option Unit := do
  match ← router.member "0" with
  | .string _ => pure ()
  | _ => none
  let _ ← Kind.int.require (← router.member "1")

/-- The loop over the DHT routers. -/
def addDhtRouters : Option Unit := do
  let routers := (← findKey config ["bittorrent", "dht", "routers"]).orElse (.array [] [])
  match ← conversions.toNumber (← routers.member "length") with
  | .finite length =>
      for i in List.range ⌈length⌉.toNat do
        addDhtRouter (← routers.member (toString i))
  | .infinite false => none
  | _ => pure ()

/-- The services started next are only looked up. -/
def lookupServices : Option Unit := do
  let _ ← findKey config ["bittorrent", "dht", "enabled"]
  let _ ← findKey config ["bittorrent", "lsd", "enabled"]
  let _ ← findKey config ["bittorrent", "natpmp", "enabled"]
  let _ ← findKey config ["bittorrent", "upnp", "enabled"]

/-- `settings.x = (config.get("bittorrent.x") || settings.x)`. -/
def fallback (setting : Setting) (current : setting.kind.Content) : Option setting.kind.Content := do
  let value ← findKey config (key setting.name)
  setting.kind.require (value.orElse (setting.kind.push current))

/-- The settings taken over unless they are undefined. -/
def typed (setting : Setting) (current : setting.kind.Content) : Option setting.kind.Content := do
  match ← findKey config (key setting.name) with
  | .undefined => return current
  | value => setting.kind.require value

/-- How the settings part of `load` treats its entries. -/
inductive Rule where
  | fallback (setting : Setting)
  | typed (setting : Setting)
  | utp
deriving DecidableEq

/-- The settings part of `load`, in its order. -/
def rules : List Rule :=
  [.fallback .connectionsLimit, .fallback .downloadRateLimit, .fallback .mixedModeAlgorithm,
    .fallback .rateLimitIpOverhead, .fallback .rateLimitUtp, .fallback .uploadRateLimit,
    .typed .allowMultipleConnectionsPerIp, .typed .anonymousMode, .utp, .fallback .halfOpenLimit]

/-- One rule on the settings read so far. What is set for uTP is no property of
the settings object and has no effect. -/
def applyRule (settings : SessionSettings) : Rule → Option SessionSettings
  | .fallback setting =>
      (Settings.fallback config setting (settings setting)).map
        (Function.update settings setting)
  | .typed setting =>
      (Settings.typed config setting (settings setting)).map
        (Function.update settings setting)
  | .utp => (findKey config ["bittorrent", "utp", "enabled"]).map fun _ => settings

/-- All rules, one after the other. A rule that throws ends them. -/
def loadSettings (settings : SessionSettings) : Option SessionSettings :=
  rules.foldlM (applyRule config) settings

/-- The port and the settings in effect. -/
structure Running where
  port : CInt
  settings : SessionSettings

/-- `load` up to the session settings. -/
def load (settings : SessionSettings) : Option Running := do
  let port ← loadPort conversions config
  loadGeoIp config
  addDhtRouters conversions config
  lookupServices config
  return { port := port, settings := ← loadSettings config settings }

end Load

/-- The session state the library saves and restores: restoring what was saved
brings the settings back. -/
structure SessionState (Saved : Type) where
  saveState : SessionSettings → Saved
  loadState : Saved → SessionSettings → SessionSettings
  loadState_saveState : ∀ settings current, loadState (saveState settings) current = settings

section Boot

variable {Saved : Type} (tree : PropertyTree) (conversions : Conversions)
  (library : SessionState Saved) (defaults : SessionSettings)

/-- A start of the daemon: `application::start`, then `load` with `loadState`,
which does nothing without a state file. -/
def boot (stateFile : Option Saved) (config : Value) : Option Running := do
  let running ← load conversions config (start tree config defaults)
  match stateFile with
  | none => return running
  | some saved => return { running with settings := library.loadState saved running.settings }

end Boot

section SetSettings

/-- How an arm of `webui.setSettings` converts its value: `parseInt(value, 10)`,
`!!(value)`, or 1 and 0 for the latter. -/
inductive Conversion where
  | integer
  | flag
  | oneOrZero
deriving DecidableEq

/-- The conversion of a value. Only `parseInt` can throw. -/
def Conversion.convert (conversions : Conversions) : Conversion → Value → Option Value
  | .integer, value => (conversions.parseInt value).map .number
  | .flag, value => some (.boolean value.truthy)
  | .oneOrZero, value => some (.integer (if value.truthy then 1 else 0))

/-- The type of setting a conversion is for. -/
def Conversion.kind : Conversion → Kind
  | .integer | .oneOrZero => .int
  | .flag => .bool

/-- What an arm of the switch sets. -/
inductive Arm where
  | bindPort
  | setting (setting : Setting) (conversion : Conversion)
deriving DecidableEq

/-- The arms of the switch. -/
def arms : List (String × Arm) :=
  [("bind_port", .bindPort),
    ("bt.active_downloads", .setting .activeDownloads .integer),
    ("bt.active_seeds", .setting .activeSeeds .integer),
    ("bt.active_limit", .setting .activeLimit .integer),
    ("bt.dont_count_slow_torrents", .setting .dontCountSlowTorrents .flag),
    ("bt.anonymous_mode", .setting .anonymousMode .flag),
    ("bt.allow_same_ip", .setting .allowMultipleConnectionsPerIp .flag),
    ("conns_globally", .setting .connectionsLimit .integer),
    ("enable_bw_management", .setting .mixedModeAlgorithm .oneOrZero),
    ("max_dl_rate", .setting .downloadRateLimit .integer),
    ("max_ul_rate", .setting .uploadRateLimit .integer),
    ("net.calc_overhead", .setting .rateLimitIpOverhead .flag),
    ("net.max_halfopen", .setting .halfOpenLimit .integer),
    ("net.ratelimit_utp", .setting .rateLimitUtp .flag)]

/-- A conversion is for the type of its setting. -/
theorem kind_of_arm (name : String) (setting : Setting) (conversion : Conversion)
    (arm : arms.lookup name = some (.setting setting conversion)) :
    conversion.kind = setting.kind := by
  have all : ∀ entry ∈ arms, match entry.2 with
      | .setting setting conversion => conversion.kind = setting.kind
      | .bindPort => True := by
    simp [arms, Conversion.kind, Setting.kind]
  exact all _ (mem_of_lookup name _ arms arm)

/-- The daemon between two requests. -/
structure State where
  config : Value
  running : Running

/-- The value is not a number, where that is tested. -/
def isNaN : Value → Bool
  | .number .nan => true
  | _ => false

/-- `set(key, value)` of webui.setSettings. The message about an invalid port is
not thrown. -/
def set (conversions : Conversions) (state : State) (option : String × Value) : Option State :=
  match arms.lookup option.1 with
  | none => some state
  | some .bindPort => do
      let port ← conversions.parseInt option.2
      let config ← setKey state.config (key "listenPort") (.number port)
      return { config := config, running := { state.running with port := toInt port } }
  | some (.setting setting conversion) => do
      let value ← conversion.convert conversions option.2
      if isNaN value then return state
      let config ← setKey state.config (key setting.name) value
      let content ← setting.kind.require value
      return {
        config := config
        running := { state.running with
          settings := Function.update state.running.settings setting content } }

/-- One call: its options in their order. -/
def setSettings (conversions : Conversions) (state : State) (options : Members) : Option State :=
  Runs.run (set conversions) state options

end SetSettings

end Hadouken.Settings
