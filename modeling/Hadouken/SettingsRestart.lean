import Hadouken.Settings

/-!
# Settings across a restart

The settings in effect when the daemon stops are compared with those of the next
start, which reads them from the configuration in three ways. `unload` also
saves the session state, from which the library restores the settings but not
the port; without the file the configuration alone decides.
-/

namespace Hadouken.SettingsRestart

open Script Config Settings Runs

section Reading

variable (tree : PropertyTree) (conversions : Conversions) (defaults : SessionSettings)
  (config : Value)

/-- The setting a rule is about. One rule is about the transport. -/
def ruleSetting : Rule → Option Setting
  | .fallback setting | .typed setting => some setting
  | .utp => none

/-- A rule read this setting as it is in the end. -/
def Reads (settings final : SessionSettings) : Rule → Prop
  | .fallback setting => fallback config setting (settings setting) = some (final setting)
  | .typed setting => typed config setting (settings setting) = some (final setting)
  | .utp => (findKey config ["bittorrent", "utp", "enabled"]).isSome = true

/-- A rule about another setting reads the same. -/
theorem reads_update_iff (settings final : SessionSettings) (setting : Setting)
    (content : setting.kind.Content) (rule : Rule) (other : ruleSetting rule ≠ some setting) :
    Reads config (Function.update settings setting content) final rule ↔
      Reads config settings final rule := by
  cases rule with
  | fallback own =>
    have distinct : own ≠ setting := fun same => other (congrArg some same)
    rw [Reads, Reads, Function.update_of_ne distinct]
  | typed own =>
    have distinct : own ≠ setting := fun same => other (congrArg some same)
    rw [Reads, Reads, Function.update_of_ne distinct]
  | utp => rfl

/-- Settings that agree with updated ones off some others hold the new content,
and agree with the former ones off the updated setting as well. -/
theorem frame_update_iff (settings final : SessionSettings) (setting : Setting)
    (content : setting.kind.Content) (others : List Setting) (outside : setting ∉ others) :
    (∀ other, other ∉ others → final other = Function.update settings setting content other) ↔
      content = final setting ∧ ∀ other, other ∉ setting :: others → final other = settings other := by
  constructor
  · intro same
    have here := same setting outside
    rw [Function.update_self] at here
    refine ⟨here.symm, fun other absent => ?_⟩
    rw [same other (List.not_mem_of_not_mem_cons absent),
      Function.update_of_ne (List.ne_of_not_mem_cons absent)]
  · rintro ⟨here, same⟩ other absent
    by_cases distinct : other = setting
    · subst distinct
      rw [Function.update_self, here]
    · rw [Function.update_of_ne distinct]
      exact same other (List.not_mem_cons_of_ne_of_not_mem distinct absent)

/-- The rules behind one that sets a setting, none of which is about it, read
the same as from before. -/
theorem forall_reads_update_iff (settings final : SessionSettings) (setting : Setting)
    (content : setting.kind.Content) (rules : List Rule)
    (unused : setting ∉ rules.filterMap ruleSetting) :
    (∀ rule ∈ rules, Reads config (Function.update settings setting content) final rule) ↔
      ∀ rule ∈ rules, Reads config settings final rule := by
  refine forall₂_congr fun rule member => ?_
  apply reads_update_iff
  intro same
  exact unused (List.mem_filterMap.mpr ⟨rule, member, same⟩)

/-- Rules about different settings do not depend on one another. The induction
takes the first rule, which no later one touches again. -/
theorem foldlM_applyRule_iff (rules : List Rule) (settings final : SessionSettings)
    (nodup : (rules.filterMap ruleSetting).Nodup) :
    rules.foldlM (applyRule config) settings = some final ↔
      (∀ rule ∈ rules, Reads config settings final rule) ∧
        ∀ setting, setting ∉ rules.filterMap ruleSetting → final setting = settings setting := by
  induction rules generalizing settings with
  | nil =>
    constructor
    · intro same
      obtain rfl := Option.some.inj same
      simp
    · rintro ⟨_, same⟩
      exact congrArg some (funext fun setting => (same setting List.not_mem_nil).symm)
  | cons rule rest ih =>
    rw [List.foldlM_cons]
    -- both kinds of rules that write a setting go the same way
    have writes : ∀ (setting : Setting) (read : Option setting.kind.Content),
        ruleSetting rule = some setting →
        applyRule config settings rule = read.map (Function.update settings setting) →
        (Reads config settings final rule ↔ read = some (final setting)) →
        ((applyRule config settings rule >>= rest.foldlM (applyRule config)) = some final ↔
          (∀ rule' ∈ rule :: rest, Reads config settings final rule') ∧
            ∀ other, other ∉ (rule :: rest).filterMap ruleSetting →
              final other = settings other) := by
      intro setting read own applied reads
      rw [List.filterMap_cons_some own] at nodup ⊢
      obtain ⟨unused, restNodup⟩ := List.nodup_cons.mp nodup
      rw [applied, List.forall_mem_cons, reads]
      cases read with
      | none => simp
      | some content =>
        rw [Option.map_some, Option.bind_eq_bind, Option.bind_some, ih _ restNodup,
          forall_reads_update_iff config settings final setting content rest unused,
          frame_update_iff settings final setting content _ unused, Option.some.injEq]
        tauto
    cases rule with
    | fallback setting => exact writes setting _ rfl rfl Iff.rfl
    | typed setting => exact writes setting _ rfl rfl Iff.rfl
    | utp =>
      rw [List.filterMap_cons_none rfl] at nodup ⊢
      rw [List.forall_mem_cons, applyRule, Reads]
      cases findKey config ["bittorrent", "utp", "enabled"] with
      | none => simp
      | some value => simpa using ih settings nodup

/-- `application::start` changes the settings it reads. -/
theorem start_eq (setting : Setting) :
    start tree config defaults setting =
      if setting ∈ startSettings then treeGet tree config setting (defaults setting)
      else defaults setting := by
  cases setting <;> rfl

/-- What a start reads for a setting. -/
def readBack (setting : Setting) : Option setting.kind.Content :=
  if .fallback setting ∈ rules then fallback config setting (defaults setting)
  else if .typed setting ∈ rules then typed config setting (defaults setting)
  else some (treeGet tree config setting (defaults setting))

/-- The settings of a start without a state file are what it reads back. -/
theorem loadSettings_start_iff (final : SessionSettings) :
    loadSettings config (start tree config defaults) = some final ↔
      (findKey config ["bittorrent", "utp", "enabled"]).isSome = true ∧
        ∀ setting, readBack tree defaults config setting = some (final setting) := by
  have kept : ∀ setting, .fallback setting ∈ rules ∨ .typed setting ∈ rules →
      start tree config defaults setting = defaults setting := by
    intro setting ruled
    have unread : setting ∉ startSettings := by
      revert ruled
      cases setting <;> decide
    rw [start_eq, if_neg unread]
  have remaining : ∀ setting, .fallback setting ∉ rules → .typed setting ∉ rules →
      setting ∉ rules.filterMap ruleSetting ∧ setting ∈ startSettings := by
    intro setting
    cases setting <;> decide
  rw [loadSettings, foldlM_applyRule_iff config rules _ _ (by decide)]
  constructor
  · rintro ⟨reads, others⟩
    refine ⟨reads .utp (by decide), fun setting => ?_⟩
    unfold readBack
    by_cases falls : .fallback setting ∈ rules
    · rw [if_pos falls, ← kept setting (.inl falls)]
      exact reads (.fallback setting) falls
    · rw [if_neg falls]
      by_cases types : .typed setting ∈ rules
      · rw [if_pos types, ← kept setting (.inr types)]
        exact reads (.typed setting) types
      · obtain ⟨unruled, started⟩ := remaining setting falls types
        rw [if_neg types, others setting unruled, start_eq, if_pos started]
  · rintro ⟨utp, reads⟩
    refine ⟨fun rule member => ?_, fun setting unruled => ?_⟩
    · cases rule with
      | fallback setting =>
        have read := reads setting
        rw [readBack, if_pos member, ← kept setting (.inl member)] at read
        exact read
      | typed setting =>
        have once : .fallback setting ∉ rules := by
          revert member
          cases setting <;> decide
        have read := reads setting
        rw [readBack, if_neg once, if_pos member, ← kept setting (.inr member)] at read
        exact read
      | utp => exact utp
    · have falls : .fallback setting ∉ rules := fun member =>
        unruled (List.mem_filterMap.mpr ⟨_, member, rfl⟩)
      have types : .typed setting ∉ rules := fun member =>
        unruled (List.mem_filterMap.mpr ⟨_, member, rfl⟩)
      have read := reads setting
      rw [readBack, if_neg falls, if_neg types] at read
      rw [start_eq, if_pos (remaining setting falls types).2, Option.some.inj read]

end Reading

section Writing

variable (tree : PropertyTree) (conversions : Conversions) (defaults : SessionSettings)

/-- `load` returns when each of its phases does. -/
theorem load_iff (config : Value) (settings : SessionSettings) (running : Running) :
    load conversions config settings = some running ↔
      loadPort conversions config = some running.port ∧ loadGeoIp config = some () ∧
        addDhtRouters conversions config = some () ∧ lookupServices config = some () ∧
        loadSettings config settings = some running.settings := by
  obtain ⟨port, final⟩ := running
  unfold load
  cases loadPort conversions config with
  | none => simp
  | some own =>
    cases loadGeoIp config with
    | none => simp
    | some _ =>
      cases addDhtRouters conversions config with
      | none => simp
      | some _ =>
        cases lookupServices config with
        | none => simp
        | some _ =>
          cases loadSettings config settings with
          | none => simp
          | some read => simp

/-- Two configurations that differ in one member of the section at most. -/
structure DifferIn (name : String) (config other : Value) : Prop where
  keys : ∀ part rest, part ≠ name → part ≠ "length" →
    findKey other ("bittorrent" :: part :: rest) = findKey config ("bittorrent" :: part :: rest)
  nodes : ∀ part, part ≠ name → treeLookup other (key part) = treeLookup config (key part)

/-- The other entries `load` looks up. -/
def reserved : List String :=
  ["length", "listenPort", "geoIpFile", "dht", "lsd", "natpmp", "upnp", "utp"]

/-- No setting has the name of another entry of the section. -/
theorem name_not_reserved (setting : Setting) : setting.name ∉ reserved := by
  cases setting <;> decide

/-- The phases before the settings read other entries. -/
theorem phases_eq {name : String} {config other : Value} (differ : DifferIn name config other)
    (ordinary : name ∉ reserved.drop 2) :
    loadGeoIp other = loadGeoIp config ∧
      addDhtRouters conversions other = addDhtRouters conversions config ∧
      lookupServices other = lookupServices config ∧
      findKey other ["bittorrent", "utp", "enabled"] =
        findKey config ["bittorrent", "utp", "enabled"] := by
  have same : ∀ part rest, part ∈ reserved.drop 2 → part ≠ "length" →
      findKey other ("bittorrent" :: part :: rest) =
        findKey config ("bittorrent" :: part :: rest) := by
    intro part rest member noLength
    apply differ.keys part rest _ noLength
    rintro rfl
    exact ordinary member
  refine ⟨?_, ?_, ?_, ?_⟩
  · rw [loadGeoIp, key, same "geoIpFile" [] (by decide) (by decide)]
    rfl
  · rw [addDhtRouters, same "dht" ["routers"] (by decide) (by decide)]
    rfl
  · rw [lookupServices, same "dht" ["enabled"] (by decide) (by decide),
      same "lsd" ["enabled"] (by decide) (by decide),
      same "natpmp" ["enabled"] (by decide) (by decide),
      same "upnp" ["enabled"] (by decide) (by decide)]
    rfl
  · exact same "utp" ["enabled"] (by decide) (by decide)

/-- A setting under another name is read back as before. -/
theorem readBack_eq {name : String} {config other : Value} (differ : DifferIn name config other)
    (setting : Setting) (distinct : setting.name ≠ name) :
    readBack tree defaults other setting = readBack tree defaults config setting := by
  have noLength : setting.name ≠ "length" := fun same =>
    name_not_reserved setting (same ▸ List.mem_cons_self)
  have sameKey : findKey other (key setting.name) = findKey config (key setting.name) :=
    differ.keys setting.name [] distinct noLength
  unfold readBack
  split
  · rw [fallback, sameKey]
    rfl
  · split
    · rw [typed, sameKey]
      rfl
    · rw [treeGet, differ.nodes setting.name distinct]
      rfl

/-- What a start reads back for a setting that was written with this content: a
falsy one gives way to the default where `load` falls back. -/
def returned (setting : Setting) (content : setting.kind.Content) : setting.kind.Content :=
  if .fallback setting ∈ rules ∧ (setting.kind.push content).truthy = false then defaults setting
  else content

/-- A configuration with plain entries whose section can be set. -/
structure Settable (members : Members) : Prop where
  plain : Json.Plain (.object members)
  opened : Open members "bittorrent"

/-- A section that `load` gets through is not `null`. -/
theorem entry_ne_null (members : Members) (port : CInt)
    (loaded : loadPort conversions (.object members) = some port) :
    entry members "bittorrent" ≠ .null := by
  intro null
  have held : (members.lookup "bittorrent").getD .undefined = .null := null
  simp [loadPort, key, findKey, held, Value.member] at loaded

/-- Writing an entry of the section changes that entry only. -/
theorem differIn_withMember (members : Members) (settable : Settable members)
    (readable : entry members "bittorrent" ≠ .null) (name : String) (value : Value) :
    DifferIn name (.object members) (.object (withMember members "bittorrent" name value)) := by
  constructor
  · intro part rest distinct noLength
    exact findKey_withMember_of_ne members "bittorrent" name value settable.opened readable part
      rest distinct noLength
  · intro part distinct
    exact treeLookup_withMember_of_ne members "bittorrent" name value part distinct

/-- It leaves the section settable. -/
theorem settable_withMember (members : Members) (settable : Settable members) (name : String)
    (value : Value) (plain : Json.Plain value) :
    Settable (withMember members "bittorrent" name value) :=
  ⟨plain_withMember members "bittorrent" name value settable.plain plain,
    open_withMember members "bittorrent" name value⟩

/-- A written setting is read back, up to the default. -/
theorem readBack_written (members : Members) (setting : Setting)
    (content : setting.kind.Content) :
    readBack tree defaults (.object (withMember members "bittorrent" setting.name
      (setting.kind.push content))) setting = some (returned defaults setting content) := by
  have read : findKey (.object (withMember members "bittorrent" setting.name
      (setting.kind.push content))) (key setting.name) = some (setting.kind.push content) :=
    findKey_withMember_self _ _ _ _
  have node : treeLookup (.object (withMember members "bittorrent" setting.name
      (setting.kind.push content))) (key setting.name) = some (setting.kind.push content) :=
    treeLookup_withMember_self _ _ _ _
  unfold readBack returned
  by_cases falls : .fallback setting ∈ rules
  · rw [if_pos falls, fallback, read]
    cases truthy : (setting.kind.push content).truthy with
    | false => simp [Value.orElse_falsy _ truthy, falls]
    | true => simp [Value.orElse_truthy _ truthy]
  · have kept : ¬ (.fallback setting ∈ rules ∧ (setting.kind.push content).truthy = false) :=
      fun both => falls both.1
    rw [if_neg falls, if_neg kept]
    by_cases types : .typed setting ∈ rules
    · rw [if_pos types, typed, read, Option.bind_eq_bind, Option.bind_some]
      split
      · rename_i missing
        exact absurd missing (setting.kind.push_ne_undefined content)
      · exact setting.kind.require_push content
    · rw [if_neg types, treeGet, node, Option.bind_some, tree.get_push, Option.getD_some]

/-- The configuration loads, from the settings of the start, as this. -/
def LoadsAs (config : Value) (running : Running) : Prop :=
  load conversions config (start tree config defaults) = some running

/-- After a setting is written the configuration loads as before, up to what is
returned for the setting. -/
theorem loadsAs_setting (members : Members) (settable : Settable members) (running : Running)
    (loads : LoadsAs tree conversions defaults (.object members) running) (setting : Setting)
    (content : setting.kind.Content) :
    LoadsAs tree conversions defaults
      (.object (withMember members "bittorrent" setting.name (setting.kind.push content)))
      { running with
        settings := Function.update running.settings setting
          (returned defaults setting content) } := by
  obtain ⟨port, geoIp, routers, services, settings⟩ := (load_iff _ _ _ _).mp loads
  obtain ⟨utp, reads⟩ := (loadSettings_start_iff _ _ _ _).mp settings
  have differ := differIn_withMember members settable
    (entry_ne_null conversions members running.port port) setting.name (setting.kind.push content)
  have unreserved := name_not_reserved setting
  obtain ⟨sameGeoIp, sameRouters, sameServices, sameUtp⟩ := phases_eq conversions differ
    fun member => unreserved (List.mem_of_mem_drop member)
  refine (load_iff _ _ _ _).mpr ⟨?_, ?_, ?_, ?_, ?_⟩
  · have noPort : "listenPort" ≠ setting.name := fun same => unreserved (by
      rw [← same]
      decide)
    rw [loadPort, key, differ.keys "listenPort" [] noPort (by decide)]
    exact port
  · rw [sameGeoIp, geoIp]
  · rw [sameRouters, routers]
  · rw [sameServices, services]
  · refine (loadSettings_start_iff _ _ _ _).mpr ⟨by rw [sameUtp]; exact utp, fun other => ?_⟩
    dsimp only
    by_cases same : other = setting
    · subst same
      rw [readBack_written, Function.update_self]
    · have distinct : other.name ≠ setting.name := fun equal =>
        same ((Setting.name_inj other setting).mp equal)
      rw [readBack_eq tree defaults differ other distinct, Function.update_of_ne same]
      exact reads other

/-- A configured port is listened on. -/
theorem loadPort_integer (config : Value) (value : Value)
    (read : findKey config (key "listenPort") = some value) (port : CInt)
    (chosen : value.orElse (.integer 6881) = .integer port.value) :
    loadPort conversions config = some port := by
  have number : conversions.toNumber (.integer port.value) = some (.finite port.value) :=
    conversions.toNumber_number _
  simp only [loadPort, read, Option.bind_eq_bind, Option.bind_some, chosen, number]
  exact congrArg some (toInt_integer port)

/-- After a port is written the configuration loads as before, up to the port,
for which 0 gives way to 6881. -/
theorem loadsAs_port (members : Members) (settable : Settable members) (running : Running)
    (loads : LoadsAs tree conversions defaults (.object members) running) (port : CInt) :
    LoadsAs tree conversions defaults
      (.object (withMember members "bittorrent" "listenPort" (.integer port.value)))
      { running with port := if port.value = 0 then CInt.clamp 6881 else port } := by
  obtain ⟨loadedPort, geoIp, routers, services, settings⟩ := (load_iff _ _ _ _).mp loads
  obtain ⟨utp, reads⟩ := (loadSettings_start_iff _ _ _ _).mp settings
  have differ := differIn_withMember members settable
    (entry_ne_null conversions members running.port loadedPort) "listenPort"
    (.integer port.value)
  obtain ⟨sameGeoIp, sameRouters, sameServices, sameUtp⟩ :=
    phases_eq conversions differ (by decide)
  refine (load_iff _ _ _ _).mpr ⟨?_, ?_, ?_, ?_, ?_⟩
  · have read : findKey (.object (withMember members "bittorrent" "listenPort"
        (.integer port.value))) (key "listenPort") = some (.integer port.value) :=
      findKey_withMember_self _ _ _ _
    apply loadPort_integer conversions _ _ read
    by_cases zero : port.value = 0
    · have falsy : (Value.integer port.value).truthy = false := by simp [zero]
      rw [Value.orElse_falsy _ falsy]
      simp [zero, CInt.clamp]
    · have truthy : (Value.integer port.value).truthy = true := by simp [zero]
      rw [Value.orElse_truthy _ truthy]
      simp [zero]
  · rw [sameGeoIp, geoIp]
  · rw [sameRouters, routers]
  · rw [sameServices, services]
  · refine (loadSettings_start_iff _ _ _ _).mpr ⟨by rw [sameUtp]; exact utp, fun other => ?_⟩
    have distinct : other.name ≠ "listenPort" := fun same => name_not_reserved other (by
      rw [same]
      decide)
    rw [readBack_eq tree defaults differ other distinct]
    exact reads other

end Writing

section Requests

variable (conversions : Conversions) (defaults : SessionSettings)

/-- A well-typed value within the range of its option. -/
def WellTyped (option : String × Value) : Prop :=
  match arms.lookup option.1 with
  | none => False
  | some .bindPort =>
      ∃ port : Int, 0 ≤ port ∧ port ≤ 65535 ∧ conversions.parseInt option.2 = some (.finite port)
  | some (.setting _ .integer) =>
      ∃ number : Int, CInt.InRange number ∧ conversions.parseInt option.2 = some (.finite number)
  | some (.setting _ _) => True

/-- An option that comes back after a restart: no port 0, and, unless the session
state is saved as well, no falsy value but the default where `load` falls back. -/
def Kept (saves : Bool) (option : String × Value) : Prop :=
  match arms.lookup option.1 with
  | none => True
  | some .bindPort => conversions.parseInt option.2 ≠ some (.finite 0)
  | some (.setting setting conversion) =>
      .fallback setting ∈ rules → saves = false →
        ∀ value, conversion.convert conversions option.2 = some value →
          value.truthy = true ∨ value = setting.kind.push (defaults setting)

/-- A well-typed value is converted to a content of the setting. -/
theorem convert_wellTyped (option : String × Value) (setting : Setting) (conversion : Conversion)
    (arm : arms.lookup option.1 = some (.setting setting conversion))
    (wellTyped : WellTyped conversions option) :
    ∃ content : setting.kind.Content,
      conversion.convert conversions option.2 = some (setting.kind.push content) := by
  have general : ∀ kind, conversion.kind = kind → ∃ content : kind.Content,
      conversion.convert conversions option.2 = some (kind.push content) := by
    rintro _ rfl
    unfold WellTyped at wellTyped
    rw [arm] at wellTyped
    cases conversion with
    | integer =>
      obtain ⟨number, ⟨lower, upper⟩, parsed⟩ := wellTyped
      refine ⟨⟨number, lower, upper⟩, ?_⟩
      rw [Conversion.convert, parsed]
      rfl
    | flag => exact ⟨_, rfl⟩
    | oneOrZero =>
      refine ⟨⟨if option.2.truthy then 1 else 0, ?_, ?_⟩, rfl⟩
      · split <;> decide
      · split <;> decide
  exact general setting.kind (kind_of_arm _ setting conversion arm)

/-- What one well-typed option does: it writes the port or one setting, in the
configuration and in the session. -/
theorem set_cases (members : Members) (settable : Settable members) (running : Running)
    (option : String × Value) (wellTyped : WellTyped conversions option) (next : State)
    (done : Settings.set conversions ⟨.object members, running⟩ option = some next) :
    (∃ port : CInt, arms.lookup option.1 = some .bindPort ∧
      conversions.parseInt option.2 = some (.finite port.value) ∧
      next = ⟨.object (withMember members "bittorrent" "listenPort" (.integer port.value)),
        { running with port := port }⟩) ∨
    ∃ setting conversion content, arms.lookup option.1 = some (.setting setting conversion) ∧
      conversion.convert conversions option.2 = some (setting.kind.push content) ∧
      next = ⟨.object (withMember members "bittorrent" setting.name (setting.kind.push content)),
        { running with settings := Function.update running.settings setting content }⟩ := by
  unfold Settings.set at done
  cases arm : arms.lookup option.1 with
  | none =>
    unfold WellTyped at wellTyped
    rw [arm] at wellTyped
    exact wellTyped.elim
  | some own =>
    rw [arm] at done
    cases own with
    | bindPort =>
      unfold WellTyped at wellTyped
      rw [arm] at wellTyped
      obtain ⟨port, lower, upper, parsed⟩ := wellTyped
      refine .inl ⟨⟨port, by omega, by omega⟩, rfl, parsed, ?_⟩
      simp only [parsed, Option.bind_eq_bind, Option.bind_some, key,
        setKey_open members _ _ _ settable.opened] at done
      rw [← Option.some.inj done]
      exact congrArg (fun own => State.mk _ { running with port := own })
        (toInt_integer ⟨port, by omega, by omega⟩)
    | setting setting conversion =>
      obtain ⟨content, converted⟩ := convert_wellTyped conversions option setting conversion arm
        wellTyped
      refine .inr ⟨setting, conversion, content, rfl, converted, ?_⟩
      have number : isNaN (setting.kind.push content) = false := by
        cases setting <;> rfl
      simp only [converted, number, Option.bind_eq_bind, Option.bind_some, key,
        setKey_open members _ _ _ settable.opened, Kind.require_push] at done
      exact (Option.some.inj done).symm

end Requests

section Runs

variable {Saved : Type} (tree : PropertyTree) (conversions : Conversions)
  (library : SessionState Saved) (defaults : SessionSettings) (saves : Bool)

/-- The port and the settings in effect are those of the next start. The state
file is there when the session state is saved beside the configuration. -/
def Survives (state : State) : Prop :=
  ∃ config, reload state.config = some config ∧
    boot tree conversions library defaults
      (if saves then some (library.saveState state.running.settings) else none) config =
      some state.running

/-- The configuration loads as what is in effect; where the session state is
saved, this is asked of the port alone. -/
structure Reproducible (state : State) (members : Members) : Prop where
  config : state.config = .object members
  settable : Settable members
  loads : ∃ reread, LoadsAs tree conversions defaults (.object members) ⟨state.running.port, reread⟩ ∧
    (saves = false → reread = state.running.settings)

/-- What the next start comes to, from what the configuration loads as. -/
theorem survives_iff (members : Members) (settable : Settable members) (running loaded : Running)
    (loads : LoadsAs tree conversions defaults (.object members) loaded) :
    Survives tree conversions library defaults saves ⟨.object members, running⟩ ↔
      loaded.port = running.port ∧ (saves = false → loaded.settings = running.settings) := by
  obtain ⟨port, settings⟩ := running
  obtain ⟨loadedPort, loadedSettings⟩ := loaded
  have loadedAs : load conversions (.object members) (start tree (.object members) defaults) =
      some ⟨loadedPort, loadedSettings⟩ := loads
  unfold Survives
  simp only [reload_plain _ settable.plain, Option.some.injEq, exists_eq_left', boot, loadedAs,
    Option.bind_eq_bind, Option.bind_some]
  cases saves with
  | false => simp
  | true => simp [library.loadState_saveState]

/-- A reproducible state survives a restart. -/
theorem survives_of_reproducible (state : State) (members : Members)
    (reproducible : Reproducible tree conversions defaults saves state members) :
    Survives tree conversions library defaults saves state := by
  obtain ⟨config, running⟩ := state
  obtain ⟨same, settable, reread, loads, equal⟩ := reproducible
  obtain rfl : config = .object members := same
  exact (survives_iff tree conversions library defaults saves members settable running _ loads).mpr
    ⟨rfl, equal⟩

/-- A kept content is the one that is returned. -/
theorem returned_eq_iff (setting : Setting) (conversion : Conversion)
    (content : setting.kind.Content) (option : String × Value)
    (arm : arms.lookup option.1 = some (.setting setting conversion))
    (converted : conversion.convert conversions option.2 = some (setting.kind.push content)) :
    Kept conversions defaults saves option ↔
      (saves = false → returned defaults setting content = content) := by
  unfold Kept returned
  rw [arm]
  simp only [converted, Option.some.injEq, forall_eq', Kind.push_inj]
  constructor
  · intro kept unsaved
    by_cases dropped : .fallback setting ∈ rules ∧ (setting.kind.push content).truthy = false
    · rw [if_pos dropped]
      rcases kept dropped.1 unsaved with truthy | same
      · rw [dropped.2] at truthy
        cases truthy
      · exact same.symm
    · rw [if_neg dropped]
  · intro same falls unsaved
    cases truthy : (setting.kind.push content).truthy with
    | true => exact .inl rfl
    | false =>
      have equal := same unsaved
      rw [if_pos ⟨falls, truthy⟩] at equal
      exact .inr equal.symm

/-- After one option the configuration still loads, as what is in effect exactly
when the option is kept. -/
theorem set_loads (state next : State) (members : Members)
    (reproducible : Reproducible tree conversions defaults saves state members)
    (option : String × Value) (wellTyped : WellTyped conversions option)
    (done : Settings.set conversions state option = some next) :
    ∃ after loaded, next.config = .object after ∧ Settable after ∧
      LoadsAs tree conversions defaults (.object after) loaded ∧
      ((loaded.port = next.running.port ∧
          (saves = false → loaded.settings = next.running.settings)) ↔
        Kept conversions defaults saves option) := by
  obtain ⟨config, running⟩ := state
  obtain ⟨same, settable, reread, loads, equal⟩ := reproducible
  obtain rfl : config = .object members := same
  rcases set_cases conversions members settable running option wellTyped next done with
    ⟨port, arm, parsed, rfl⟩ | ⟨setting, conversion, content, arm, converted, rfl⟩
  · have plain : Json.Plain (.integer port.value) := ⟨_, rfl⟩
    refine ⟨_, _, rfl, settable_withMember members settable "listenPort" _ plain,
      loadsAs_port tree conversions defaults members settable _ loads port, ?_⟩
    unfold Kept
    rw [arm, parsed, and_iff_left equal]
    by_cases zero : port.value = 0
    · have distinct : CInt.clamp 6881 ≠ port := by
        intro same
        rw [← same] at zero
        exact absurd zero (by decide)
      simp [zero, distinct]
    · simp [zero]
  · refine ⟨_, _, rfl, settable_withMember members settable setting.name _
      (setting.kind.plain_push content),
      loadsAs_setting tree conversions defaults members settable _ loads setting content, ?_⟩
    rw [returned_eq_iff conversions defaults saves setting conversion content option arm converted,
      and_iff_right rfl]
    apply imp_congr_right
    intro unsaved
    rw [equal unsaved]
    constructor
    · intro same
      simpa using congrFun same setting
    · intro same
      rw [same]

/-- After one option, a reproducible state survives a restart exactly when the
option is kept. -/
theorem survives_set_iff (state next : State) (members : Members)
    (reproducible : Reproducible tree conversions defaults saves state members)
    (option : String × Value) (wellTyped : WellTyped conversions option)
    (done : Settings.set conversions state option = some next) :
    Survives tree conversions library defaults saves next ↔
      Kept conversions defaults saves option := by
  obtain ⟨after, loaded, config, settable, loads, agree⟩ := set_loads tree conversions defaults
    saves state next members reproducible option wellTyped done
  obtain ⟨_, running⟩ := next
  obtain rfl := config
  rw [survives_iff tree conversions library defaults saves after settable running loaded loads]
  exact agree

/-- A kept option leaves the state reproducible. -/
theorem reproducible_set (state next : State) (members : Members)
    (reproducible : Reproducible tree conversions defaults saves state members)
    (option : String × Value) (wellTyped : WellTyped conversions option)
    (kept : Kept conversions defaults saves option)
    (done : Settings.set conversions state option = some next) :
    ∃ members, Reproducible tree conversions defaults saves next members := by
  obtain ⟨after, loaded, config, settable, loads, agree⟩ := set_loads tree conversions defaults
    saves state next members reproducible option wellTyped done
  obtain ⟨samePort, same⟩ := agree.mpr kept
  obtain ⟨port, settings⟩ := loaded
  obtain rfl : port = next.running.port := samePort
  exact ⟨after, config, settable, settings, loads, same⟩

/-- Every state reached by kept options is reproducible. -/
theorem reproducible_run (options : List (String × Value))
    (wellTyped : ∀ option ∈ options, WellTyped conversions option)
    (kept : ∀ option ∈ options, Kept conversions defaults saves option) (state final : State)
    (members : Members) (reproducible : Reproducible tree conversions defaults saves state members)
    (ran : run (Settings.set conversions) state options = some final) :
    ∃ members, Reproducible tree conversions defaults saves final members := by
  have preserved : ∀ state option next,
      (∃ members, Reproducible tree conversions defaults saves state members) →
      WellTyped conversions option ∧ Kept conversions defaults saves option →
      Settings.set conversions state option = some next →
      ∃ members, Reproducible tree conversions defaults saves next members := by
    rintro state option next ⟨members, reproducible⟩ ⟨wellTyped, kept⟩ done
    exact reproducible_set tree conversions defaults saves state next members reproducible option
      wellTyped kept done
  exact guarded_invariant preserved options state final ⟨members, reproducible⟩
    (guarded_of_forall options state fun option member =>
      ⟨wellTyped option member, kept option member⟩) ran

/-- From any start, the port and the settings survive a restart in every state
that is reached by calls of kept options. -/
theorem survives_of_kept (stateFile : Option Saved) (fileless : saves = false → stateFile = none)
    (members : Members) (settable : Settable members) (running : Running)
    (booted : boot tree conversions library defaults stateFile (.object members) = some running)
    (calls : List Members)
    (wellTyped : ∀ call ∈ calls, ∀ option ∈ call, WellTyped conversions option)
    (kept : ∀ call ∈ calls, ∀ option ∈ call, Kept conversions defaults saves option)
    (final : State)
    (ran : run (setSettings conversions) ⟨.object members, running⟩ calls = some final) :
    Survives tree conversions library defaults saves final := by
  have initial : ∃ members', Reproducible tree conversions defaults saves
      ⟨.object members, running⟩ members' := by
    unfold boot at booted
    obtain ⟨loaded, loads, restored⟩ := Option.bind_eq_some_iff.mp booted
    refine ⟨members, rfl, settable, loaded.settings, ?_⟩
    cases file : stateFile with
    | none =>
      rw [file] at restored
      obtain rfl := Option.some.inj restored
      exact ⟨loads, fun _ => rfl⟩
    | some saved =>
      rw [file] at restored
      obtain rfl := Option.some.inj restored
      refine ⟨loads, fun unsaved => ?_⟩
      rw [fileless unsaved] at file
      cases file
  have preserved : ∀ state call next,
      (∃ members, Reproducible tree conversions defaults saves state members) →
      (∀ option ∈ call, WellTyped conversions option ∧ Kept conversions defaults saves option) →
      setSettings conversions state call = some next →
      ∃ members, Reproducible tree conversions defaults saves next members := by
    rintro state call next ⟨members, reproducible⟩ good done
    exact reproducible_run tree conversions defaults saves call
      (fun option member => (good option member).1) (fun option member => (good option member).2)
      state next members reproducible done
  obtain ⟨finalMembers, reproducible⟩ := guarded_invariant preserved calls _ final initial
    (guarded_of_forall calls _ fun call member option inside =>
      ⟨wellTyped call member option inside, kept call member option inside⟩) ran
  exact survives_of_reproducible tree conversions library defaults saves final finalMembers
    reproducible

end Runs

section Unconfigured

/-- A property tree that converts nodes of the right type alone. -/
def strictTree : PropertyTree where
  get := Kind.require
  get_push := Kind.require_push

/-- A session state that is the settings. -/
def settingsOnly : SessionState SessionSettings where
  saveState settings := settings
  loadState settings _ := settings
  loadState_saveState _ _ := rfl

/-- An empty configuration is settable. -/
theorem settable_nil : Settable [] :=
  ⟨⟨List.nodup_nil, trivial⟩, .inl rfl⟩

/-- Without a configuration the defaults are in effect. -/
theorem loadsAs_nil (defaults : SessionSettings) :
    LoadsAs strictTree plainConversions defaults (.object []) ⟨CInt.clamp 6881, defaults⟩ := by
  refine (load_iff _ _ _ _).mpr ⟨rfl, rfl, rfl, rfl, ?_⟩
  refine (loadSettings_start_iff _ _ _ _).mpr ⟨rfl, fun setting => ?_⟩
  unfold readBack
  split
  · exact setting.kind.require_push (defaults setting)
  · split <;> rfl

/-- Without a configuration the session starts with its defaults. -/
theorem boot_nil (defaults : SessionSettings) :
    boot strictTree plainConversions settingsOnly defaults none (.object []) =
      some ⟨CInt.clamp 6881, defaults⟩ := by
  have loads : load plainConversions (.object []) (start strictTree (.object []) defaults) =
      some ⟨CInt.clamp 6881, defaults⟩ := loadsAs_nil defaults
  rw [boot, loads]
  rfl

/-- This start is reproduced. -/
theorem reproducible_nil (defaults : SessionSettings) (saves : Bool) :
    Reproducible strictTree plainConversions defaults saves
      ⟨.object [], CInt.clamp 6881, defaults⟩ [] :=
  ⟨rfl, settable_nil, defaults, loadsAs_nil defaults, fun _ => rfl⟩

/-- Built-in defaults of one and true. -/
def ones : SessionSettings := fun setting =>
  match setting.kind with
  | .int => CInt.clamp 1
  | .bool => true

/-- A port, a rate and a flag that is on come back without a session state. -/
theorem truthy_options_survive : ∃ final,
    run (setSettings plainConversions) ⟨.object [], CInt.clamp 6881, ones⟩
      [[("bind_port", .integer 7000), ("max_dl_rate", .integer 100)],
        [("net.calc_overhead", .boolean true)]] = some final ∧
    Survives strictTree plainConversions settingsOnly ones false final := by
  have port : WellTyped plainConversions ("bind_port", .integer 7000) ∧
      Kept plainConversions ones false ("bind_port", .integer 7000) := by
    refine ⟨⟨7000, by decide, by decide, rfl⟩, ?_⟩
    show some (Number.finite 7000) ≠ some (.finite 0)
    decide
  have rate : WellTyped plainConversions ("max_dl_rate", .integer 100) ∧
      Kept plainConversions ones false ("max_dl_rate", .integer 100) := by
    refine ⟨⟨100, ⟨by decide, by decide⟩, rfl⟩, fun _ _ value same => .inl ?_⟩
    obtain rfl := Option.some.inj same
    decide
  have overhead : WellTyped plainConversions ("net.calc_overhead", .boolean true) ∧
      Kept plainConversions ones false ("net.calc_overhead", .boolean true) := by
    refine ⟨trivial, fun _ _ value same => .inl ?_⟩
    obtain rfl := Option.some.inj same
    rfl
  refine ⟨_, rfl, ?_⟩
  apply survives_of_kept strictTree plainConversions settingsOnly ones false none (fun _ => rfl) []
    settable_nil _ (boot_nil ones)
    [[("bind_port", .integer 7000), ("max_dl_rate", .integer 100)],
      [("net.calc_overhead", .boolean true)]] _ _ _ rfl
  · simp only [List.forall_mem_cons, List.not_mem_nil, false_implies, implies_true, and_true]
    exact ⟨⟨port.1, rate.1⟩, overhead.1⟩
  · simp only [List.forall_mem_cons, List.not_mem_nil, false_implies, implies_true, and_true]
    exact ⟨⟨port.2, rate.2⟩, overhead.2⟩

/-- From an empty configuration, the port 0 does not come back at all, and a flag
that is turned off against its default does not without a session state. -/
theorem falsy_options_lost :
    boot strictTree plainConversions settingsOnly ones none (.object []) =
      some ⟨CInt.clamp 6881, ones⟩ ∧
    (∃ final, run (setSettings plainConversions) ⟨.object [], CInt.clamp 6881, ones⟩
        [[("bind_port", .integer 0)]] = some final ∧
      ∀ saves, ¬ Survives strictTree plainConversions settingsOnly ones saves final) ∧
    ∃ final, run (setSettings plainConversions) ⟨.object [], CInt.clamp 6881, ones⟩
        [[("net.calc_overhead", .boolean false)]] = some final ∧
      ¬ Survives strictTree plainConversions settingsOnly ones false final := by
  refine ⟨boot_nil ones, ⟨_, rfl, fun saves survives => ?_⟩, _, rfl, fun survives => ?_⟩
  · have kept := (survives_set_iff strictTree plainConversions settingsOnly ones saves _ _ []
      (reproducible_nil ones saves) ("bind_port", .integer 0)
      ⟨0, by decide, by decide, rfl⟩ rfl).mp survives
    exact kept rfl
  · have kept := (survives_set_iff strictTree plainConversions settingsOnly ones false _ _ []
      (reproducible_nil ones false) ("net.calc_overhead", .boolean false) trivial rfl).mp survives
    rcases kept (by decide) rfl (.boolean false) rfl with truthy | same
    · cases truthy
    · cases same

end Unconfigured

end Hadouken.SettingsRestart
