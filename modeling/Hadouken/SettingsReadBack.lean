import Hadouken.SettingsRestart
import Hadouken.WebuiSettings

/-!
# Reading back the settings of the web interface

After a call of `webui.setSettings` with values of the right types the rows of
`webui.getSettings` show what was given, and the others what they showed before.
Each row is a function of the entry its key is written to and of the part of the
session its key changes, so that the two requests meet at the places of the keys.

The request answers with all rows or not at all: it throws for a default save path
that is no string, and for an entry that is nested too deep to be encoded.
-/

namespace Hadouken.SettingsReadBack

open Script Config ConfigWrites WebuiSettings
open Settings hiding set setSettings arms Arm

/-- Members can be set at the key: the nodes on the way are objects or absent. -/
def Clear : Value → List String → Prop
  | _, [] => True
  | cfg, [_] => isObject cfg = true
  | cfg, elem :: rest =>
      isObject cfg = true ∧
        ∀ node, cfg.member elem = some node → node = .undefined ∨ Clear node rest

/-- The type of the values a client gives for a setting of the session. -/
def TypedFor : Conversion → Value → Prop
  | .integer, value =>
      ∃ number : Int, -2 ^ 31 ≤ number ∧ number < 2147483647 ∧ value = .integer number
  | .flag, value | .oneOrZero, value => ∃ flag, value = .boolean flag

/-- The types of the values a client gives: booleans, integers, a port, an array
of strings and a text. The save path is not among them. -/
def WellTyped (option : String × Value) : Prop :=
  match WebuiSettings.arms.lookup option.1 with
  | some (.service _) | some .enableUtp => ∃ flag, option.2 = .boolean flag
  | some .downloadDirectories => ∃ texts : List String, option.2 = .array (texts.map .string) []
  | some .cookie => ∃ text, option.2 = .string text
  | some .savePath => False
  | none =>
      match Settings.arms.lookup option.1 with
      | none => True
      | some .bindPort => ∃ port : Int, 0 < port ∧ port ≤ 65535 ∧ option.2 = .integer port
      | some (.setting _ conversion) => TypedFor conversion option.2

/-- A row shows what was given: a boolean as its text, a number as itself or as
its decimal text. -/
def SameValue : Value → Value → Prop
  | .boolean flag, reported => reported = .string (toString flag)
  | .number given, reported =>
      reported = .number given ∨
        ∃ number : Int, given = .finite number ∧ reported = .string (toString number)
  | given, reported => reported = given

/-- What a row of the second reading has to do with that of the first. -/
structure Reports (options : Members) (before after : Row (Option Value)) : Prop where
  key : after.key = before.key
  type : after.type = before.type
  params : after.params = before.params
  given : ∀ value, options.lookup before.key = some value →
    ∃ reported, after.value = some reported ∧ SameValue value reported
  others : options.lookup before.key = none → after.value = before.value

/-- Where members can be set, a write gets through and is taken, and the key can be
read. -/
theorem clear_cases (cfg : Value) (path : List String) (clear : Clear cfg path)
    (nonempty : path ≠ []) :
    takes cfg path = true ∧ reaches cfg path = true ∧ (findKey cfg path).isSome = true := by
  induction path generalizing cfg with
  | nil => exact absurd rfl nonempty
  | cons elem rest ih =>
    cases rest with
    | nil =>
      cases cfg with
      | object members =>
        refine ⟨rfl, rfl, ?_⟩
        rw [findKey_cons, Value.member_object, Option.bind_some]
        split <;> rfl
      | _ => cases clear
    | cons next rest =>
      obtain ⟨object, below⟩ := clear
      cases cfg with
      | object members =>
        have read := Value.member_object members elem
        rcases below _ read with absent | deeper
        · rw [absent] at read
          refine ⟨by simp [takes, read, isHolder, Value.truthy],
            by simp [reaches, read, isHolder, Value.truthy], ?_⟩
          rw [findKey_cons, read]
          rfl
        · obtain ⟨taken, reached, found⟩ := ih _ deeper (List.cons_ne_nil _ _)
          refine ⟨?_, ?_, ?_⟩
          · simp only [takes, read, isHolder, Option.any_some, taken, Bool.or_true, Bool.and_true]
          · simp only [reaches, read, isHolder, reached, Bool.true_or]
            split <;> rfl
          · rw [findKey_cons, read, Option.bind_some]
            split
            · rfl
            · exact found
      | _ => cases object

section Calls

variable (conversions : Conversions)

/-- A call made all its changes and touched no other place. -/
structure Outcome (options : Members) (before after : Daemon) : Prop where
  made : ∀ option ∈ options, ∀ made place, change conversions option = some (some made) →
    At place option made →
      findKey after.config made.path = some made.value ∧
        ∀ live, SameAt (made.live live) after.live place.2.2
  untouched : ∀ place ∈ places, place.1 ∉ options.map Prod.fst →
    Framed before.config after.config place.2.1 ∧ SameAt before.live after.live place.2.2

/-- A call returns with all its changes made when their values convert and their
places can be written. The options have different keys, so that each place is as
before until its own option is reached, and stays from then on. -/
theorem outcome_setSettings (options : Members) (daemon : Daemon)
    (nodup : (options.map Prod.fst).Nodup)
    (converts : ∀ option ∈ options, (change conversions option).isSome = true)
    (writable : ∀ option ∈ options, ∀ made, change conversions option = some (some made) →
      takes daemon.config made.path = true ∧ reaches daemon.config made.path = true) :
    (setSettings conversions daemon options).2 = true ∧
      Outcome conversions options daemon (setSettings conversions daemon options).1 := by
  have untouched := untouched_setSettings conversions options daemon
  suffices returned : (setSettings conversions daemon options).2 = true ∧
      ∀ option ∈ options, ∀ made place, change conversions option = some (some made) →
        At place option made →
          findKey (setSettings conversions daemon options).1.config made.path = some made.value ∧
            ∀ live, SameAt (made.live live) (setSettings conversions daemon options).1.live
              place.2.2 from ⟨returned.1, returned.2, untouched⟩
  clear untouched
  induction options generalizing daemon with
  | nil => exact ⟨rfl, nofun⟩
  | cons option rest ih =>
    rw [List.map_cons, List.nodup_cons] at nodup
    obtain ⟨fresh, restNodup⟩ := nodup
    have restConverts := fun other member => converts other (List.mem_cons_of_mem option member)
    obtain ⟨step, changes⟩ := Option.isSome_iff_exists.mp (converts option List.mem_cons_self)
    obtain ⟨next, done⟩ : ∃ next, set conversions daemon option = some next := by
      rw [set_eq, changes, Option.bind_some, ← Option.isSome_iff_exists]
      cases step with
      | none => rfl
      | some made =>
        obtain ⟨place, own⟩ := change_at conversions option made changes
        rw [(apply_at daemon option made place own).1]
        exact (writable option List.mem_cons_self made changes).2
    have restWritable : ∀ other ∈ rest, ∀ made, change conversions other = some (some made) →
        takes next.config made.path = true ∧ reaches next.config made.path = true := by
      intro other member made otherChanges
      obtain ⟨place, own⟩ := change_at conversions other made otherChanges
      have distinct : place.1 ≠ option.1 := by
        rw [own.key]
        intro same
        exact fresh (same ▸ List.mem_map_of_mem (f := Prod.fst) member)
      have framed := (untouched_set conversions daemon next option done place own.listed distinct).1
      rw [own.path] at framed
      rw [framed.takes, framed.reaches]
      exact writable other (List.mem_cons_of_mem option member) made otherChanges
    obtain ⟨returned, later⟩ := ih next restNodup restConverts restWritable
    rw [setSettings, done]
    refine ⟨returned, fun other member made place otherChanges own => ?_⟩
    rcases List.mem_cons.mp member with rfl | member
    · obtain rfl : step = some made := Option.some.inj (changes.symm.trans otherChanges)
      rw [set_eq, changes, Option.bind_some] at done
      obtain ⟨placed, live⟩ := (apply_at daemon other made place own).2 next done
      obtain ⟨framed, same⟩ := untouched_setSettings conversions rest next place own.listed
        (by rw [own.key]; exact fresh)
      rw [own.path] at framed
      refine ⟨framed.key _ ?_, fun start => ?_⟩
      · rw [placed.key, if_pos (writable other List.mem_cons_self made changes).1]
      · rw [live] at same
        exact sameAt_trans _ _ _ _ same (own.own start daemon.live)
    · exact later other member made place otherChanges own

end Calls

section Values

/-- A boolean is shown as its text. -/
theorem shown_boolean (site : Site) (flag : Bool) :
    shown site .boolean (.boolean flag) = some (.string (toString flag)) := by
  simp [shown, Json.encode, Value.depth, Json.ofValue, site.print_boolean]

/-- So is an integer that is printed with its digits. -/
theorem shown_integer (site : Site) (number : Int)
    (printed : number.natAbs ≤ 9007199254740992) :
    shown site .number (.integer number) = some (.string (toString number)) := by
  simp [shown, Json.encode, Value.integer, Value.depth, Json.ofValue,
    site.print_integer number printed]

variable (conversions : Conversions)

/-- The change for a setting of the session: its value as converted. -/
theorem change_setting (name : String) (value : Value) (setting : Setting)
    (conversion : Conversion) (other : WebuiSettings.arms.lookup name = none)
    (arm : Settings.arms.lookup name = some (.setting setting conversion))
    (typed : TypedFor conversion value) :
    ∃ content, conversion.convert conversions value = some (setting.kind.push content) ∧
      change conversions (name, value) =
        some (some ⟨key setting.name, setting.kind.push content,
          Live.withSetting setting content⟩) := by
  have restart : SettingsRestart.WellTyped conversions (name, value) := by
    simp only [SettingsRestart.WellTyped, arm]
    cases conversion with
    | integer =>
      obtain ⟨number, lower, upper, rfl⟩ := typed
      exact ⟨number, ⟨lower, by omega⟩, conversions.parseInt_integer number (by omega)⟩
    | flag => trivial
    | oneOrZero => trivial
  obtain ⟨content, converted⟩ := SettingsRestart.convert_wellTyped conversions (name, value)
    setting conversion arm restart
  exact ⟨content, converted,
    change_converted conversions name value setting conversion content other arm converted⟩

/-- Values of the right types convert. -/
theorem converts_of_wellTyped (option : String × Value) (typed : WellTyped option) :
    (change conversions option).isSome = true := by
  obtain ⟨name, value⟩ := option
  cases other : WebuiSettings.arms.lookup name with
  | some arm =>
    simp only [WellTyped, other] at typed
    simp only [change, other]
    cases arm with
    | downloadDirectories =>
      obtain ⟨texts, rfl⟩ := typed
      rfl
    | _ => rfl
  | none =>
    cases core : Settings.arms.lookup name with
    | none => simp [change, other, core]
    | some arm =>
      cases arm with
      | bindPort =>
        simp only [WellTyped, other, core] at typed
        obtain ⟨port, positive, bounded, rfl⟩ := typed
        simp only [change, other, core, conversions.parseInt_integer port (by omega)]
        rfl
      | setting setting conversion =>
        simp only [WellTyped, other, core] at typed
        obtain ⟨content, _, changes⟩ := change_setting conversions name value setting conversion
          other core typed
        rw [changes]
        rfl

end Values

section Rows

/-- The keys of the places are different. -/
theorem nodup_places : (places.map Prod.fst).Nodup := by
  decide

/-- Two readings with a call between them. -/
structure Readings (site : Site) (options : Members) (before after : Daemon) : Prop where
  nodup : (options.map Prod.fst).Nodup
  typed : ∀ option ∈ options, WellTyped option
  outcome : Outcome site.conversions options before after
  found : ∀ place ∈ places, (findKey before.config place.2.1).isSome = true

variable {site : Site} {options : Members} {before after : Daemon}

/-- A row reports what it should when it is computed from the entry of its key
and the part of the session its key changes, and shows a change of these. -/
theorem reports_intro (readings : Readings site options before after) (name : String)
    (path : List String) (part : Part) (type : RowType) (params : Value)
    (value : Option Value → Live → Option Value)
    (listed : (name, path, part) ∈ places)
    (near : ∀ read first second, SameAt first second part → value read second = value read first)
    (shows : ∀ given, WellTyped (name, given) → ∃ made,
      change site.conversions (name, given) = some (some made) ∧
      ∀ live other, SameAt (made.live live) other part →
        ∃ reported, value (some made.value) other = some reported ∧ SameValue given reported) :
    Reports options
      ⟨name, type, value (findKey before.config path) before.live, params⟩
      ⟨name, type, value (findKey after.config path) after.live, params⟩ where
  key := rfl
  type := rfl
  params := rfl
  given given lookup := by
    have member := mem_of_lookup name given options lookup
    obtain ⟨made, changes, shown⟩ := shows given (readings.typed _ member)
    obtain ⟨place, own⟩ := change_at site.conversions (name, given) made changes
    obtain ⟨read, live⟩ := readings.outcome.made _ member made place changes own
    have found := lookup_of_mem name (path, part) places nodup_places listed
    have same := lookup_of_mem place.1 place.2 places nodup_places own.listed
    rw [own.key, found] at same
    have place_eq : (path, part) = place.2 := Option.some.inj same
    have path_eq : path = made.path := (congrArg Prod.fst place_eq).trans own.path
    have part_eq : part = place.2.2 := congrArg Prod.snd place_eq
    rw [← path_eq] at read
    rw [← part_eq] at live
    rw [read]
    exact shown before.live after.live (live before.live)
  others lookup := by
    have absent : name ∉ options.map Prod.fst := by
      rw [← lookup_isSome_iff, lookup]
      nofun
    obtain ⟨framed, same⟩ := readings.outcome.untouched _ listed absent
    obtain ⟨read, found⟩ := Option.isSome_iff_exists.mp (readings.found _ listed)
    simp only [found, framed.key read found]
    exact near _ _ _ same

/-- The rows that show a setting of the session. -/
theorem reports_live (readings : Readings site options before after) (name : String)
    (setting : Setting) (conversion : Conversion) (type : RowType) (display : Value → Option Value)
    (listed : (name, key setting.name, .setting setting) ∈ places)
    (other : WebuiSettings.arms.lookup name = none)
    (arm : Settings.arms.lookup name = some (.setting setting conversion))
    (displays : ∀ given pushed, TypedFor conversion given →
      conversion.convert site.conversions given = some pushed →
        ∃ reported, display pushed = some reported ∧ SameValue given reported) :
    Reports options
      (row name type (display (setting.kind.push (before.live.running.settings setting))))
      (row name type (display (setting.kind.push (after.live.running.settings setting)))) := by
  refine reports_intro readings name _ _ _ _
    (fun _ live => display (setting.kind.push (live.running.settings setting))) listed ?_ ?_
  · intro read first second same
    exact congrArg (fun content => display (setting.kind.push content)) same
  · intro given typed
    simp only [WellTyped, other, arm] at typed
    obtain ⟨content, converted, changes⟩ := change_setting site.conversions name given setting _
      other arm typed
    refine ⟨_, changes, fun live reached same => ?_⟩
    have held : reached.running.settings setting = content := by
      simpa [SameAt, Live.withSetting] using same
    rw [held]
    exact displays given _ typed converted

/-- What the row of an entry shows of its value. -/
def shownOr (site : Site) (type : RowType) (defaultValue : String) (val : Value) : Option Value :=
  match val with
  | .undefined => some (.string defaultValue)
  | val => shown site type val

/-- What is there is shown, not the default. -/
theorem shownOr_of_ne (site : Site) (type : RowType) (defaultValue : String) (val : Value)
    (defined : val ≠ .undefined) : shownOr site type defaultValue val = shown site type val := by
  unfold shownOr
  split
  · exact absurd rfl defined
  · rfl

/-- What the row `save_path` shows of the path it is about. -/
def absoluteOf (site : Site) (savePath : Value) : Option Value :=
  match savePath with
  | .string text =>
      let absolute := (site.absolute text).toList
      if text = "." ∧ absolute.getLast? = some '.' then
        some (.string (String.ofList absolute.dropLast))
      else some (.string (String.ofList absolute))
  | _ => none

/-- The rows that show an entry of the configuration. -/
theorem reports_get (readings : Readings site options before after) (name : String)
    (path : List String) (part : Part) (type : RowType) (defaultValue : Live → String)
    (listed : (name, path, part) ∈ places)
    (near : ∀ first second, SameAt first second part → defaultValue second = defaultValue first)
    (shows : ∀ given, WellTyped (name, given) → ∃ made,
      change site.conversions (name, given) = some (some made) ∧ made.value ≠ .undefined ∧
        ∃ reported, shown site type made.value = some reported ∧ SameValue given reported) :
    Reports options
      (get site before path name type (defaultValue before.live))
      (get site after path name type (defaultValue after.live)) := by
  refine reports_intro readings name path part _ _
    (fun read live => read.bind (shownOr site type (defaultValue live))) listed ?_ ?_
  · intro read first second same
    simp only [near first second same]
  · intro given typed
    obtain ⟨made, changes, defined, reported, displayed, same⟩ := shows given typed
    refine ⟨made, changes, fun _ _ _ => ⟨reported, ?_, same⟩⟩
    rw [Option.bind_some, ← displayed]
    exact shownOr_of_ne site type _ made.value defined

/-- The rows that show a setting from the configuration. -/
theorem reports_configured (readings : Readings site options before after) (name : String)
    (setting : Setting) (conversion : Conversion) (type : RowType) (defaultValue : Value → String)
    (listed : (name, key setting.name, .setting setting) ∈ places)
    (other : WebuiSettings.arms.lookup name = none)
    (arm : Settings.arms.lookup name = some (.setting setting conversion))
    (displays : ∀ given pushed, TypedFor conversion given →
      conversion.convert site.conversions given = some pushed →
        ∃ reported, shown site type pushed = some reported ∧ SameValue given reported) :
    Reports options
      (get site before (key setting.name) name type
        (defaultValue (setting.kind.push (before.live.running.settings setting))))
      (get site after (key setting.name) name type
        (defaultValue (setting.kind.push (after.live.running.settings setting)))) := by
  refine reports_get readings name _ _ _
    (fun live => defaultValue (setting.kind.push (live.running.settings setting))) listed ?_ ?_
  · intro first second same
    exact congrArg (fun content => defaultValue (setting.kind.push content)) same
  · intro given typed
    simp only [WellTyped, other, arm] at typed
    obtain ⟨content, converted, changes⟩ := change_setting site.conversions name given setting _
      other arm typed
    exact ⟨_, changes, Kind.push_ne_undefined _ _, displays given _ typed converted⟩

section Displays

variable (conversions : Conversions) (given pushed : Value)

/-- An integer of 32 bits is kept by its conversion. -/
theorem converted_integer (typed : TypedFor .integer given)
    (converted : Conversion.integer.convert conversions given = some pushed) :
    ∃ number : Int, -2 ^ 31 ≤ number ∧ number < 2147483647 ∧ given = .integer number ∧
      pushed = .integer number := by
  obtain ⟨number, lower, upper, rfl⟩ := typed
  refine ⟨number, lower, upper, rfl, ?_⟩
  rw [Conversion.convert, conversions.parseInt_integer number (by omega)] at converted
  exact (Option.some.inj converted).symm

/-- The text of a boolean the session has. -/
def liveText : Value → Option Value
  | .boolean flag => flagText flag
  | _ => none

/-- A flag of the session is shown as it was given. -/
theorem displays_flag (typed : TypedFor .flag given)
    (converted : Conversion.flag.convert conversions given = some pushed) :
    ∃ reported, liveText pushed = some reported ∧ SameValue given reported := by
  obtain ⟨flag, rfl⟩ := typed
  obtain rfl := Option.some.inj converted
  exact ⟨_, rfl, rfl⟩

/-- So is an integer. -/
theorem displays_integer (typed : TypedFor .integer given)
    (converted : Conversion.integer.convert conversions given = some pushed) :
    ∃ reported, some pushed = some reported ∧ SameValue given reported := by
  obtain ⟨number, _, _, rfl, rfl⟩ := converted_integer conversions given pushed typed converted
  exact ⟨_, rfl, .inl rfl⟩

/-- A number as the row of half-open connections shows it. -/
def halfOpenText : Value → Option Value
  | .number (.finite number) => some (.string (orUnlimited number.num (2147483647 ≤ number.num)))
  | _ => none

/-- So is the limit of half open connections, but for its unlimited value. -/
theorem displays_halfOpen (typed : TypedFor .integer given)
    (converted : Conversion.integer.convert conversions given = some pushed) :
    ∃ reported, halfOpenText pushed = some reported ∧ SameValue given reported := by
  obtain ⟨number, _, upper, rfl, rfl⟩ := converted_integer conversions given pushed typed converted
  have within : ¬ 2147483647 ≤ number := by omega
  refine ⟨_, rfl, .inr ⟨number, rfl, ?_⟩⟩
  simp [orUnlimited, within]

/-- The row of the bandwidth management. -/
def mixedModeText : Value → Option Value
  | .number (.finite number) => flagText (number.num = 1)
  | _ => none

/-- So is the choice of the algorithm. -/
theorem displays_mixedMode (typed : TypedFor .oneOrZero given)
    (converted : Conversion.oneOrZero.convert conversions given = some pushed) :
    ∃ reported, mixedModeText pushed = some reported ∧ SameValue given reported := by
  obtain ⟨flag, rfl⟩ := typed
  obtain rfl := Option.some.inj converted
  cases flag <;> exact ⟨_, rfl, rfl⟩

/-- The text a count has where the configuration has none. -/
def countText : Value → String
  | .number (.finite number) => orUnlimited number.num (2147483647 < number.num)
  | _ => ""

/-- So is an integer of the configuration. -/
theorem displays_count (site : Site) (typed : TypedFor .integer given)
    (converted : Conversion.integer.convert site.conversions given = some pushed) :
    ∃ reported, shown site .number pushed = some reported ∧ SameValue given reported := by
  obtain ⟨number, lower, upper, rfl, rfl⟩ :=
    converted_integer site.conversions given pushed typed converted
  exact ⟨_, shown_integer site number (by omega), .inr ⟨number, rfl, rfl⟩⟩

/-- So is a flag of the configuration. -/
theorem displays_configured (site : Site) (typed : TypedFor .flag given)
    (converted : Conversion.flag.convert site.conversions given = some pushed) :
    ∃ reported, shown site .boolean pushed = some reported ∧ SameValue given reported := by
  obtain ⟨flag, rfl⟩ := typed
  obtain rfl := Option.some.inj converted
  exact ⟨_, shown_boolean site _, rfl⟩

end Displays

/-- The rows of the services that the configuration shows. -/
theorem reports_service (readings : Readings site options before after) (service : Service) :
    Reports options
      (get site before service.key service.name .boolean "false")
      (get site after service.key service.name .boolean "false") := by
  have arm : WebuiSettings.arms.lookup service.name = some (.service service) := by
    cases service <;> rfl
  have listed : (service.name, service.key, .service service) ∈ places := by
    cases service <;> decide
  refine reports_get readings service.name service.key (.service service) .boolean
    (fun _ => "false") listed (fun _ _ _ => rfl) fun given typed => ?_
  simp only [WellTyped, arm] at typed
  obtain ⟨flag, rfl⟩ := typed
  refine ⟨⟨service.key, .boolean flag, Live.withService service flag⟩, ?_, nofun, _,
    shown_boolean site flag, rfl⟩
  simp only [change, arm, Value.truthy]

/-- The row of the listening port. -/
theorem reports_port (readings : Readings site options before after) :
    Reports options
      (row "bind_port" .number (some (.integer before.live.running.port.value)))
      (row "bind_port" .number (some (.integer after.live.running.port.value))) := by
  refine reports_intro readings "bind_port" (key "listenPort") .port _ _
    (fun _ live => some (.integer live.running.port.value)) (by decide) ?_ ?_
  · intro read first second same
    exact congrArg (fun port : CInt => some (Value.integer port.value)) same
  · rintro given ⟨port, positive, bounded, rfl⟩
    have parsed := site.conversions.parseInt_integer port (by omega)
    refine ⟨⟨key "listenPort", .integer port, Live.withPort (toInt (.finite port))⟩, ?_, ?_⟩
    · show (site.conversions.parseInt (.integer port)).map _ = _
      rw [parsed]
      rfl
    · intro live reached same
      have own : reached.running.port = toInt (.finite port) := same
      rw [own, toInt_integer ⟨port, by omega, by omega⟩]
      exact ⟨_, rfl, .inl rfl⟩

/-- The row of the DHT shows the session. -/
theorem reports_dht (readings : Readings site options before after) :
    Reports options
      (row "dht" .boolean (flagText (before.live.services .dht)))
      (row "dht" .boolean (flagText (after.live.services .dht))) := by
  refine reports_intro readings "dht" Service.dht.key (.service .dht) _ _
    (fun _ live => flagText (live.services .dht)) (by decide) ?_ ?_
  · intro read first second same
    exact congrArg flagText same
  · rintro given ⟨flag, rfl⟩
    refine ⟨⟨Service.dht.key, .boolean flag, Live.withService .dht flag⟩, rfl, ?_⟩
    intro live reached same
    have own : reached.services .dht = flag := by
      simpa [SameAt, Live.withService] using same
    rw [own]
    exact ⟨_, rfl, rfl⟩

/-- The row of the directories. -/
theorem reports_directories (readings : Readings site options before after) :
    Reports options
      (row "download_directories" .array
        ((findKey before.config (key "downloadDirectories")).map fun directories =>
          directories.orElse (.array [] [])))
      (row "download_directories" .array
        ((findKey after.config (key "downloadDirectories")).map fun directories =>
          directories.orElse (.array [] []))) := by
  refine reports_intro readings "download_directories" (key "downloadDirectories") .nothing _ _
    (fun read _ => read.map fun directories => directories.orElse (.array [] [])) (by decide)
    (fun _ _ _ _ => rfl) ?_
  rintro given ⟨texts, rfl⟩
  exact ⟨⟨key "downloadDirectories", .array (texts.map .string) [], id⟩, rfl,
    fun _ _ _ => ⟨_, rfl, rfl⟩⟩

/-- The save path is given by nobody. -/
theorem reports_savePath (readings : Readings site options before after) :
    Reports options
      (row "save_path" .string (absoluteSavePath site before))
      (row "save_path" .string (absoluteSavePath site after)) := by
  refine reports_intro readings "save_path" (key "defaultSavePath") .nothing _ _
    (fun read _ => read.bind fun configured =>
      absoluteOf site (configured.orElse (.string "."))) (by decide) (fun _ _ _ _ => rfl) ?_
  intro given typed
  exact typed.elim

/-- The row of the cookie. -/
theorem reports_cookie (readings : Readings site options before after) :
    Reports options
      (get site before cookieKey "webui.cookie" .string "{}")
      (get site after cookieKey "webui.cookie" .string "{}") := by
  refine reports_get readings "webui.cookie" cookieKey .nothing .string (fun _ => "{}") (by decide)
    (fun _ _ _ => rfl) ?_
  rintro given ⟨text, rfl⟩
  exact ⟨⟨cookieKey, .string text, id⟩, rfl, nofun, _, rfl, rfl⟩

/-- The row of the transport. -/
theorem reports_utp (readings : Readings site options before after) :
    Reports options
      (get site before utpKey "net.enable_utp" .boolean "true")
      (get site after utpKey "net.enable_utp" .boolean "true") := by
  refine reports_get readings "net.enable_utp" utpKey .nothing .boolean (fun _ => "true")
    (by decide) (fun _ _ _ => rfl) ?_
  rintro given ⟨flag, rfl⟩
  exact ⟨⟨utpKey, .boolean flag, id⟩, rfl, nofun, _, shown_boolean site flag, rfl⟩

/-- All rows report what they should. -/
theorem reports_rows (readings : Readings site options before after) :
    List.Forall₂ (Reports options) (rows site before) (rows site after) := by
  simp only [rows, List.forall₂_cons, List.forall₂_nil_right_iff, and_true]
  refine ⟨?_, ?_, ?_, ?_, ?_, ?_, ?_, ?_, ?_, ?_, ?_, ?_, ?_, ?_, ?_, ?_, ?_, ?_, ?_, ?_, ?_, ?_⟩
  · exact reports_port readings
  · exact reports_live readings "conns_globally" .connectionsLimit .integer .number some
      (by decide) rfl rfl (displays_integer site.conversions)
  · exact reports_dht readings
  · exact reports_directories readings
  · exact reports_live readings "enable_bw_management" .mixedModeAlgorithm .oneOrZero .boolean
      mixedModeText (by decide) rfl rfl (displays_mixedMode site.conversions)
  · exact reports_live readings "max_dl_rate" .downloadRateLimit .integer .number some
      (by decide) rfl rfl (displays_integer site.conversions)
  · exact reports_live readings "max_ul_rate" .uploadRateLimit .integer .number some
      (by decide) rfl rfl (displays_integer site.conversions)
  · exact reports_live readings "net.calc_overhead" .rateLimitIpOverhead .flag .boolean liveText
      (by decide) rfl rfl (displays_flag site.conversions)
  · exact reports_live readings "net.ratelimit_utp" .rateLimitUtp .flag .boolean liveText
      (by decide) rfl rfl (displays_flag site.conversions)
  · exact reports_savePath readings
  · exact reports_service readings .lsd
  · exact reports_service readings .natpmp
  · exact reports_service readings .upnp
  · exact reports_cookie readings
  · exact reports_live readings "bt.allow_same_ip" .allowMultipleConnectionsPerIp .flag .boolean
      liveText (by decide) rfl rfl (displays_flag site.conversions)
  · exact reports_live readings "bt.anonymous_mode" .anonymousMode .flag .boolean liveText
      (by decide) rfl rfl (displays_flag site.conversions)
  · exact reports_utp readings
  · exact reports_live readings "net.max_halfopen" .halfOpenLimit .integer .number halfOpenText
      (by decide) rfl rfl (displays_halfOpen site.conversions)
  · exact reports_configured readings "bt.active_downloads" .activeDownloads .integer .number
      countText (by decide) rfl rfl fun given pushed => displays_count given pushed site
  · exact reports_configured readings "bt.active_seeds" .activeSeeds .integer .number
      countText (by decide) rfl rfl fun given pushed => displays_count given pushed site
  · exact reports_configured readings "bt.active_limit" .activeLimit .integer .number
      countText (by decide) rfl rfl fun given pushed => displays_count given pushed site
  · exact reports_configured readings "bt.dont_count_slow_torrents" .dontCountSlowTorrents .flag
      .boolean (fun _ => "true") (by decide) rfl rfl
      fun given pushed => displays_configured given pushed site

end Rows

/-- The second answer is there exactly when the rows of the other keys can be read. -/
theorem isSome_answered_iff (options : Members) (befores afters : List (Row (Option Value)))
    (reports : List.Forall₂ (Reports options) befores afters) :
    (afters.mapM Row.answered).isSome = true ↔
      ∀ row ∈ befores, options.lookup row.key = none → row.value.isSome = true := by
  induction reports with
  | nil => simp
  | @cons before after befores afters same _ ih =>
    have own : after.value.isSome = true ↔
        (options.lookup before.key = none → before.value.isSome = true) := by
      cases lookup : options.lookup before.key with
      | none => simp [same.others lookup]
      | some given =>
        obtain ⟨reported, shown, _⟩ := same.given given lookup
        simp [shown]
    rw [List.forall_mem_cons, ← own, ← ih]
    cases read : after.value with
    | none => simp [List.mapM_cons, Row.answered, read]
    | some value =>
      cases later : afters.mapM Row.answered <;>
        simp [List.mapM_cons, Row.answered, read, later]

/-- Each result of a list is that of one of its items. -/
theorem mem_of_mem_mapM {α β : Type} (f : α → Option β) (items : List α) (results : List β)
    (made : items.mapM f = some results) (result : β) (inside : result ∈ results) :
    ∃ item ∈ items, f item = some result := by
  induction items generalizing results with
  | nil =>
    obtain rfl := Option.some.inj made
    cases inside
  | cons item rest ih =>
    obtain ⟨first, own, others, later, rfl⟩ : ∃ first, f item = some first ∧
        ∃ others, rest.mapM f = some others ∧ first :: others = results := by
      simpa [List.mapM_cons, Option.bind_eq_some_iff] using made
    rcases List.mem_cons.mp inside with rfl | inside
    · exact ⟨item, List.mem_cons_self, own⟩
    · obtain ⟨found, member, same⟩ := ih others later inside
      exact ⟨found, List.mem_cons_of_mem _ member, same⟩

/-- It shows what was given, and the other rows as the first answer had them. -/
theorem answers_of_reports (options : Members) (befores afters : List (Row (Option Value)))
    (reports : List.Forall₂ (Reports options) befores afters) (answers : List (Row Value))
    (answered : afters.mapM Row.answered = some answers) :
    (∀ before ∈ befores, ∀ value, options.lookup before.key = some value →
      ∃ row ∈ answers, row.key = before.key ∧ SameValue value row.value) ∧
    ∀ before ∈ befores, options.lookup before.key = none → ∀ row, before.answered = some row →
      row ∈ answers := by
  induction reports generalizing answers with
  | nil => exact ⟨fun _ member => absurd member List.not_mem_nil,
      fun _ member => absurd member List.not_mem_nil⟩
  | @cons before after befores afters same _ ih =>
    obtain ⟨row, own, rest, later, rfl⟩ : ∃ row, after.answered = some row ∧
        ∃ rest, afters.mapM Row.answered = some rest ∧ row :: rest = answers := by
      simpa [List.mapM_cons, Option.bind_eq_some_iff] using answered
    obtain ⟨given, others⟩ := ih rest later
    obtain ⟨value, read, rfl⟩ := Option.map_eq_some_iff.mp own
    constructor
    · intro tested member wanted lookup
      rcases List.mem_cons.mp member with rfl | member
      · obtain ⟨reported, shown, same_value⟩ := same.given wanted lookup
        obtain rfl := Option.some.inj (read.symm.trans shown)
        exact ⟨_, List.mem_cons_self, same.key, same_value⟩
      · obtain ⟨found, inside, key, same_value⟩ := given tested member wanted lookup
        exact ⟨found, List.mem_cons_of_mem _ inside, key, same_value⟩
    · intro tested member lookup answer answeredBefore
      rcases List.mem_cons.mp member with rfl | member
      · obtain ⟨held, readBefore, rfl⟩ := Option.map_eq_some_iff.mp answeredBefore
        have kept : value = held := by
          rw [same.others lookup, readBefore] at read
          exact (Option.some.inj read).symm
        rw [kept, same.key, same.type, same.params]
        exact List.mem_cons_self
      · exact List.mem_cons_of_mem _ (others tested member lookup answer answeredBefore)

/-- An answer shows what was given under a key that has an arm. -/
def ShowsGiven (options : Members) (answers : List (Row Value)) : Prop :=
  ∀ option ∈ options, option.1 ∈ places.map Prod.fst →
    ∃ row ∈ answers, row.key = option.1 ∧ SameValue option.2 row.value

/-- It has the other rows of an earlier answer. -/
def KeepsOthers (options : Members) (earlier : Option (List (Row Value)))
    (answers : List (Row Value)) : Prop :=
  ∀ befores, earlier = some befores → ∀ row ∈ befores, options.lookup row.key = none →
    row ∈ answers

/-- The call returns, and the request after it answers with what was given and, for
the other keys, what it answered before. -/
structure ReadsBack (site : Site) (daemon : Daemon) (options : Members) : Prop where
  returned : (setSettings site.conversions daemon options).2 = true
  answered : ∃ answers,
    getSettings site (setSettings site.conversions daemon options).1 = some answers ∧
      ShowsGiven options answers ∧ KeepsOthers options (getSettings site daemon) answers

/-- The entries that are shown as JSON texts, with the keys of their rows. -/
def encodedEntries : List (String × List String) :=
  [("lsd", Service.lsd.key), ("natpmp", Service.natpmp.key), ("upnp", Service.upnp.key),
    ("net.enable_utp", utpKey), ("bt.active_downloads", key "activeDownloads"),
    ("bt.active_seeds", key "activeSeeds"), ("bt.active_limit", key "activeLimit"),
    ("bt.dont_count_slow_torrents", key "dontCountSlowTorrents")]

/-- The configured default save path is a string, if it counts as there, and no entry
that is shown as a JSON text and not given is nested too deep for one. -/
structure Readable (site : Site) (daemon : Daemon) (options : Members) : Prop where
  savePath : ∀ value, findKey daemon.config (key "defaultSavePath") = some value →
    value.truthy = true → ∃ text, value = .string text
  shallow : ∀ entry ∈ encodedEntries, options.lookup entry.1 = none →
    ∀ value, findKey daemon.config entry.2 = some value → value.depth ≤ site.encodeLimit

section Readings

variable (site : Site) (daemon : Daemon)

/-- The row of an entry can be read exactly when the entry is not nested too deep. -/
theorem get_isSome_iff (path : List String) (name : String) (type : RowType)
    (defaultValue : String) (encoded : type ≠ .string) (value : Value)
    (found : findKey daemon.config path = some value) :
    (get site daemon path name type defaultValue).value.isSome = true ↔
      value.depth ≤ site.encodeLimit := by
  simp only [WebuiSettings.get, found, Option.bind_some]
  cases value with
  | undefined => simp [Value.depth]
  | _ =>
    simp only [shown, if_neg encoded, Json.encode]
    split <;> simp [*]

/-- The row of a text can be read. -/
theorem get_isSome_string (path : List String) (name defaultValue : String) (value : Value)
    (found : findKey daemon.config path = some value) :
    (get site daemon path name .string defaultValue).value.isSome = true := by
  simp only [WebuiSettings.get, found, Option.bind_some]
  cases value <;> rfl

/-- The row of the save path can be read exactly when a path that counts as there is a
string. -/
theorem absoluteSavePath_isSome_iff (value : Value)
    (found : findKey daemon.config (key "defaultSavePath") = some value) :
    (absoluteSavePath site daemon).isSome = true ↔
      (value.truthy = true → ∃ text, value = .string text) := by
  have absolute : ∀ text, (absoluteOf site (.string text)).isSome = true := by
    intro text
    simp only [absoluteOf]
    split <;> rfl
  have row : absoluteSavePath site daemon = absoluteOf site (value.orElse (.string ".")) := by
    unfold absoluteSavePath
    rw [found]
    rfl
  rw [row]
  by_cases there : value.truthy = true
  · rw [Value.orElse_truthy _ there]
    cases value with
    | string text => simp [absolute text]
    | _ => simp [absoluteOf, there]
  · rw [Value.orElse_falsy _ (by simpa using there)]
    simp [absolute, there]

/-- The rows of the keys that are not given can be read exactly when the configuration
is readable. -/
theorem readable_iff (options : Members) (unchosen : options.lookup "save_path" = none)
    (found : ∀ place ∈ places, (findKey daemon.config place.2.1).isSome = true) :
    (∀ row ∈ rows site daemon, options.lookup row.key = none → row.value.isSome = true) ↔
      Readable site daemon options := by
  have entry : ∀ name path, (∃ part, (name, path, part) ∈ places) → ∀ type defaultValue,
      type ≠ RowType.string →
      ((get site daemon path name type defaultValue).value.isSome = true ↔
        ∀ value, findKey daemon.config path = some value → value.depth ≤ site.encodeLimit) := by
    rintro name path ⟨part, listed⟩ type defaultValue encoded
    obtain ⟨value, held⟩ := Option.isSome_iff_exists.mp (found _ listed)
    rw [get_isSome_iff site daemon path name type defaultValue encoded value held, held]
    simp
  have savePath : (absoluteSavePath site daemon).isSome = true ↔
      ∀ value, findKey daemon.config (key "defaultSavePath") = some value →
        value.truthy = true → ∃ text, value = .string text := by
    obtain ⟨value, held⟩ := Option.isSome_iff_exists.mp
      (found ("save_path", key "defaultSavePath", .nothing) (by decide))
    rw [absoluteSavePath_isSome_iff site daemon value held, held]
    simp
  have directories : ((findKey daemon.config (key "downloadDirectories")).map fun directories =>
      directories.orElse (.array [] [])).isSome = true := by
    rw [Option.isSome_map]
    exact found ("download_directories", key "downloadDirectories", .nothing) (by decide)
  have cookie : (get site daemon cookieKey "webui.cookie" .string "{}").value.isSome = true := by
    obtain ⟨value, held⟩ := Option.isSome_iff_exists.mp
      (found ("webui.cookie", cookieKey, .nothing) (by decide))
    exact get_isSome_string site daemon cookieKey _ _ value held
  have shallow : ∀ name path, (∃ part, (name, path, part) ∈ places) → ∀ type defaultValue,
      type ≠ RowType.string →
      ((options.lookup (get site daemon path name type defaultValue).key = none →
          (get site daemon path name type defaultValue).value.isSome = true) ↔
        (options.lookup name = none → ∀ value, findKey daemon.config path = some value →
          value.depth ≤ site.encodeLimit)) :=
    fun name path listed type defaultValue encoded =>
      imp_congr_right fun _ => entry name path listed type defaultValue encoded
  simp only [rows, List.forall_mem_cons, List.not_mem_nil, false_implies, implies_true, and_true,
    row, flagText, directories, cookie, savePath, unchosen, true_implies, Option.isSome_some, true_and,
    shallow "lsd" Service.lsd.key ⟨.service .lsd, by decide⟩ .boolean _ (by decide),
    shallow "natpmp" Service.natpmp.key ⟨.service .natpmp, by decide⟩ .boolean _ (by decide),
    shallow "upnp" Service.upnp.key ⟨.service .upnp, by decide⟩ .boolean _ (by decide),
    shallow "net.enable_utp" utpKey ⟨.nothing, by decide⟩ .boolean _ (by decide),
    shallow "bt.active_downloads" (key "activeDownloads") ⟨.setting .activeDownloads, by decide⟩
      .number _ (by decide),
    shallow "bt.active_seeds" (key "activeSeeds") ⟨.setting .activeSeeds, by decide⟩
      .number _ (by decide),
    shallow "bt.active_limit" (key "activeLimit") ⟨.setting .activeLimit, by decide⟩
      .number _ (by decide),
    shallow "bt.dont_count_slow_torrents" (key "dontCountSlowTorrents")
      ⟨.setting .dontCountSlowTorrents, by decide⟩ .boolean _ (by decide)]
  constructor
  · rintro ⟨path, entries⟩
    refine ⟨path, ?_⟩
    simp only [encodedEntries, List.forall_mem_cons, List.not_mem_nil, false_implies,
      implies_true, and_true]
    exact entries
  · rintro ⟨path, entries⟩
    simp only [encodedEntries, List.forall_mem_cons, List.not_mem_nil, false_implies,
      implies_true, and_true] at entries
    exact ⟨path, entries⟩

end Readings

/-- The keys of the rows. -/
def rowKeys : List String :=
  ["bind_port", "conns_globally", "dht", "download_directories", "enable_bw_management",
    "max_dl_rate", "max_ul_rate", "net.calc_overhead", "net.ratelimit_utp", "save_path", "lsd",
    "natpmp", "upnp", "webui.cookie", "bt.allow_same_ip", "bt.anonymous_mode", "net.enable_utp",
    "net.max_halfopen", "bt.active_downloads", "bt.active_seeds", "bt.active_limit",
    "bt.dont_count_slow_torrents"]

/-- Every key with an arm has a row. -/
theorem exists_row (site : Site) (daemon : Daemon) (name : String)
    (listed : name ∈ places.map Prod.fst) : ∃ row ∈ rows site daemon, row.key = name := by
  have keys : (rows site daemon).map Row.key = rowKeys := rfl
  have all : ∀ name ∈ places.map Prod.fst, name ∈ rowKeys := by decide
  have inside := all name listed
  rw [← keys] at inside
  exact List.mem_map.mp inside

/-- After a call with well-typed values every given value is reported, and for every
other key what was reported before, exactly when the configuration is readable. -/
theorem readsBack_iff_readable (site : Site) (daemon : Daemon) (options : Members)
    (nodup : (options.map Prod.fst).Nodup) (typed : ∀ option ∈ options, WellTyped option)
    (clear : ∀ place ∈ places, Clear daemon.config place.2.1) :
    ReadsBack site daemon options ↔ Readable site daemon options := by
  have ready := fun place (listed : place ∈ places) =>
    clear_cases daemon.config place.2.1 (clear place listed) (places_ordinary place listed).2
  obtain ⟨returned, outcome⟩ := outcome_setSettings site.conversions options daemon nodup
    (fun option member => converts_of_wellTyped site.conversions option (typed option member))
    (fun option member made changes => by
      obtain ⟨place, own⟩ := change_at site.conversions option made changes
      rw [← own.path]
      exact ⟨(ready place own.listed).1, (ready place own.listed).2.1⟩)
  have reports := reports_rows
    ⟨nodup, typed, outcome, fun place listed => (ready place listed).2.2⟩
  have unchosen : options.lookup "save_path" = none := by
    rw [← Option.not_isSome_iff_eq_none]
    intro there
    obtain ⟨value, found⟩ := Option.isSome_iff_exists.mp there
    exact typed _ (mem_of_lookup "save_path" value options found)
  rw [← readable_iff site daemon options unchosen fun place listed => (ready place listed).2.2,
    ← isSome_answered_iff options _ _ reports]
  constructor
  · rintro ⟨_, answers, answered, _⟩
    exact Option.isSome_of_eq_some answered
  · intro there
    obtain ⟨answers, answered⟩ := Option.isSome_iff_exists.mp there
    obtain ⟨given, others⟩ := answers_of_reports options _ _ reports answers answered
    refine ⟨returned, answers, answered, fun option member listed => ?_, ?_⟩
    · obtain ⟨row, inside, name⟩ := exists_row site daemon option.1 listed
      have lookup := lookup_of_mem option.1 option.2 options nodup member
      rw [← name] at lookup ⊢
      exact given row inside option.2 lookup
    · intro befores answeredBefore row inside absent
      obtain ⟨before, listed, own⟩ := mem_of_mem_mapM Row.answered _ befores answeredBefore row inside
      have name : row.key = before.key := by
        obtain ⟨value, _, rfl⟩ := Option.map_eq_some_iff.mp own
        rfl
      exact others before listed (name ▸ absent) row own

/-- Integers have texts. -/
theorem toString_int_ne_empty (number : Int) : toString number ≠ "" := by
  cases number with
  | ofNat digits => exact Nat.repr_ne_empty
  | negSucc digits =>
    intro empty
    have long := congrArg String.length empty
    simp [Int.toString_eq_repr, Int.repr] at long

/-- A site in `/srv` whose encoder knows the documents without members. -/
def plainSite : Site where
  conversions := plainConversions
  encodeLimit := 1000
  print
    | .null => "null"
    | .boolean flag => toString flag
    | .number value => if value.den = 1 then toString value.num else "0.5"
    | .string _ => "\"\""
    | .array _ => "[]"
    | .object _ => "\x7b\x7d"
  absolute text := "/srv/" ++ text
  print_boolean _ := rfl
  print_integer value _ := by simp
  print_ne_empty document := by
    cases document with
    | number value =>
      simp only
      split
      · exact toString_int_ne_empty value.num
      · decide
    | boolean flag => cases flag <;> decide
    | _ => simp

/-- A daemon without configuration. -/
def quietDaemon : Daemon where
  config := .object []
  live := {
    running := {
      port := CInt.clamp 6881
      settings
        | .connectionsLimit | .downloadRateLimit | .uploadRateLimit | .mixedModeAlgorithm
        | .halfOpenLimit | .activeDownloads | .activeSeeds | .activeLimit => CInt.clamp 8
        | .rateLimitIpOverhead | .rateLimitUtp | .allowMultipleConnectionsPerIp | .anonymousMode
        | .dontCountSlowTorrents => false }
    services := fun _ => false }

/-- An empty configuration takes members anywhere. -/
theorem clear_empty (path : List String) : Clear (.object []) path := by
  match path with
  | [] => trivial
  | [_] => rfl
  | _ :: _ :: _ => exact ⟨rfl, fun node read => .inl (Option.some.inj read).symm⟩

/-- A port, a switched service and a text. -/
def threeOptions : Members :=
  [("bind_port", .integer 7000), ("lsd", .boolean true), ("webui.cookie", .string "a")]

/-- The three options have the types of their keys. -/
theorem wellTyped_threeOptions : ∀ option ∈ threeOptions, WellTyped option := by
  simp only [threeOptions, List.forall_mem_cons, List.not_mem_nil, false_implies, implies_true,
    and_true]
  exact ⟨⟨7000, by decide, by decide, rfl⟩, ⟨true, rfl⟩, ⟨"a", rfl⟩⟩

/-- Given together, they are all reported. -/
theorem three_values_reported : ReadsBack plainSite quietDaemon threeOptions := by
  refine (readsBack_iff_readable plainSite quietDaemon threeOptions (by decide)
    wellTyped_threeOptions fun place _ => clear_empty place.2.1).mpr ⟨fun value found there => ?_, ?_⟩
  · obtain rfl := Option.some.inj found
    cases there
  · intro entry listed _ value found
    have absent : findKey quietDaemon.config entry.2 = some .undefined := by
      revert entry
      simp only [encodedEntries, List.forall_mem_cons, List.not_mem_nil, false_implies,
        implies_true, and_true]
      exact ⟨fun _ _ => rfl, fun _ _ => rfl, fun _ _ => rfl, fun _ _ => rfl, fun _ _ => rfl,
        fun _ _ => rfl, fun _ _ => rfl, fun _ _ => rfl⟩
    rw [absent] at found
    obtain rfl := Option.some.inj found
    exact Nat.zero_le _

/-- A default save path that is a number. -/
def numberedDaemon : Daemon :=
  { quietDaemon with
    config := .object [("bittorrent", .object [("defaultSavePath", .integer 5)])] }

/-- Only below the number itself nothing can be set there. -/
theorem clear_numbered (path : List String)
    (outside : ∀ first elem below rest, path = first :: elem :: below :: rest →
      elem ≠ "defaultSavePath") : Clear numberedDaemon.config path := by
  match path with
  | [] => trivial
  | [_] => rfl
  | first :: elem :: rest =>
    refine ⟨rfl, fun node read => ?_⟩
    have node_eq : node = ((([("bittorrent", .object [("defaultSavePath", .integer 5)])] :
        Members).lookup first).getD .undefined) := (Option.some.inj read).symm
    by_cases bittorrent : first = "bittorrent"
    · subst bittorrent
      subst node_eq
      refine .inr ?_
      match rest with
      | [] => rfl
      | below :: rest =>
        refine ⟨rfl, fun node read => .inl ?_⟩
        have elsewhere : elem ≠ "defaultSavePath" := outside "bittorrent" elem below rest rfl
        have absent : ([("defaultSavePath", .integer 5)] : Members).lookup elem = none := by
          rw [lookup_cons_ite, if_neg elsewhere]
          rfl
        have node_eq : node = ((([("defaultSavePath", .integer 5)] :
            Members).lookup elem).getD .undefined) := (Option.some.inj read).symm
        rw [node_eq, absent]
        rfl
    · left
      rw [node_eq, lookup_cons_ite, if_neg bittorrent]
      rfl

/-- Of three well-typed values none is reported: the request throws. -/
theorem numbered_path_reports_nothing :
    (∀ option ∈ threeOptions, WellTyped option) ∧
      (∀ place ∈ places, Clear numberedDaemon.config place.2.1) ∧
      getSettings plainSite
        (setSettings plainSite.conversions numberedDaemon threeOptions).1 = none ∧
      ¬ ReadsBack plainSite numberedDaemon threeOptions := by
  have unanswered : getSettings plainSite
      (setSettings plainSite.conversions numberedDaemon threeOptions).1 = none := rfl
  refine ⟨wellTyped_threeOptions, ?_, unanswered, ?_⟩
  · have apart : ∀ place ∈ places, place.2.1[1]? ≠ some "defaultSavePath" ∨
        place.2.1.length ≤ 2 := by decide
    intro place listed
    refine clear_numbered place.2.1 fun first elem below rest path same => ?_
    rcases apart place listed with elsewhere | short
    · exact elsewhere (by rw [path, same]; rfl)
    · simp [path] at short
  · rintro ⟨_, answers, answered, _⟩
    rw [unanswered] at answered
    cases answered

end Hadouken.SettingsReadBack
