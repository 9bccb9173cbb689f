import Hadouken.SettingsOrder

/-!
# Valid settings

The configuration entries that `webui.setSettings` writes have types: a port, whole
numbers, switches, a path, a list of paths. What is not a number is not written to a
limit, and only an array is written to the list of directories. The message about an
invalid port is not thrown, the path is not looked at, and neither are the elements
of the list.

A run is any number of calls. A call that throws leaves what its options did before.
-/

namespace Hadouken.WebuiSettings

open Script Config Settings ConfigWrites

/-- The types of the entries. -/
inductive Form where
  | port
  | integer
  | choice
  | flag
  | text
  | texts
deriving DecidableEq

/-- The value has the type. -/
def Fits : Form → Value → Prop
  | .port, value => ∃ number : Int, 0 ≤ number ∧ number ≤ 65535 ∧ value = .integer number
  | .integer, value => ∃ number : Int, value = .integer number
  | .choice, value => value = .integer 0 ∨ value = .integer 1
  | .flag, value => ∃ flag, value = .boolean flag
  | .text, value => ∃ text, value = .string text
  | .texts, value => ∃ items named, value = .array items named ∧
      ∀ item ∈ items, ∃ text, item = .string text

/-- The type of the entry that an arm writes, if it has one. -/
def Arm.form : Arm → Option Form
  | .service _ | .enableUtp => some .flag
  | .downloadDirectories => some .texts
  | .savePath => some .text
  | .cookie => none

/-- The same for the arms of `core.setSettings`. -/
def coreForm : Settings.Arm → Form
  | .bindPort => .port
  | .setting _ .integer => .integer
  | .setting _ .flag => .flag
  | .setting _ .oneOrZero => .choice

/-- The type of the entry that is written for a key, if it has one. -/
def formOf (key : String) : Option Form :=
  match arms.lookup key with
  | some arm => arm.form
  | none => (Settings.arms.lookup key).map coreForm

/-- The entry is there, with its type. -/
def Typed (config : Value) (path : List String) (form : Form) : Prop :=
  ∃ value, findKey config path = some value ∧ Fits form value

/-- The entry is not there. -/
def Missing (config : Value) (path : List String) : Prop :=
  ∀ value, findKey config path = some value → value = .undefined

/-- Every entry has its type, or is missing and not required. -/
def Valid (required : List String) (config : Value) : Prop :=
  ∀ place ∈ places, ∀ form, formOf place.1 = some form →
    Typed config place.2.1 form ∨ (place.1 ∉ required ∧ Missing config place.2.1)

section Steps

variable (conversions : Conversions)

/-- The value is one for the entry. Every value is a switch. -/
def Suits : Form → Value → Prop
  | .port, value => ∃ number : Int, 0 ≤ number ∧ number ≤ 65535 ∧
      conversions.parseInt value = some (.finite number)
  | .integer, value => ∃ number : Int, conversions.parseInt value = some (.finite number)
  | .choice, _ | .flag, _ => True
  | .text, value => Fits .text value
  | .texts, value => Fits .texts value

/-- The value is turned away by the arm for the key. -/
def Refused : Form → Value → Prop
  | .port, value => conversions.parseInt value = none
  | .integer, value => conversions.parseInt value = none ∨ conversions.parseInt value = some .nan
  | .texts, value => ∀ items named, value ≠ .array items named
  | _, _ => False

/-- The session has what the option would set in it. -/
def Unmoved (daemon : Daemon) (option : String × Value) : Prop :=
  match Settings.arms.lookup option.1 with
  | some .bindPort => ∀ port, conversions.parseInt option.2 = some port →
      toInt port = daemon.live.running.port
  | some (.setting setting conversion) => ∀ value content,
      conversion.convert conversions option.2 = some value →
        setting.kind.require value = some content →
          content = daemon.live.running.settings setting
  | none => True

/-- The write does not get through, or it is swallowed where the session need not
change. -/
def Lost (daemon : Daemon) (option : String × Value) (path : List String) : Prop :=
  reaches daemon.config path = false ∨
    (takes daemon.config path = false ∧ Unmoved conversions daemon option)

/-- The options of a call as they are come to, each with the daemon it finds. -/
def stepsOf : Daemon → Members → List (Daemon × (String × Value))
  | _, [] => []
  | daemon, option :: rest =>
      (daemon, option) ::
        match set conversions daemon option with
        | none => []
        | some next => stepsOf next rest

/-- The same for a run. -/
def steps : Daemon → List Members → List (Daemon × (String × Value))
  | _, [] => []
  | daemon, options :: calls =>
      stepsOf conversions daemon options ++ steps (setSettings conversions daemon options).1 calls

/-- The daemon behind a step. -/
def after (step : Daemon × (String × Value)) : Daemon :=
  (set conversions step.1 step.2).getD step.1

/-- The step leaves valid settings. A value that is none for its entry changes
neither that nor the session. -/
structure Upheld (required : List String) (step : Daemon × (String × Value)) : Prop where
  valid : Valid required (after conversions step).config
  kept : ∀ place ∈ places, place.1 = step.2.1 → ∀ form, formOf place.1 = some form →
    ¬ Suits conversions form step.2.2 →
      (after conversions step).live = step.1.live ∧
        findKey (after conversions step).config place.2.1 = findKey step.1.config place.2.1

/-- The value is one for its entry, or is turned away, or has nowhere to go. -/
def Harmless (step : Daemon × (String × Value)) : Prop :=
  ∀ place ∈ places, place.1 = step.2.1 → ∀ form, formOf place.1 = some form →
    Suits conversions form step.2.2 ∨ Refused conversions form step.2.2 ∨
      Lost conversions step.1 step.2 place.2.1

end Steps

section Outcome

variable (conversions : Conversions)

/-- A key has one place. -/
theorem place_unique (place other : String × List String × Part) (listed : place ∈ places)
    (otherListed : other ∈ places) (same : place.1 = other.1) : place = other := by
  have distinct : (places.map Prod.fst).Nodup := by decide
  have own := lookup_of_mem place.1 place.2 places distinct listed
  have others := lookup_of_mem other.1 other.2 places distinct otherListed
  rw [same, others] at own
  exact Prod.ext same (Option.some.inj own).symm

/-- The change that is made for a value of an entry. -/
structure Carries (conversions : Conversions) (form : Form) (option : String × Value)
    (made : Change) : Prop where
  suits : Suits conversions form option.2 ↔ Fits form made.value
  taken : ¬ Refused conversions form option.2
  session : ¬ Suits conversions form option.2 →
    ∀ daemon, Unmoved conversions daemon option ↔ made.live daemon.live = daemon.live
  defined : made.value = .undefined → option.2 = .undefined

/-- Nothing is done for a value of an entry. -/
structure Turned (conversions : Conversions) (form : Form) (option : String × Value) : Prop where
  suits : ¬ Suits conversions form option.2
  refused : Refused conversions form option.2
  idle : change conversions option = none ∨ change conversions option = some none

/-- A setting of the session is set to what it is. -/
theorem withSetting_eq_iff (setting : Setting) (content : setting.kind.Content) (live : Live) :
    Live.withSetting setting content live = live ↔ content = live.running.settings setting := by
  constructor
  · intro same
    have own := congrArg (fun live => live.running.settings setting) same
    simpa [Live.withSetting] using own
  · rintro rfl
    simp [Live.withSetting]

/-- The port is set to what it is. -/
theorem withPort_eq_iff (port : CInt) (live : Live) :
    Live.withPort port live = live ↔ port = live.running.port := by
  constructor
  · intro same
    exact congrArg (fun live => live.running.port) same
  · rintro rfl
    rfl

/-- A value that suits its entry and is written with its type. -/
theorem carries_of_suits {form : Form} {option : String × Value} {made : Change}
    (suits : Suits conversions form option.2) (taken : ¬ Refused conversions form option.2)
    (fits : Fits form made.value) (defined : made.value ≠ .undefined) :
    Carries conversions form option made where
  suits := iff_of_true suits fits
  taken := taken
  session none := absurd suits none
  defined none := absurd none defined

/-- What is required of one kind is required of the same. -/
theorem required_of_kind (kind other : Kind) (value : Value) (same : other = kind)
    (required : ∃ content, other.require value = some content) :
    ∃ content, kind.require value = some content := by
  subst same
  exact required

/-- A value of an entry is carried, or turned away. -/
def Settled (form : Form) (option : String × Value) : Prop :=
  (∃ made, change conversions option = some (some made) ∧ Carries conversions form option made) ∨
    Turned conversions form option

section Arms

variable {name : String} (value : Value)

/-- Every value is carried to a switch of a service. -/
theorem settled_service {service : Service} (found : arms.lookup name = some (.service service)) :
    Settled conversions .flag (name, value) := by
  refine .inl ⟨⟨service.key, .boolean value.truthy, Live.withService service value.truthy⟩,
    by simp only [change, found], ?_⟩
  exact carries_of_suits conversions trivial id ⟨_, rfl⟩ (by simp)

/-- Every value is carried to the switch of the transport. -/
theorem settled_enableUtp (found : arms.lookup name = some .enableUtp) :
    Settled conversions .flag (name, value) := by
  refine .inl ⟨⟨utpKey, .boolean value.truthy, id⟩, by simp only [change, found], ?_⟩
  exact carries_of_suits conversions trivial id ⟨_, rfl⟩ (by simp)

/-- Every value is carried to the path, which is not looked at. -/
theorem settled_savePath (found : arms.lookup name = some .savePath) :
    Settled conversions .text (name, value) := by
  obtain rfl : name = "save_path" := by simpa [arms] using mem_of_lookup name _ arms found
  refine .inl ⟨⟨key "defaultSavePath", value, id⟩, by simp only [change, found], ?_⟩
  exact ⟨.rfl, id, fun _ daemon => ⟨fun _ => rfl, fun _ => trivial⟩, id⟩

/-- Arrays are carried to the list of directories, other values are turned away. -/
theorem settled_downloadDirectories (found : arms.lookup name = some .downloadDirectories) :
    Settled conversions .texts (name, value) := by
  obtain rfl : name = "download_directories" := by
    simpa [arms] using mem_of_lookup name _ arms found
  cases value with
  | array items named =>
    refine .inl ⟨⟨key "downloadDirectories", .array items named, id⟩, rfl, ?_⟩
    exact ⟨.rfl, fun none => none items named rfl,
      fun _ daemon => ⟨fun _ => rfl, fun _ => trivial⟩, id⟩
  | _ =>
    refine .inr ⟨?_, fun _ _ same => ?_, .inr rfl⟩
    · rintro ⟨_, _, same, _⟩
      cases same
    · cases same

/-- A port is carried where it has a number, whatever that is. -/
theorem settled_bindPort (found : arms.lookup name = none)
    (core : Settings.arms.lookup name = some .bindPort) :
    Settled conversions .port (name, value) := by
  cases parsed : conversions.parseInt value with
  | none =>
    refine .inr ⟨?_, parsed, .inl (by simp [change, found, core, parsed])⟩
    rintro ⟨number, _, _, same⟩
    cases parsed.symm.trans same
  | some port =>
    refine .inl ⟨⟨key "listenPort", .number port, Live.withPort (toInt port)⟩,
      by simp [change, found, core, parsed], ?_, ?_, ?_, ?_⟩
    · simp [Suits, Fits, parsed, Value.integer]
    · intro none
      cases parsed.symm.trans none
    · intro _ daemon
      simp [Unmoved, core, parsed, withPort_eq_iff]
    · rintro ⟨⟩

variable {setting : Setting}

/-- Every value is carried to a switch of the session. -/
theorem settled_flag (found : arms.lookup name = none)
    (core : Settings.arms.lookup name = some (.setting setting .flag)) :
    Settled conversions .flag (name, value) := by
  obtain ⟨content, required⟩ := required_of_kind setting.kind .bool (.boolean value.truthy)
    (kind_of_arm name setting .flag core) ⟨_, rfl⟩
  refine .inl ⟨⟨key setting.name, .boolean value.truthy, Live.withSetting setting content⟩,
    by simp [change, found, core, Conversion.convert, isNaN, required], ?_⟩
  exact carries_of_suits conversions trivial id ⟨_, rfl⟩ (by simp)

/-- Every value is carried to a choice of the session. -/
theorem settled_oneOrZero (found : arms.lookup name = none)
    (core : Settings.arms.lookup name = some (.setting setting .oneOrZero)) :
    Settled conversions .choice (name, value) := by
  obtain ⟨content, required⟩ := required_of_kind setting.kind .int
    (.integer (if value.truthy then 1 else 0)) (kind_of_arm name setting .oneOrZero core) ⟨_, rfl⟩
  refine .inl ⟨⟨key setting.name, .integer (if value.truthy then 1 else 0),
    Live.withSetting setting content⟩, ?_, ?_⟩
  · simp [change, found, core, Conversion.convert, isNaN, Value.integer] at required ⊢
    simp [required]
  · refine carries_of_suits conversions trivial id ?_ (by simp [Value.integer])
    cases value.truthy <;> simp [Fits]

/-- A number is carried to a limit of the session. -/
theorem carries_integer (core : Settings.arms.lookup name = some (.setting setting .integer))
    {number : Number} (parsed : conversions.parseInt value = some number) (proper : number ≠ .nan)
    {content : setting.kind.Content}
    (required : setting.kind.require (.number number) = some content) :
    Carries conversions .integer (name, value)
      ⟨key setting.name, .number number, Live.withSetting setting content⟩ := by
  refine ⟨?_, ?_, ?_, ?_⟩
  · simp [Suits, Fits, parsed, Value.integer]
  · rintro (none | same)
    · cases parsed.symm.trans none
    · exact proper (Option.some.inj (parsed.symm.trans same))
  · intro _ daemon
    rw [withSetting_eq_iff]
    simp only [Unmoved, core, Conversion.convert, parsed, Option.map_some, Option.some.injEq]
    constructor
    · intro unmoved
      exact unmoved _ content rfl required
    · rintro same _ own rfl ownRequired
      rw [← same]
      exact Option.some.inj (ownRequired.symm.trans required)
  · rintro ⟨⟩

/-- What is no number is turned away from a limit. -/
theorem settled_integer (found : arms.lookup name = none)
    (core : Settings.arms.lookup name = some (.setting setting .integer)) :
    Settled conversions .integer (name, value) := by
  cases parsed : conversions.parseInt value with
  | none =>
    refine .inr ⟨?_, .inl parsed, .inl (by simp [change, found, core, Conversion.convert, parsed])⟩
    rintro ⟨number, same⟩
    cases parsed.symm.trans same
  | some number =>
    by_cases nan : number = .nan
    · subst nan
      refine .inr ⟨?_, .inr parsed,
        .inr (by simp [change, found, core, Conversion.convert, parsed, isNaN])⟩
      rintro ⟨number, same⟩
      cases parsed.symm.trans same
    · obtain ⟨content, required⟩ := required_of_kind setting.kind .int (.number number)
        (kind_of_arm name setting .integer core) ⟨_, rfl⟩
      have isNumber : isNaN (.number number) = false := by
        cases number <;> first | rfl | exact absurd rfl nan
      refine .inl ⟨⟨key setting.name, .number number, Live.withSetting setting content⟩,
        by simp [change, found, core, Conversion.convert, parsed, isNumber, required], ?_⟩
      exact carries_integer conversions value core parsed nan required

end Arms

/-- Whatever the arm is, a value of its entry is carried or turned away. -/
theorem carries_or_turned (option : String × Value) (form : Form)
    (formed : formOf option.1 = some form) : Settled conversions form option := by
  obtain ⟨name, value⟩ := option
  simp only [formOf] at formed
  cases found : arms.lookup name with
  | some arm =>
    rw [found] at formed
    cases arm with
    | cookie => cases formed
    | service service =>
      obtain rfl := Option.some.inj formed
      exact settled_service conversions value found
    | enableUtp =>
      obtain rfl := Option.some.inj formed
      exact settled_enableUtp conversions value found
    | savePath =>
      obtain rfl := Option.some.inj formed
      exact settled_savePath conversions value found
    | downloadDirectories =>
      obtain rfl := Option.some.inj formed
      exact settled_downloadDirectories conversions value found
  | none =>
    rw [found] at formed
    obtain ⟨arm, core, rfl⟩ := Option.map_eq_some_iff.mp formed
    cases arm with
    | bindPort => exact settled_bindPort conversions value found core
    | setting setting conversion =>
      cases conversion with
      | flag => exact settled_flag conversions value found core
      | oneOrZero => exact settled_oneOrZero conversions value found core
      | integer => exact settled_integer conversions value found core

end Outcome

section Step

variable (conversions : Conversions) {daemon : Daemon} {option : String × Value}

/-- Behind an option that throws nothing has changed. -/
theorem after_none (stuck : set conversions daemon option = none) :
    after conversions (daemon, option) = daemon := by
  rw [after, stuck]
  rfl

/-- Behind an option that returns there is what it leaves. -/
theorem after_some {next : Daemon} (done : set conversions daemon option = some next) :
    after conversions (daemon, option) = next := by
  rw [after, done]
  rfl

/-- The entries of other keys keep their types, and stay missing. -/
theorem others_after (place : String × List String × Part) (listed : place ∈ places)
    (other : place.1 ≠ option.1) :
    (∀ form, Typed daemon.config place.2.1 form →
      Typed (after conversions (daemon, option)).config place.2.1 form) ∧
    (Missing daemon.config place.2.1 →
      Missing (after conversions (daemon, option)).config place.2.1) := by
  rcases set_cases conversions option with throws | idle | ⟨made, own, at_, makes⟩
  · rw [after_none conversions (throws daemon)]
    exact ⟨fun _ => id, id⟩
  · rw [after_some conversions (idle daemon)]
    exact ⟨fun _ => id, id⟩
  · cases done : set conversions daemon option with
    | none =>
      rw [after_none conversions done]
      exact ⟨fun _ => id, id⟩
    | some next =>
      rw [after_some conversions done]
      have framed := (untouched_set conversions daemon next option done place listed other).1
      refine ⟨fun form => ?_, fun missing value read => ?_⟩
      · rintro ⟨value, read, fits⟩
        exact ⟨value, framed.key value read, fits⟩
      · rw [makes] at done
        obtain ⟨config, written, rfl⟩ := Option.map_eq_some_iff.mp done
        have parts := (places_apart own at_.listed place listed (by rw [at_.key]; exact other)).1
        rw [at_.path] at parts
        rcases findKey_of_setKey made.path place.2.1 daemon.config config made.value value parts
          (ordinary_at at_) (places_named place listed) written read with before | undefined
        · exact missing value before
        · exact undefined

/-- Of a step on a key with a type, only its own entry counts. -/
theorem upheld_iff_own (required : List String) (valid : Valid required daemon.config)
    (place : String × List String × Part) (listed : place ∈ places) (here : place.1 = option.1)
    (form : Form) (formed : formOf place.1 = some form) :
    Upheld conversions required (daemon, option) ↔
      (Typed (after conversions (daemon, option)).config place.2.1 form ∨
        (place.1 ∉ required ∧ Missing (after conversions (daemon, option)).config place.2.1)) ∧
      (¬ Suits conversions form option.2 →
        (after conversions (daemon, option)).live = daemon.live ∧
          findKey (after conversions (daemon, option)).config place.2.1 =
            findKey daemon.config place.2.1) := by
  constructor
  · intro upheld
    exact ⟨upheld.valid place listed form formed, upheld.kept place listed here form formed⟩
  · rintro ⟨own, kept⟩
    refine ⟨fun other otherListed another anotherFormed => ?_,
      fun other otherListed otherHere another anotherFormed => ?_⟩
    · by_cases same : other.1 = option.1
      · obtain rfl := place_unique place other listed otherListed (here.trans same.symm)
        obtain rfl := Option.some.inj (formed.symm.trans anotherFormed)
        exact own
      · obtain ⟨typed, missing⟩ := @others_after conversions daemon option other
          otherListed same
        rcases valid other otherListed another anotherFormed with before | ⟨free, before⟩
        · exact .inl (typed another before)
        · exact .inr ⟨free, missing before⟩
    · obtain rfl := place_unique place other listed otherListed (here.trans otherHere.symm)
      obtain rfl := Option.some.inj (formed.symm.trans anotherFormed)
      exact kept

/-- Of a write that gets through: what is written has the type of the entry, or it is
swallowed, and the session has what it would be given. -/
theorem carried_iff (free : Prop) (path : List String) (form : Form) (made : Change)
    (next : Daemon) (carries : Carries conversions form option made)
    (defined : option.2 ≠ .undefined)
    (read : findKey next.config path =
      if takes daemon.config path then some made.value else findKey daemon.config path)
    (before : Typed daemon.config path form ∨ (free ∧ Missing daemon.config path))
    (reached : reaches daemon.config path = true) (live : next.live = made.live daemon.live) :
    (Typed next.config path form ∨ (free ∧ Missing next.config path)) ∧
      (¬ Suits conversions form option.2 → next.live = daemon.live ∧
        findKey next.config path = findKey daemon.config path) ↔
    Suits conversions form option.2 ∨ Refused conversions form option.2 ∨
      Lost conversions daemon option path := by
  have notRefused := carries.taken
  cases taken : takes daemon.config path with
  | true =>
    rw [taken, if_pos rfl] at read
    have fits : Typed next.config path form ↔ Suits conversions form option.2 := by
      rw [carries.suits, Typed, read]
      simp
    have there : ¬ Missing next.config path := fun missing =>
      defined (carries.defined (missing made.value read))
    constructor
    · rintro ⟨typed | ⟨_, missing⟩, _⟩
      · exact .inl (fits.mp typed)
      · exact absurd missing there
    · rintro (suits | refused | lost)
      · exact ⟨.inl (fits.mpr suits), fun unsuited => absurd suits unsuited⟩
      · exact absurd refused notRefused
      · simp [Lost, reached, taken] at lost
  | false =>
    rw [taken, if_neg (by simp)] at read
    have still : Typed next.config path form ∨ (free ∧ Missing next.config path) := by
      simpa only [Typed, Missing, read] using before
    constructor
    · rintro ⟨_, kept⟩
      by_cases suits : Suits conversions form option.2
      · exact .inl suits
      · have same := (kept suits).1
        rw [live] at same
        exact .inr (.inr (.inr ⟨taken, (carries.session suits daemon).mpr same⟩))
    · intro outcome
      refine ⟨still, fun unsuited => ⟨?_, read⟩⟩
      rcases outcome with suits | refused | lost
      · exact absurd suits unsuited
      · exact absurd refused notRefused
      · rw [Lost, reached] at lost
        obtain ⟨_, unmoved⟩ := lost.resolve_left (by simp)
        rw [live]
        exact (carries.session unsuited daemon).mp unmoved

/-- A step is upheld exactly where it is harmless. -/
theorem upheld_iff_harmless (required : List String) (valid : Valid required daemon.config)
    (defined : option.2 ≠ .undefined) :
    Upheld conversions required (daemon, option) ↔ Harmless conversions (daemon, option) := by
  by_cases known : ∃ place ∈ places, place.1 = option.1 ∧ ∃ form, formOf place.1 = some form
  · obtain ⟨place, listed, here, form, formed⟩ := known
    rw [upheld_iff_own conversions required valid place listed here form formed]
    have own : Harmless conversions (daemon, option) ↔ Suits conversions form option.2 ∨
        Refused conversions form option.2 ∨ Lost conversions daemon option place.2.1 := by
      constructor
      · intro harmless
        exact harmless place listed here form formed
      · intro outcome other otherListed otherHere another anotherFormed
        obtain rfl := place_unique place other listed otherListed (here.trans otherHere.symm)
        obtain rfl := Option.some.inj (formed.symm.trans anotherFormed)
        exact outcome
    rw [own]
    have before := valid place listed form formed
    have unfolded := set_eq conversions daemon option
    rcases carries_or_turned conversions option form (here ▸ formed) with
      ⟨made, changes, carries⟩ | turned
    · obtain ⟨other, at_⟩ := change_at conversions option made changes
      obtain rfl := place_unique place other listed at_.listed (here.trans at_.key.symm)
      obtain ⟨through, placed⟩ := apply_at daemon option made place at_
      rw [changes, Option.bind_some] at unfolded
      cases applied : Change.apply daemon (some made) with
      | none =>
        rw [applied] at through unfolded
        have lost : Lost conversions daemon option place.2.1 :=
          .inl (at_.path ▸ through.symm)
        rw [after_none conversions unfolded]
        exact ⟨fun _ => .inr (.inr lost), fun _ => ⟨before, fun _ => ⟨rfl, rfl⟩⟩⟩
      | some next =>
        obtain ⟨placedAt, live⟩ := placed next applied
        rw [applied] at through unfolded
        rw [after_some conversions unfolded]
        rw [at_.path] at before ⊢
        exact carried_iff conversions (place.1 ∉ required) made.path form made next carries defined
          placedAt.key before through.symm live
    · have unchanged : after conversions (daemon, option) = daemon := by
        rcases turned.idle with throws | idle
        · exact after_none conversions (by rw [unfolded, throws]; rfl)
        · exact after_some conversions (by rw [unfolded, idle]; rfl)
      rw [unchanged]
      exact ⟨fun _ => .inr (.inl turned.refused), fun _ => ⟨before, fun _ => ⟨rfl, rfl⟩⟩⟩
  · constructor
    · intro _ place listed here form formed
      exact absurd ⟨place, listed, here, form, formed⟩ known
    · intro _
      refine ⟨fun place listed form formed => ?_, fun place listed here form formed =>
        absurd ⟨place, listed, here, form, formed⟩ known⟩
      have other : place.1 ≠ option.1 := fun here => known ⟨place, listed, here, form, formed⟩
      obtain ⟨typed, missing⟩ := @others_after conversions daemon option place
        listed other
      rcases valid place listed form formed with before | ⟨free, before⟩
      · exact .inl (typed form before)
      · exact .inr ⟨free, missing before⟩

end Step

section Runs

variable (conversions : Conversions) (required : List String)

/-- The steps of a call are upheld exactly where they are harmless, and then the call
leaves valid settings. -/
theorem call_upheld_iff (daemon : Daemon) (options : Members)
    (valid : Valid required daemon.config)
    (defined : ∀ option ∈ options, option.2 ≠ .undefined) :
    ((∀ step ∈ stepsOf conversions daemon options, Upheld conversions required step) ↔
      ∀ step ∈ stepsOf conversions daemon options, Harmless conversions step) ∧
    ((∀ step ∈ stepsOf conversions daemon options, Upheld conversions required step) →
      Valid required (setSettings conversions daemon options).1.config) := by
  induction options generalizing daemon with
  | nil => exact ⟨by simp [stepsOf], fun _ => valid⟩
  | cons option rest ih =>
    have own := @upheld_iff_harmless conversions daemon option required valid
      (defined option List.mem_cons_self)
    rw [stepsOf, setSettings]
    cases done : set conversions daemon option with
    | none =>
      simp only [List.forall_mem_cons, own]
      exact ⟨by simp, fun _ => valid⟩
    | some next =>
      have later := fun validNext => ih next validNext fun other member =>
        defined other (List.mem_cons_of_mem option member)
      have validNext : Upheld conversions required (daemon, option) →
          Valid required next.config := by
        intro upheld
        have left := upheld.valid
        rwa [after_some conversions done] at left
      simp only [List.forall_mem_cons]
      refine ⟨⟨?_, ?_⟩, ?_⟩
      · rintro ⟨upheld, rest⟩
        exact ⟨own.mp upheld, (later (validNext upheld)).1.mp rest⟩
      · rintro ⟨harmless, rest⟩
        have upheld := own.mpr harmless
        exact ⟨upheld, (later (validNext upheld)).1.mpr rest⟩
      · rintro ⟨upheld, rest⟩
        exact (later (validNext upheld)).2 rest

/-- Over a run of calls, settings stay valid, and values that are none for their
entries change nothing, exactly where every option that is come to has a value for
its entry, or one that is turned away, or has nowhere to go. -/
theorem upheld_iff_all_harmless (daemon : Daemon) (calls : List Members)
    (valid : Valid required daemon.config)
    (json : ∀ options ∈ calls, ∀ option ∈ options, Json.Plain option.2) :
    (∀ step ∈ steps conversions daemon calls, Upheld conversions required step) ↔
      ∀ step ∈ steps conversions daemon calls, Harmless conversions step := by
  induction calls generalizing daemon with
  | nil => simp [steps]
  | cons options calls ih =>
    obtain ⟨call, validAfter⟩ := call_upheld_iff conversions required daemon options valid
      fun option member undefined => by
        have plain := json options List.mem_cons_self option member
        rw [undefined] at plain
        exact plain
    have later := fun validNext => ih (setSettings conversions daemon options).1 validNext
      fun other member => json other (List.mem_cons_of_mem options member)
    rw [steps, List.forall_mem_append, List.forall_mem_append]
    constructor
    · rintro ⟨first, rest⟩
      exact ⟨call.mp first, (later (validAfter first)).mp rest⟩
    · rintro ⟨first, rest⟩
      have upheld := call.mpr first
      exact ⟨upheld, (later (validAfter upheld)).mpr rest⟩

/-- An option that is come to is one of the options of a call. -/
theorem option_of_step (daemon : Daemon) (calls : List Members)
    (step : Daemon × (String × Value)) (member : step ∈ steps conversions daemon calls) :
    ∃ options ∈ calls, step.2 ∈ options := by
  have call : ∀ (options : Members) (daemon : Daemon), step ∈ stepsOf conversions daemon options →
      step.2 ∈ options := by
    intro options
    induction options with
    | nil => exact fun _ member => absurd member List.not_mem_nil
    | cons option rest ih =>
      intro daemon member
      rw [stepsOf] at member
      rcases List.mem_cons.mp member with rfl | later
      · exact List.mem_cons_self
      · cases done : set conversions daemon option with
        | none =>
          rw [done] at later
          cases later
        | some next =>
          rw [done] at later
          exact List.mem_cons_of_mem option (ih next later)
  induction calls generalizing daemon with
  | nil => cases member
  | cons options calls ih =>
    rw [steps] at member
    rcases List.mem_append.mp member with first | later
    · exact ⟨options, List.mem_cons_self, call options daemon first⟩
    · obtain ⟨other, inside, own⟩ := ih _ later
      exact ⟨other, List.mem_cons_of_mem options inside, own⟩

/-- Calls are harmless whose values suit their entries or are turned away. -/
theorem harmless_of_values (daemon : Daemon) (calls : List Members)
    (values : ∀ options ∈ calls, ∀ option ∈ options, ∀ form, formOf option.1 = some form →
      Suits conversions form option.2 ∨ Refused conversions form option.2) :
    ∀ step ∈ steps conversions daemon calls, Harmless conversions step := by
  intro step member place _ here form formed
  obtain ⟨options, inside, own⟩ := option_of_step conversions daemon calls step member
  rcases values options inside step.2 own form (here ▸ formed) with suits | refused
  · exact .inl suits
  · exact .inr (.inl refused)

end Runs

/-- Without required entries, settings without any are valid. -/
theorem valid_empty : Valid [] (.object []) := by
  intro place listed form _
  refine .inr ⟨List.not_mem_nil, fun value read => ?_⟩
  obtain ⟨part, rest, path⟩ := List.exists_cons_of_ne_nil (places_ordinary place listed).2
  rw [path] at read
  exact (Option.some.inj read).symm

/-- A port is set, and a limit that is no number is turned away. -/
theorem port_then_no_number_upheld :
    Valid [] (unlimited (.object [])).config ∧
      ∀ step ∈ steps plainConversions (unlimited (.object []))
          [[("bind_port", .integer 7000)], [("max_dl_rate", .boolean true)]],
        Upheld plainConversions [] step := by
  refine ⟨valid_empty, (upheld_iff_all_harmless plainConversions [] (unlimited (.object []))
    [[("bind_port", .integer 7000)], [("max_dl_rate", .boolean true)]] valid_empty ?_).mpr ?_⟩
  · simp only [List.forall_mem_cons, List.not_mem_nil, false_implies, implies_true, and_true]
    exact ⟨⟨7000, rfl⟩, trivial⟩
  · refine harmless_of_values plainConversions _ _ ?_
    simp only [List.forall_mem_cons, List.not_mem_nil, false_implies, implies_true, and_true]
    refine ⟨fun form formed => ?_, fun form formed => ?_⟩
    · obtain rfl : Form.port = form := Option.some.inj formed
      exact .inl ⟨7000, by decide, by decide, rfl⟩
    · obtain rfl : Form.integer = form := Option.some.inj formed
      exact .inr (.inr rfl)

/-- A port beyond 65535 is written and listened on. -/
theorem invalid_port_taken :
    Valid [] (unlimited (.object [])).config ∧
      findKey (setSettings plainConversions (unlimited (.object []))
        [("bind_port", .integer 70000)]).1.config (key "listenPort") = some (.integer 70000) ∧
      (setSettings plainConversions (unlimited (.object []))
        [("bind_port", .integer 70000)]).1.live.running.port = CInt.clamp 70000 ∧
      ¬ Valid [] (setSettings plainConversions (unlimited (.object []))
        [("bind_port", .integer 70000)]).1.config := by
  have written : findKey (setSettings plainConversions (unlimited (.object []))
      [("bind_port", .integer 70000)]).1.config (key "listenPort") = some (.integer 70000) := rfl
  refine ⟨valid_empty, written, rfl, fun valid => ?_⟩
  have own := valid ("bind_port", key "listenPort", .port) (by decide) .port rfl
  rcases own with ⟨value, read, number, _, upper, same⟩ | ⟨_, missing⟩
  · obtain rfl := Option.some.inj (written.symm.trans read)
    have cast : ((70000 : Int) : ℚ) = number := Number.finite.inj (Value.number.inj same)
    have equal : (70000 : Int) = number := by exact_mod_cast cast
    omega
  · cases missing _ written

end Hadouken.WebuiSettings
