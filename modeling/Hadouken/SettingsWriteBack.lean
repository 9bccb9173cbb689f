import Hadouken.SettingsReadBack

/-!
# Writing back the settings of the web interface

`webui.getSettings` gives its booleans as texts, and `webui.setSettings` takes
the truth value of what it is given: the text `"false"` turns a setting on.

A boolean is observed in the session and in the configuration, there as what the
next start reads for a setting, and as its truth value for a service and for uTP,
which is on where nothing is configured.
-/

namespace Hadouken.SettingsWriteBack

open Script Config ConfigWrites WebuiSettings SettingsReadBack
open Settings hiding set setSettings arms Arm

/-- What a boolean row is about. -/
inductive Toggle where
  | service (service : Service)
  | utp
  | setting (setting : Setting)
deriving DecidableEq

/-- The boolean rows, under their keys. -/
def toggles : List (String × Toggle) :=
  [("dht", .service .dht),
    ("enable_bw_management", .setting .mixedModeAlgorithm),
    ("net.calc_overhead", .setting .rateLimitIpOverhead),
    ("net.ratelimit_utp", .setting .rateLimitUtp),
    ("lsd", .service .lsd),
    ("natpmp", .service .natpmp),
    ("upnp", .service .upnp),
    ("bt.allow_same_ip", .setting .allowMultipleConnectionsPerIp),
    ("bt.anonymous_mode", .setting .anonymousMode),
    ("net.enable_utp", .utp),
    ("bt.dont_count_slow_torrents", .setting .dontCountSlowTorrents)]

/-- The content of a setting that is turned on. -/
def on : (kind : Kind) → kind.Content
  | .int => CInt.clamp 1
  | .bool => true

/-- What the configuration says of a service. -/
def configuredService (config : Value) (service : Service) : Option Bool :=
  (findKey config service.key).map Value.truthy

/-- What it says of the transport, which is on by default. -/
def configuredUtp (config : Value) : Option Bool :=
  (findKey config utpKey).map fun enabled =>
    match enabled with
    | .undefined => true
    | enabled => enabled.truthy

section Observing

variable (tree : PropertyTree) (defaults : SessionSettings)

/-- A boolean is as it was, in the session and in the configuration. -/
def Same (before after : Daemon) : Toggle → Prop
  | .service service =>
      after.live.services service = before.live.services service ∧
        configuredService after.config service = configuredService before.config service
  | .utp => configuredUtp after.config = configuredUtp before.config
  | .setting setting =>
      after.live.running.settings setting = before.live.running.settings setting ∧
        SettingsRestart.readBack tree defaults after.config setting =
          SettingsRestart.readBack tree defaults before.config setting

/-- Every boolean is as it was. -/
def Unchanged (before after : Daemon) : Prop :=
  ∀ toggle ∈ toggles, Same tree defaults before after toggle.2

/-- The entry of a setting can be written where the next start reads it: the
settings of `application::start` are those of the property tree. -/
def Writable (config : Value) (setting : Setting) : Prop :=
  if setting ∈ startSettings then takesTree config (key setting.name) = true
  else takes config (key setting.name) = true

/-- A boolean is on already, in the session and, where its entry can be written,
in the configuration. -/
def AlreadyOn (daemon : Daemon) : Toggle → Prop
  | .service service =>
      daemon.live.services service = true ∧
        (takes daemon.config service.key = true →
          configuredService daemon.config service = some true)
  | .utp => takes daemon.config utpKey = true → configuredUtp daemon.config = some true
  | .setting setting =>
      daemon.live.running.settings setting = on setting.kind ∧
        (Writable daemon.config setting →
          SettingsRestart.readBack tree defaults daemon.config setting = some (on setting.kind))

end Observing

/-- The option is written: its value converts, and its entry can be reached. -/
def accepted (conversions : Conversions) (config : Value) (option : String × Value) : Bool :=
  match change conversions option with
  | none => false
  | some none => true
  | some (some made) => reaches config made.path

/-- The options that write rows back. -/
def writeBack (rows : List (Row Value)) : Members := rows.map fun row => (row.key, row.value)

/-- Where a boolean is written. -/
def Toggle.place : Toggle → List String × Part
  | .service own => (own.key, .service own)
  | .utp => (utpKey, .nothing)
  | .setting own => (key own.name, .setting own)

/-- What turns a boolean on. -/
def onValue : Toggle → Value
  | .service _ | .utp => .boolean true
  | .setting setting => setting.kind.push (on setting.kind)

/-- The session when the boolean is on. -/
def onLive : Toggle → Live → Live
  | .service service => Live.withService service true
  | .utp => id
  | .setting setting => Live.withSetting setting (on setting.kind)

/-- The rows are places of the configuration. -/
theorem toggles_places : ∀ entry ∈ toggles, (entry.1, entry.2.place) ∈ places := by
  decide

/-- The sections of the booleans are different. -/
theorem toggles_sections : ∀ entry ∈ toggles, ∀ place ∈ places, place.1 ≠ entry.1 →
    diverge place.2.1 (entry.2.place.1.take 2) = true := by
  decide

/-- A text turns a boolean on, whichever it is. -/
theorem change_toggle (conversions : Conversions) (entry : String × Toggle)
    (listed : entry ∈ toggles) (given : Value) (truthy : given.truthy = true) :
    change conversions (entry.1, given) =
      some (some ⟨entry.2.place.1, onValue entry.2, onLive entry.2⟩) := by
  have service : ∀ service : Service, change conversions (service.name, given) =
      some (some ⟨service.key, .boolean true, Live.withService service true⟩) := by
    intro service
    rw [← truthy]
    cases service <;> rfl
  have utp : change conversions ("net.enable_utp", given) =
      some (some ⟨utpKey, .boolean true, id⟩) := by
    rw [← truthy]
    rfl
  have setting := fun name setting conversion =>
    change_converted conversions name given setting conversion (on setting.kind)
  have flag : Conversion.flag.convert conversions given = some (.boolean true) := by
    rw [Conversion.convert, truthy]
  have mixed : Conversion.oneOrZero.convert conversions given = some (.integer 1) := by
    rw [Conversion.convert, truthy]
    rfl
  simp only [toggles, List.mem_cons, List.not_mem_nil, or_false] at listed
  rcases listed with rfl | rfl | rfl | rfl | rfl | rfl | rfl | rfl | rfl | rfl | rfl
  · exact service .dht
  · exact setting _ .mixedModeAlgorithm _ rfl rfl mixed
  · exact setting _ .rateLimitIpOverhead _ rfl rfl flag
  · exact setting _ .rateLimitUtp _ rfl rfl flag
  · exact service .lsd
  · exact service .natpmp
  · exact service .upnp
  · exact setting _ .allowMultipleConnectionsPerIp _ rfl rfl flag
  · exact setting _ .anonymousMode _ rfl rfl flag
  · exact utp
  · exact setting _ .dontCountSlowTorrents _ rfl rfl flag

section Readable

/-- The section of the session's settings is there or absent, but not `null`. -/
def Readable (config : Value) : Prop :=
  ∃ node, config.member "bittorrent" = some node ∧ node ≠ .null

/-- A key is read below its first part. -/
theorem findKey_below (config : Value) (part : String) (rest : List String) :
    findKey config (part :: rest) = (findKey config [part]).bind fun node =>
      match node with
      | .undefined => some .undefined
      | _ => findKey node rest := by
  rw [findKey_cons, findKey_cons config part []]
  cases config.member part with
  | none => rfl
  | some node => cases node <;> rfl

/-- A key of several parts is read below its section. -/
theorem findKey_section (config : Value) (first second : String) (rest : List String) :
    findKey config (first :: second :: rest) =
      (findKey config [first, second]).bind fun node =>
        match node with
        | .undefined => some .undefined
        | _ => findKey node rest := by
  rw [findKey_cons, findKey_cons config first [second]]
  cases config.member first with
  | none => rfl
  | some node => cases node <;> first | rfl | exact findKey_below _ second rest

/-- Every entry of a readable section can be read. -/
theorem isSome_section (config : Value) (readable : Readable config) (part : String) :
    (findKey config ["bittorrent", part]).isSome = true := by
  obtain ⟨node, read, notNull⟩ := readable
  rw [findKey_cons, read, Option.bind_some]
  by_cases defined : node = .undefined
  · subst defined
    rfl
  · obtain ⟨child, below⟩ := Option.isSome_iff_exists.mp
      (node.isSome_member part defined notNull)
    have found : (findKey node [part]).isSome = true := by
      rw [findKey_cons, below]
      cases child <;> rfl
    cases node <;> first | rfl | exact found

/-- A write leaves the section readable. -/
theorem readable_setKey (config written value : Value) (elem next : String) (rest : List String)
    (noLength : "length" ∉ elem :: next :: rest) (readable : Readable config)
    (done : setKey config (elem :: next :: rest) value = some written) : Readable written := by
  have plain : elem ≠ "length" := fun same => noLength (by simp [same])
  rcases setKey_cons config written elem next rest value plain done with
    ⟨_, rfl⟩ | ⟨_, node, child, _, below, stepped⟩
  · exact readable
  · by_cases own : "bittorrent" = elem
    · refine ⟨child, own ▸ stepped.own, ?_⟩
      rintro rfl
      have truthy := truthy_child node .null value next rest
        (fun same => noLength (by simp [same])) below
      cases truthy
    · obtain ⟨section_, read, notNull⟩ := readable
      exact ⟨section_, ((stepped.others _ own (by decide)).1).trans read, notNull⟩

variable (conversions : Conversions)

/-- All keys have a section and a name in it. -/
theorem places_long : ∀ place ∈ places, 2 ≤ place.2.1.length := by
  decide

/-- An option leaves the section readable. -/
theorem readable_set (daemon next : Daemon) (option : String × Value)
    (readable : Readable daemon.config) (done : set conversions daemon option = some next) :
    Readable next.config := by
  rw [set_eq] at done
  obtain ⟨made, changes, applied⟩ := Option.bind_eq_some_iff.mp done
  cases made with
  | none =>
    obtain rfl := Option.some.inj applied
    exact readable
  | some made =>
    obtain ⟨config, written, rfl⟩ := Option.map_eq_some_iff.mp applied
    obtain ⟨place, listed, _, path, _⟩ := change_at conversions option made changes
    have long := places_long place listed
    have noLength := (places_ordinary place listed).1
    rw [path] at long noLength
    match shape : made.path with
    | [] | [_] =>
      rw [shape] at long
      simp at long
    | elem :: part :: rest =>
      rw [shape] at noLength written
      exact readable_setKey daemon.config config made.value elem part rest noLength readable written

end Readable

/-- Everything that is observed of a boolean is as it was. -/
structure Kept (before after : Daemon) (toggle : Toggle) : Prop where
  live : SameAt before.live after.live toggle.place.2
  key : findKey after.config toggle.place.1 = findKey before.config toggle.place.1
  node : treeLookup after.config toggle.place.1 = treeLookup before.config toggle.place.1
  takes : takes after.config toggle.place.1 = takes before.config toggle.place.1
  takesTree : takesTree after.config toggle.place.1 = takesTree before.config toggle.place.1

section Steps

variable (tree : PropertyTree) (conversions : Conversions) (defaults : SessionSettings)

/-- Every boolean is below the section. -/
theorem toggle_section (toggle : Toggle) :
    ∃ part rest, toggle.place.1 = "bittorrent" :: part :: rest := by
  cases toggle <;> exact ⟨_, _, rfl⟩

/-- An option under another key keeps a boolean. -/
theorem kept_set (daemon next : Daemon) (option : String × Value)
    (readable : Readable daemon.config) (done : set conversions daemon option = some next)
    (entry : String × Toggle) (listed : entry ∈ toggles) (other : entry.1 ≠ option.1) :
    Kept daemon next entry.2 := by
  obtain ⟨framed, live⟩ := untouched_set conversions daemon next option done _
    (toggles_places entry listed) other
  refine ⟨live, ?_, framed.node, framed.takes, framed.takesTree⟩
  have parts := fun place placeListed (key : place.1 = option.1) =>
    toggles_sections entry listed place placeListed (fun same => other (same.symm.trans key))
  obtain ⟨part, rest, path⟩ := toggle_section entry.2
  have noLength := (places_ordinary _ (toggles_places entry listed)).1
  simp only [path, List.take_succ_cons, List.take_zero, List.mem_cons, not_or] at parts noLength
  have section_ := framed_set conversions daemon next option done ["bittorrent", part] parts
    (by simp [noLength.2.1])
  obtain ⟨node, read⟩ := Option.isSome_iff_exists.mp (isSome_section _ readable part)
  rw [path, findKey_section, findKey_section daemon.config, read, section_.key node read]

/-- What the next start reads for a setting is determined by its entry. -/
theorem readBack_congr (before after : Value) (setting : Setting)
    (sameKey : findKey after (key setting.name) = findKey before (key setting.name))
    (sameNode : treeLookup after (key setting.name) = treeLookup before (key setting.name)) :
    SettingsRestart.readBack tree defaults after setting =
      SettingsRestart.readBack tree defaults before setting := by
  simp only [SettingsRestart.readBack, fallback, typed, treeGet, sameKey, sameNode]

/-- What is kept is the same. -/
theorem same_of_kept (before after : Daemon) (toggle : Toggle) (kept : Kept before after toggle) :
    Same tree defaults before after toggle := by
  obtain ⟨live, sameKey, sameNode, _, _⟩ := kept
  cases toggle with
  | service service => exact ⟨live, congrArg (Option.map Value.truthy) sameKey⟩
  | utp => exact congrArg (Option.map _) sameKey
  | setting setting => exact ⟨live, readBack_congr tree defaults _ _ setting sameKey sameNode⟩

/-- What is kept is on as before. -/
theorem alreadyOn_of_kept (before after : Daemon) (toggle : Toggle)
    (kept : Kept before after toggle) :
    AlreadyOn tree defaults after toggle ↔ AlreadyOn tree defaults before toggle := by
  have same := same_of_kept tree defaults before after toggle kept
  obtain ⟨live, sameKey, sameNode, sameTakes, sameTree⟩ := kept
  cases toggle with
  | service service =>
    rw [AlreadyOn, AlreadyOn, same.1, same.2]
    simp only [Toggle.place] at sameTakes
    rw [sameTakes]
  | utp =>
    rw [AlreadyOn, AlreadyOn, show configuredUtp after.config = _ from same]
    simp only [Toggle.place] at sameTakes
    rw [sameTakes]
  | setting setting =>
    simp only [Toggle.place] at sameTakes sameTree
    rw [AlreadyOn, AlreadyOn, same.1, same.2, Writable, Writable, sameTakes, sameTree]

/-- A setting that is on pushes a truthy value. -/
theorem truthy_on (kind : Kind) : (kind.push (on kind)).truthy = true := by
  cases kind <;> decide

/-- What the next start reads for a setting that was turned on. -/
theorem readBack_placed (before after : Value) (setting : Setting)
    (placed : Placed before after (key setting.name) (setting.kind.push (on setting.kind))) :
    (Writable before setting →
      SettingsRestart.readBack tree defaults after setting = some (on setting.kind)) ∧
    (¬ Writable before setting →
      SettingsRestart.readBack tree defaults after setting =
        SettingsRestart.readBack tree defaults before setting) := by
  obtain ⟨ownKey, ownNode⟩ := placed
  have read : ∀ rule ∈ rules, rule = .fallback setting ∨ rule = .typed setting →
      setting ∉ startSettings := by
    cases setting <;> decide
  unfold SettingsRestart.readBack Writable
  by_cases falls : .fallback setting ∈ rules
  · rw [if_pos falls, if_pos falls, if_neg (read _ falls (.inl rfl)), fallback, fallback, ownKey]
    constructor
    · intro taken
      rw [if_pos taken]
      simp [Value.orElse_truthy _ (truthy_on setting.kind)]
    · intro swallowed
      rw [if_neg swallowed]
  · rw [if_neg falls, if_neg falls]
    by_cases types : .typed setting ∈ rules
    · rw [if_pos types, if_pos types, if_neg (read _ types (.inr rfl)), typed, typed, ownKey]
      constructor
      · intro taken
        have defined := setting.kind.push_ne_undefined (on setting.kind)
        simp [taken]
      · intro swallowed
        rw [if_neg swallowed]
    · have started : setting ∈ startSettings := by
        revert falls types
        cases setting <;> decide
      rw [if_neg types, if_neg types, if_pos started, treeGet, treeGet, ownNode]
      constructor
      · intro taken
        rw [if_pos taken, Option.bind_some, tree.get_push]
        rfl
      · intro swallowed
        rw [if_neg swallowed]

/-- A boolean that a text is written to is as it was exactly when it was on. -/
theorem same_set_iff (daemon next : Daemon) (entry : String × Toggle) (listed : entry ∈ toggles)
    (given : Value) (truthy : given.truthy = true)
    (done : set conversions daemon (entry.1, given) = some next) :
    Same tree defaults daemon next entry.2 ↔ AlreadyOn tree defaults daemon entry.2 := by
  have changes := change_toggle conversions entry listed given truthy
  rw [set_eq, changes, Option.bind_some] at done
  obtain ⟨place, own⟩ := change_at conversions _ _ changes
  obtain ⟨placed, nextLive⟩ := (apply_at daemon _ _ place own).2 next done
  have read : findKey next.config entry.2.place.1 =
      if takes daemon.config entry.2.place.1 then some (onValue entry.2)
      else findKey daemon.config entry.2.place.1 := placed.key
  have live : next.live = onLive entry.2 daemon.live := nextLive
  obtain ⟨name, toggle⟩ := entry
  cases toggle with
  | service service =>
    simp only [Toggle.place, onValue] at read
    have switched : next.live.services service = true := by
      rw [live]
      exact Function.update_self service true daemon.live.services
    rw [Same, AlreadyOn, switched, configuredService, read]
    refine and_congr eq_comm ?_
    by_cases taken : takes daemon.config service.key = true
    · simp only [taken, if_true, true_imp_iff]
      exact eq_comm
    · simp [taken, configuredService]
  | utp =>
    simp only [Toggle.place, onValue] at read
    rw [Same, AlreadyOn, configuredUtp, read]
    by_cases taken : takes daemon.config utpKey = true
    · simp only [taken, if_true, true_imp_iff]
      exact eq_comm
    · simp [taken, configuredUtp]
  | setting setting =>
    have switched : next.live.running.settings setting = on setting.kind := by
      rw [live]
      exact Function.update_self setting _ daemon.live.running.settings
    obtain ⟨writes, leaves⟩ := readBack_placed tree defaults daemon.config next.config setting placed
    rw [Same, AlreadyOn, switched]
    refine and_congr eq_comm ?_
    by_cases writable : Writable daemon.config setting
    · rw [writes writable]
      simp only [writable, true_imp_iff]
      exact eq_comm
    · simp [leaves writable, writable]

/-- As it was, and then as it was. -/
theorem same_trans (first second third : Daemon) (toggle : Toggle)
    (earlier : Same tree defaults first second toggle)
    (later : Same tree defaults second third toggle) :
    Same tree defaults first third toggle := by
  cases toggle with
  | utp => exact Eq.trans later earlier
  | service service => exact ⟨later.1.trans earlier.1, later.2.trans earlier.2⟩
  | setting setting => exact ⟨later.1.trans earlier.1, later.2.trans earlier.2⟩

/-- What is as it was, was as it is. -/
theorem same_symm (first second : Daemon) (toggle : Toggle)
    (same : Same tree defaults first second toggle) : Same tree defaults second first toggle := by
  cases toggle with
  | utp => exact Eq.symm same
  | service service => exact ⟨same.1.symm, same.2.symm⟩
  | setting setting => exact ⟨same.1.symm, same.2.symm⟩

/-- Nothing has changed. -/
theorem same_refl (daemon : Daemon) (toggle : Toggle) :
    Same tree defaults daemon daemon toggle := by
  cases toggle with
  | utp => rfl
  | service service => exact ⟨rfl, rfl⟩
  | setting setting => exact ⟨rfl, rfl⟩

/-- Options under other keys keep a boolean, however the call ends. -/
theorem same_setSettings (options : Members) (daemon : Daemon) (readable : Readable daemon.config)
    (entry : String × Toggle) (listed : entry ∈ toggles) (other : entry.1 ∉ options.map Prod.fst) :
    Same tree defaults daemon (setSettings conversions daemon options).1 entry.2 := by
  induction options generalizing daemon with
  | nil => exact same_refl tree defaults daemon entry.2
  | cons option rest ih =>
    rw [List.map_cons, List.mem_cons, not_or] at other
    rw [setSettings]
    cases done : set conversions daemon option with
    | none => exact same_refl tree defaults daemon entry.2
    | some next =>
      have kept := kept_set conversions daemon next option readable done entry listed other.1
      exact same_trans tree defaults daemon next _ entry.2
        (same_of_kept tree defaults daemon next entry.2 kept)
        (ih next (readable_set conversions daemon next option readable done) other.2)

/-- An option is accepted exactly where it does not throw. -/
theorem accepted_eq (daemon : Daemon) (option : String × Value) :
    accepted conversions daemon.config option = (set conversions daemon option).isSome := by
  rw [set_eq, accepted]
  cases changes : change conversions option with
  | none => rfl
  | some made =>
    cases made with
    | none => rfl
    | some made =>
      obtain ⟨place, own⟩ := change_at conversions option made changes
      exact (apply_at daemon option made place own).1.symm

/-- An option under another key leaves the acceptance as it was. -/
theorem accepted_set (daemon next : Daemon) (option other : String × Value)
    (done : set conversions daemon option = some next) (distinct : other.1 ≠ option.1) :
    accepted conversions next.config other = accepted conversions daemon.config other := by
  unfold accepted
  cases changes : change conversions other with
  | none => rfl
  | some made =>
    cases made with
    | none => rfl
    | some made =>
      obtain ⟨place, own⟩ := change_at conversions other made changes
      have framed := (untouched_set conversions daemon next option done place own.listed
        (by rw [own.key]; exact distinct)).1
      rw [own.path] at framed
      exact framed.reaches

/-- Two tests that agree take the same front. -/
theorem takeWhile_congr {α : Type} (first second : α → Bool) (items : List α)
    (same : ∀ item ∈ items, first item = second item) :
    items.takeWhile first = items.takeWhile second := by
  induction items with
  | nil => rfl
  | cons item rest ih =>
    rw [List.takeWhile_cons, List.takeWhile_cons, same item List.mem_cons_self,
      ih fun other member => same other (List.mem_cons_of_mem item member)]

/-- A call leaves every boolean as it was exactly when those it writes before the
first option that throws were on. The induction takes the first option: no later
one is about its key, and it leaves the others and their acceptance as they were. -/
theorem unchanged_iff (options : Members) (nodup : (options.map Prod.fst).Nodup)
    (texts : ∀ option ∈ options, ∀ toggle, (option.1, toggle) ∈ toggles →
      option.2.truthy = true)
    (daemon : Daemon) (readable : Readable daemon.config) :
    Unchanged tree defaults daemon (setSettings conversions daemon options).1 ↔
      ∀ option ∈ options.takeWhile (accepted conversions daemon.config), ∀ toggle,
        (option.1, toggle) ∈ toggles → AlreadyOn tree defaults daemon toggle := by
  induction options generalizing daemon with
  | nil => exact iff_of_true (fun entry _ => same_refl tree defaults daemon entry.2) (by simp)
  | cons option rest ih =>
    rw [List.map_cons, List.nodup_cons] at nodup
    obtain ⟨fresh, restNodup⟩ := nodup
    have own := accepted_eq conversions daemon option
    rw [setSettings, List.takeWhile_cons, own]
    cases done : set conversions daemon option with
    | none => exact iff_of_true (fun entry _ => same_refl tree defaults daemon entry.2) (by simp)
    | some next =>
      have nextReadable := readable_set conversions daemon next option readable done
      have apart : ∀ other ∈ rest, other.1 ≠ option.1 := by
        intro other member same
        exact fresh (same ▸ List.mem_map_of_mem (f := Prod.fst) member)
      have later := ih restNodup
        (fun other member => texts other (List.mem_cons_of_mem option member)) next nextReadable
      have prefixes := takeWhile_congr (accepted conversions next.config)
        (accepted conversions daemon.config) rest fun other member =>
          accepted_set conversions daemon next option other done (apart other member)
      have inside := fun other (member : other ∈ rest.takeWhile _) =>
        (List.takeWhile_sublist (accepted conversions daemon.config)).mem member
      have shifted : ∀ other ∈ rest.takeWhile (accepted conversions daemon.config), ∀ toggle,
          (other.1, toggle) ∈ toggles →
          (AlreadyOn tree defaults next toggle ↔ AlreadyOn tree defaults daemon toggle) :=
        fun other member toggle listed => alreadyOn_of_kept tree defaults daemon next toggle
          (kept_set conversions daemon next option readable done _ listed
            (apart other (inside other member)))
      rw [prefixes] at later
      simp only [Option.isSome_some, if_true, List.forall_mem_cons]
      rw [← forall₄_congr shifted, ← later]
      have ownStep : ∀ toggle, (option.1, toggle) ∈ toggles →
          (Same tree defaults daemon next toggle ↔ AlreadyOn tree defaults daemon toggle) :=
        fun toggle listed => same_set_iff tree conversions defaults daemon next _ listed option.2
          (texts option List.mem_cons_self toggle listed) done
      have settled : ∀ toggle, (option.1, toggle) ∈ toggles →
          Same tree defaults next (setSettings conversions next rest).1 toggle :=
        fun toggle listed => same_setSettings tree conversions defaults rest next nextReadable _
          listed fresh
      have untouched : ∀ entry ∈ toggles, entry.1 ≠ option.1 →
          Same tree defaults daemon next entry.2 :=
        fun entry listed other => same_of_kept tree defaults daemon next entry.2
          (kept_set conversions daemon next option readable done entry listed other)
      constructor
      · intro unchanged
        refine ⟨fun toggle listed => (ownStep toggle listed).mp ?_, fun entry listed => ?_⟩
        · exact same_trans tree defaults _ _ _ toggle (unchanged _ listed)
            (same_symm tree defaults _ _ toggle (settled toggle listed))
        · by_cases key : entry.1 = option.1
          · exact settled entry.2 (key ▸ listed)
          · exact same_trans tree defaults _ _ _ entry.2
              (same_symm tree defaults _ _ entry.2 (untouched entry listed key))
              (unchanged entry listed)
      · rintro ⟨here, others⟩ entry listed
        refine same_trans tree defaults _ _ _ entry.2 ?_ (others entry listed)
        by_cases key : entry.1 = option.1
        · have listed' : (option.1, entry.2) ∈ toggles := key ▸ listed
          exact (ownStep entry.2 listed').mpr (here entry.2 listed')
        · exact untouched entry listed key

end Steps

section Rows

variable (site : Site) (daemon : Daemon)

/-- The text of a flag is truthy, whichever flag it is. -/
theorem truthy_flagText (flag : Bool) (value : Value) (shown : flagText flag = some value) :
    value.truthy = true := by
  obtain rfl := Option.some.inj shown
  cases flag <;> decide

/-- A configured boolean is shown as a text. -/
theorem truthy_get (path : List String) (name defaultValue : String) (value : Value)
    (default : defaultValue ≠ "")
    (shown : (get site daemon path name .boolean defaultValue).value = some value)
    (present : value ≠ .undefined) : value.truthy = true := by
  obtain ⟨val, _, displayed⟩ := Option.bind_eq_some_iff.mp shown
  split at displayed
  · obtain rfl := Option.some.inj displayed
    simpa [Value.truthy] using default
  · simp only [WebuiSettings.shown, reduceCtorEq, if_false] at displayed
    obtain ⟨document, _, rfl⟩ := Option.map_eq_some_iff.mp displayed
    cases document with
    | none => exact absurd rfl present
    | some document =>
      simpa [Value.truthy] using site.print_ne_empty document

/-- The boolean rows show texts. -/
theorem truthy_of_row (row : Row (Option Value)) (listed : row ∈ rows site daemon)
    (value : Value) (read : row.value = some value) (present : value ≠ .undefined)
    (toggle : Toggle) (boolean : (row.key, toggle) ∈ toggles) : value.truthy = true := by
  have key : row.key ∈ toggles.map Prod.fst := List.mem_map_of_mem (f := Prod.fst) boolean
  simp only [rows, List.mem_cons, List.not_mem_nil, or_false] at listed
  rcases listed with rfl | rfl | rfl | rfl | rfl | rfl | rfl | rfl | rfl | rfl | rfl | rfl | rfl |
    rfl | rfl | rfl | rfl | rfl | rfl | rfl | rfl | rfl
  · exact absurd key (show "bind_port" ∉ toggles.map Prod.fst by decide)
  · exact absurd key (show "conns_globally" ∉ toggles.map Prod.fst by decide)
  · exact truthy_flagText _ value read
  · exact absurd key (show "download_directories" ∉ toggles.map Prod.fst by decide)
  · exact truthy_flagText _ value read
  · exact absurd key (show "max_dl_rate" ∉ toggles.map Prod.fst by decide)
  · exact absurd key (show "max_ul_rate" ∉ toggles.map Prod.fst by decide)
  · exact truthy_flagText _ value read
  · exact truthy_flagText _ value read
  · exact absurd key (show "save_path" ∉ toggles.map Prod.fst by decide)
  · exact truthy_get site daemon _ _ _ value (by decide) read present
  · exact truthy_get site daemon _ _ _ value (by decide) read present
  · exact truthy_get site daemon _ _ _ value (by decide) read present
  · exact absurd key (show "webui.cookie" ∉ toggles.map Prod.fst by decide)
  · exact truthy_flagText _ value read
  · exact truthy_flagText _ value read
  · exact truthy_get site daemon _ _ _ value (by decide) read present
  · exact absurd key (show "net.max_halfopen" ∉ toggles.map Prod.fst by decide)
  · exact absurd key (show "bt.active_downloads" ∉ toggles.map Prod.fst by decide)
  · exact absurd key (show "bt.active_seeds" ∉ toggles.map Prod.fst by decide)
  · exact absurd key (show "bt.active_limit" ∉ toggles.map Prod.fst by decide)
  · exact truthy_get site daemon _ _ _ value (by decide) read present

/-- What `mapM` makes of a list, item by item. -/
theorem map_of_mapM {α β : Type} (convert : α → Option β) (items : List α) (converted : List β)
    (done : items.mapM convert = some converted) : items.map convert = converted.map some := by
  induction items generalizing converted with
  | nil =>
    obtain rfl := Option.some.inj done
    rfl
  | cons first rest ih =>
    simp only [List.mapM_cons, Option.bind_eq_bind, Option.bind_eq_some_iff, Option.pure_def,
      Option.some.injEq] at done
    obtain ⟨own, here, others, later, rfl⟩ := done
    rw [List.map_cons, List.map_cons, here, ih others later]

/-- The answer lists the rows with their values. -/
theorem mem_answer (answer : List (Row Value)) (read : getSettings site daemon = some answer)
    (row : Row Value) (listed : row ∈ answer) :
    ∃ source ∈ rows site daemon, source.key = row.key ∧ source.value = some row.value := by
  have answered : some row ∈ (rows site daemon).map Row.answered := by
    rw [map_of_mapM Row.answered _ answer read]
    exact List.mem_map_of_mem listed
  obtain ⟨source, inside, same⟩ := List.mem_map.mp answered
  obtain ⟨value, own, rfl⟩ := Option.map_eq_some_iff.mp same
  exact ⟨source, inside, rfl, own⟩

/-- Every row of an answered request could be read. -/
theorem readable_rows (answer : List (Row Value)) (read : getSettings site daemon = some answer)
    (source : Row (Option Value)) (listed : source ∈ rows site daemon) :
    ∃ value, source.value = some value := by
  have answered : source.answered ∈ answer.map some := by
    rw [← map_of_mapM Row.answered _ answer read]
    exact List.mem_map_of_mem listed
  obtain ⟨row, _, same⟩ := List.mem_map.mp answered
  obtain ⟨value, found, _⟩ := Option.map_eq_some_iff.mp same.symm
  exact ⟨value, found⟩

/-- A configuration whose settings could be read has a readable section. -/
theorem readable_of_answer (answer : List (Row Value))
    (read : getSettings site daemon = some answer) : Readable daemon.config := by
  have listed : get site daemon Service.lsd.key "lsd" .boolean "false" ∈ rows site daemon := by
    simp [rows]
  obtain ⟨value, shown⟩ := readable_rows site daemon answer read _ listed
  obtain ⟨enabled, found, _⟩ := Option.bind_eq_some_iff.mp shown
  rw [Service.key, findKey_cons] at found
  obtain ⟨node, member, below⟩ := Option.bind_eq_some_iff.mp found
  refine ⟨node, member, ?_⟩
  rintro rfl
  cases below

end Rows

/-- Writing rows back leaves the booleans as they were exactly when those that
are written are on already. An option behind one that throws is not written. -/
theorem unchanged_writeBack_iff (site : Site) (tree : PropertyTree) (defaults : SessionSettings)
    (daemon : Daemon) (answer chosen : List (Row Value))
    (read : getSettings site daemon = some answer) (subset : ∀ row ∈ chosen, row ∈ answer)
    (nodup : (chosen.map Row.key).Nodup) (present : ∀ row ∈ chosen, row.value ≠ .undefined) :
    Unchanged tree defaults daemon
        (setSettings site.conversions daemon (writeBack chosen)).1 ↔
      ∀ option ∈ (writeBack chosen).takeWhile (accepted site.conversions daemon.config), ∀ toggle,
        (option.1, toggle) ∈ toggles → AlreadyOn tree defaults daemon toggle := by
  have keys : (writeBack chosen).map Prod.fst = chosen.map Row.key := by
    simp [writeBack, Function.comp_def]
  refine unchanged_iff tree site.conversions defaults (writeBack chosen) (keys ▸ nodup) ?_ daemon
    (readable_of_answer site daemon answer read)
  intro option member toggle boolean
  obtain ⟨row, inside, rfl⟩ := List.mem_map.mp member
  obtain ⟨source, listed, key, value⟩ := mem_answer site daemon answer read row (subset row inside)
  exact truthy_of_row site daemon source listed row.value value (present row inside) toggle
    (by rw [key]; exact boolean)

/-- The answer of a daemon without configuration. -/
theorem answer_quiet : ∃ answer, getSettings plainSite quietDaemon = some answer ∧
    answer[2]? = some ⟨"dht", .boolean, .string "false", .string "Y"⟩ ∧
    answer[16]? = some ⟨"net.enable_utp", .boolean, .string "true",
      .object [("access", .string "Y")]⟩ :=
  ⟨_, rfl, rfl, rfl⟩

/-- uTP is on without configuration, and stays on. -/
theorem utp_row_unchanged :
    Unchanged SettingsRestart.strictTree SettingsRestart.ones quietDaemon
      (setSettings plainSite.conversions quietDaemon
        (writeBack [⟨"net.enable_utp", .boolean, .string "true",
          .object [("access", .string "Y")]⟩])).1 := by
  obtain ⟨answer, read, _, utp⟩ := answer_quiet
  refine (unchanged_writeBack_iff plainSite SettingsRestart.strictTree SettingsRestart.ones
    quietDaemon answer _ read ?_ (by decide) ?_).mpr ?_
  · simpa using List.mem_of_getElem? utp
  · simp
  · intro option member toggle boolean
    obtain rfl := List.mem_singleton.mp ((List.takeWhile_sublist _).mem member)
    obtain rfl : toggle = .utp := by simpa [toggles] using boolean
    exact fun _ => rfl

/-- The DHT is not running; writing its row back starts it. -/
theorem dht_row_starts : ∃ answer, getSettings plainSite quietDaemon = some answer ∧
    ⟨"dht", .boolean, .string "false", .string "Y"⟩ ∈ answer ∧
    ¬ Unchanged SettingsRestart.strictTree SettingsRestart.ones quietDaemon
      (setSettings plainSite.conversions quietDaemon
        (writeBack [⟨"dht", .boolean, .string "false", .string "Y"⟩])).1 := by
  obtain ⟨answer, read, dht, _⟩ := answer_quiet
  refine ⟨answer, read, List.mem_of_getElem? dht, fun unchanged => ?_⟩
  have service := (unchanged ("dht", .service .dht) (by decide)).1
  cases service

end Hadouken.SettingsWriteBack
