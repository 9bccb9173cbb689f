import Hadouken.ConfigOrder
import Hadouken.WebuiSettings

/-!
# The settings of a call in any order

Every option of `webui.setSettings` writes one key of the configuration and one
part of the session. The keys part from one another, so that options commute, up to
the order of members in the configuration. A call that is made twice leaves what it
leaves the first time, also where one of its options throws.

Which options come before one that throws depends on their order: a value that
cannot be converted, or a configuration that a write does not get through, ends the
call at different points.
-/

namespace Hadouken.WebuiSettings

open Script Config Settings ConfigWrites Batches

/-- The daemons are the same, but for the order of members in the configuration. -/
structure Same (first second : Daemon) : Prop where
  config : Alike first.config second.config
  live : second.live = first.live

/-- A daemon is the same as itself. -/
theorem same_refl (daemon : Daemon) : Same daemon daemon := ⟨.refl _, rfl⟩

/-- What is the same twice is the same. -/
theorem same_trans (first second third : Daemon) (earlier : Same first second)
    (later : Same second third) : Same first third :=
  ⟨earlier.config.trans later.config, later.live.trans earlier.live⟩

/-- A part that is as it was, was as it is. -/
theorem sameAt_symm {first second : Live} {part : Part} (same : SameAt first second part) :
    SameAt second first part := by
  cases part with
  | nothing => trivial
  | _ => exact Eq.symm same

/-- A session is made up of its parts. -/
theorem live_ext {first second : Live} (parts : ∀ part, SameAt first second part) :
    second = first := by
  have port := parts .port
  have settings := funext fun setting => parts (.setting setting)
  have services := funext fun service => parts (.service service)
  obtain ⟨⟨firstPort, firstSettings⟩, firstServices⟩ := first
  obtain ⟨⟨secondPort, secondSettings⟩, secondServices⟩ := second
  simp only [SameAt] at port settings services
  rw [port, settings, services]

/-- The keys of the arms are made of ordinary names. -/
theorem places_named : ∀ place ∈ places, Ordinary place.2.1 := by
  have lettered : ∀ place ∈ places, ∀ part ∈ place.2.1,
      part ≠ "length" ∧ (part.toList.any fun letter => !letter.isDigit) = true := by
    decide
  intro place listed part member
  obtain ⟨noLength, letters⟩ := lettered place listed part member
  exact Value.ordinary_of_lettered noLength letters

section Changes

variable {conversions : Conversions}

/-- The key of a change is made of ordinary names. -/
theorem ordinary_at {place : String × List String × Part} {option : String × Value} {made : Change}
    (own : At place option made) : Ordinary made.path :=
  own.path ▸ places_named place own.listed

/-- Changes of different options are at keys that part and different parts. -/
theorem at_apart {place other : String × List String × Part} {first second : String × Value}
    {madeFirst madeSecond : Change} (own : At place first madeFirst)
    (others : At other second madeSecond) (apart : first.1 ≠ second.1) :
    diverge madeFirst.path madeSecond.path = true ∧
      (other.2.2 ≠ place.2.2 ∨ other.2.2 = .nothing) := by
  have distinct : other.1 ≠ place.1 := by
    rw [own.key, others.key]
    exact Ne.symm apart
  have parted := places_apart place own.listed other others.listed distinct
  rwa [own.path, others.path] at parted

/-- Changes of different options commute on the session. -/
theorem live_comm {place other : String × List String × Part} {first second : String × Value}
    {madeFirst madeSecond : Change} (own : At place first madeFirst)
    (others : At other second madeSecond) (apart : first.1 ≠ second.1) (live : Live) :
    madeSecond.live (madeFirst.live live) = madeFirst.live (madeSecond.live live) := by
  refine live_ext fun part => ?_
  by_cases nothing : part = .nothing
  · rw [nothing]
    trivial
  have different : place.2.2 ≠ part ∨ other.2.2 ≠ part := by
    by_contra both
    rw [not_or, not_not, not_not] at both
    rcases (at_apart own others apart).2 with distinct | still
    · exact distinct (both.2.trans both.1.symm)
    · exact nothing (both.2.symm.trans still)
  by_cases here : part = place.2.2
  · subst here
    have elsewhere := different.resolve_left (fun absent => absent rfl)
    exact sameAt_trans _ _ _ _ (others.others (madeFirst.live live) place.2.2 (Ne.symm elsewhere))
      (own.own (madeSecond.live live) live)
  · have first := own.others (madeSecond.live live) part here
    by_cases there : part = other.2.2
    · subst there
      exact sameAt_trans _ _ _ _ (others.own live (madeFirst.live live)) (sameAt_symm first)
    · have second := others.others live part there
      exact sameAt_trans _ _ _ _
        (others.others (madeFirst.live live) part there)
        (sameAt_trans _ _ _ _ (own.others live part here)
          (sameAt_symm (sameAt_trans _ _ _ _ first second)))

/-- A change made again changes nothing more. -/
theorem live_again {place : String × List String × Part} {option : String × Value} {made : Change}
    (own : At place option made) (live : Live) : made.live (made.live live) = made.live live := by
  refine live_ext fun part => ?_
  by_cases here : part = place.2.2
  · subst here
    exact own.own live (made.live live)
  · exact own.others (made.live live) part here

end Changes

section Order

variable (conversions : Conversions)

/-- A call is the batch of its options. -/
theorem setSettings_eq_each (daemon : Daemon) (options : Members) :
    setSettings conversions daemon options = each (set conversions) options daemon := by
  induction options generalizing daemon with
  | nil => rfl
  | cons option rest ih =>
    rw [setSettings, each]
    cases set conversions daemon option with
    | none => rfl
    | some next => exact ih next

/-- What an option does, whatever the daemon is: it throws, or does nothing, or
makes its change. -/
theorem set_cases (option : String × Value) :
    (∀ daemon, set conversions daemon option = none) ∨
      (∀ daemon, set conversions daemon option = some daemon) ∨
      ∃ made place, At place option made ∧
        ∀ daemon, set conversions daemon option = Change.apply daemon (some made) := by
  have unfolded := fun daemon => set_eq conversions daemon option
  cases changes : change conversions option with
  | none => exact .inl fun daemon => by rw [unfolded, changes]; rfl
  | some made =>
    cases made with
    | none => exact .inr (.inl fun daemon => by rw [unfolded, changes]; rfl)
    | some made =>
      obtain ⟨place, own⟩ := change_at conversions option made changes
      exact .inr (.inr ⟨made, place, own, fun daemon => by rw [unfolded, changes]; rfl⟩)

/-- Each option makes its change. -/
theorem set_making :
    set conversions =
      making (change conversions) fun daemon made => Change.apply daemon (some made) := by
  funext daemon option
  rw [set_eq, making]
  congr 1
  funext made
  cases made <;> rfl

/-- A change does the same to daemons that are the same. -/
theorem apply_congr (first second : Daemon) (same : Same first second) (option : String × Value)
    (made : Change) (changes : change conversions option = some (some made)) :
    Option.Rel Same (Change.apply first (some made)) (Change.apply second (some made)) := by
  obtain ⟨place, own⟩ := change_at conversions option made changes
  refine rel_map (setKey_congr made.path (ordinary_at own) made.value _ _ same.config)
    fun config other alike => ⟨alike, ?_⟩
  rw [same.live]

/-- An option does the same to daemons that are the same. -/
theorem set_congr (first second : Daemon) (same : Same first second) (option : String × Value) :
    Option.Rel Same (set conversions first option) (set conversions second option) := by
  rw [set_making]
  exact making_congr (apply_congr conversions) first second same option

/-- Two changes one after the other. -/
theorem apply_apply (daemon : Daemon) (first second : Change) :
    ((Change.apply daemon (some first)).bind fun next => Change.apply next (some second)) =
      ((setKey daemon.config first.path first.value).bind fun config =>
        setKey config second.path second.value).map fun config =>
          ⟨config, second.live (first.live daemon.live)⟩ := by
  simp only [Change.apply]
  cases setKey daemon.config first.path first.value <;> rfl

/-- Different options commute. -/
theorem set_comm (daemon : Daemon) (first second : String × Value) (apart : first.1 ≠ second.1) :
    Option.Rel Same
      ((set conversions daemon first).bind fun next => set conversions next second)
      ((set conversions daemon second).bind fun next => set conversions next first) := by
  rw [set_making]
  refine making_comm (apply_congr conversions) daemon (same_refl daemon) first second
    fun made other changes otherChanges => ?_
  obtain ⟨place, own⟩ := change_at conversions first made changes
  obtain ⟨otherPlace, others⟩ := change_at conversions second other otherChanges
  rw [apply_apply, apply_apply]
  refine rel_map (setKey_comm made.path other.path daemon.config made.value other.value
    (at_apart own others apart).1 (ordinary_at own) (ordinary_at others))
    fun config another alike => ⟨alike, ?_⟩
  exact (live_comm own others apart daemon.live).symm

/-- An option that was set is settled. -/
theorem set_settles (daemon : Daemon) (option : String × Value) (next : Daemon)
    (done : set conversions daemon option = some next) :
    Settled (set conversions) next option := by
  rcases set_cases conversions option with throws | idle | ⟨made, place, own, makes⟩
  · rw [throws] at done
    cases done
  · exact idle next
  · rw [makes] at done
    obtain ⟨config, written, rfl⟩ := Option.map_eq_some_iff.mp done
    rw [Settled, makes, Change.apply, setKey_again made.path (ordinary_at own) written,
      Option.map_some, live_again own]

/-- It stays so when other options are set. -/
theorem settled_kept (daemon : Daemon) (option other : String × Value) (next : Daemon)
    (apart : option.1 ≠ other.1) (settled : Settled (set conversions) daemon option)
    (done : set conversions daemon other = some next) : Settled (set conversions) next option := by
  rcases set_cases conversions option with throws | idle | ⟨made, place, own, makes⟩
  · rw [Settled, throws] at settled
    cases settled
  · exact idle next
  · rcases set_cases conversions other with throws | idle | ⟨another, otherPlace, others, otherMakes⟩
    · rw [throws] at done
      cases done
    · rw [idle] at done
      obtain rfl := Option.some.inj done
      exact settled
    · rw [otherMakes] at done
      rw [Settled, makes] at settled
      obtain ⟨config, written, rfl⟩ := Option.map_eq_some_iff.mp done
      obtain ⟨still, unchanged, same⟩ := Option.map_eq_some_iff.mp settled
      have sameConfig := congrArg Daemon.config same
      have sameLive := congrArg Daemon.live same
      simp only at sameConfig sameLive
      rw [sameConfig] at unchanged
      rw [Settled, makes, Change.apply,
        setKey_kept made.path another.path another.value (at_apart own others apart).1
          (ordinary_at own) (ordinary_at others) unchanged written,
        Option.map_some, ← live_comm own others apart, sameLive]

/-- A call returns for one order of the options exactly when it returns for every
other, and then leaves the same daemon but for the order of members in the
configuration. In any case, a call made twice leaves what it leaves the first time,
and the keys of other options are left alone. -/
theorem setSettings_unordered (daemon : Daemon) (options others : Members)
    (distinct : (options.map Prod.fst).Nodup) (reordered : options.Perm others) :
    Agree Same (setSettings conversions daemon options) (setSettings conversions daemon others) ∧
      setSettings conversions (setSettings conversions daemon options).1 options =
        setSettings conversions daemon options ∧
      ∀ place ∈ places, place.1 ∉ options.map Prod.fst →
        Framed daemon.config (setSettings conversions daemon options).1.config place.2.1 ∧
          SameAt daemon.live (setSettings conversions daemon options).1.live place.2.2 := by
  have apart : options.Pairwise fun first second => first.1 ≠ second.1 :=
    List.pairwise_map.mp distinct
  refine ⟨?_, ?_, fun place listed other =>
    untouched_setSettings conversions options daemon place listed other⟩
  · rw [setSettings_eq_each, setSettings_eq_each]
    exact each_perm same_trans (set_congr conversions) _ (fun _ _ => Ne.symm)
      (fun state _ first second => set_comm conversions state first second) reordered apart daemon
      (same_refl daemon)
  · simp only [setSettings_eq_each]
    exact each_each _ (set_settles conversions)
      (fun state option other next => settled_kept conversions state option other next) options
      daemon apart

end Order

/-- A daemon whose session has no limits and no services. -/
def unlimited (config : Value) : Daemon where
  config := config
  live := {
    running := {
      port := CInt.clamp 6881
      settings
        | .connectionsLimit | .downloadRateLimit | .uploadRateLimit | .mixedModeAlgorithm
        | .halfOpenLimit | .activeDownloads | .activeSeeds | .activeLimit => CInt.clamp 0
        | .rateLimitIpOverhead | .rateLimitUtp | .allowMultipleConnectionsPerIp | .anonymousMode
        | .dontCountSlowTorrents => false }
    services := fun _ => false }

/-- A service and a limit, in either order. -/
theorem service_and_limit_unordered :
    Agree Same
      (setSettings plainConversions (unlimited (.object []))
        [("dht", .boolean true), ("max_dl_rate", .integer 5)])
      (setSettings plainConversions (unlimited (.object []))
        [("max_dl_rate", .integer 5), ("dht", .boolean true)]) :=
  (setSettings_unordered plainConversions (unlimited (.object []))
    [("dht", .boolean true), ("max_dl_rate", .integer 5)]
    [("max_dl_rate", .integer 5), ("dht", .boolean true)] (by decide) (.swap _ _ [])).1

/-- Where the section of the configuration is a number, starting the service throws
and the limit does not: the limit is lost behind the service. -/
theorem limit_behind_service_lost :
    (setSettings plainConversions (unlimited (.object [("bittorrent", .integer 5)]))
        [("max_dl_rate", .integer 5), ("dht", .boolean true)]).1.live.running.settings
          .downloadRateLimit = CInt.clamp 5 ∧
      (setSettings plainConversions (unlimited (.object [("bittorrent", .integer 5)]))
        [("dht", .boolean true), ("max_dl_rate", .integer 5)]).1.live.running.settings
          .downloadRateLimit = CInt.clamp 0 ∧
      ¬ Same
        (setSettings plainConversions (unlimited (.object [("bittorrent", .integer 5)]))
          [("dht", .boolean true), ("max_dl_rate", .integer 5)]).1
        (setSettings plainConversions (unlimited (.object [("bittorrent", .integer 5)]))
          [("max_dl_rate", .integer 5), ("dht", .boolean true)]).1 := by
  refine ⟨by rfl, by rfl, fun same => ?_⟩
  have limits := congrArg (fun live => live.running.settings .downloadRateLimit) same.live
  exact absurd limits (by decide)

end Hadouken.WebuiSettings
