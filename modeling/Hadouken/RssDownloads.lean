import Hadouken.Rss

/-!
# What the feeds download

The filters are related to what their settings are documented to let through.
With that, and with the histories the feeds start from, the items downloaded in
a run are those the configuration asks for, each of them once. A feed under the name
of a property that every object inherits downloads nothing.
-/

namespace Hadouken.RssDownloads

open Script ValueStack LoadTorrents Admission Rss

/-- The text matches the regular expression. -/
def Matches (regExp : Value → Option (String → Bool)) (title : String) (pattern : Value) : Prop :=
  ∃ test, regExp pattern = some test ∧ test title = true

/-- The titles a filter is documented to let through: all of them, or those that
match the first regular expression and not the second, if that is given. -/
inductive Passes (regExp : Value → Option (String → Bool)) (title : String) : Value → Prop
  | catchAll : Passes regExp title (.string "*")
  | regex {patterns : List Value} {named : Members}
      (included : Matches regExp title (patterns[0]?.getD .undefined))
      (kept : patterns[1]?.getD .undefined ≠ .undefined →
        ¬ Matches regExp title (patterns[1]?.getD .undefined)) :
      Passes regExp title (.array (.string "regex" :: patterns) named)

/-- The URL of an entry, which is a string. -/
def urlOf (entry : Value) : Option String :=
  match entry.member "url" with
  | some (.string url) => some (cString url)
  | _ => none

/-- The `options` of an entry. -/
def optionsOf (entry : Value) : Value := (setting entry "options").orElse (.object [])

/-- An entry that configures a feed: its URL is a string, its poll rate a number
if it is given, its regular expressions compile, and its save path is a string if
it is given. -/
structure Usable (setup : Setup) (entry : Value) : Prop where
  url : (urlOf entry).isSome = true
  ttl : ∃ minutes, (setting entry "ttl").orElse (.integer 30) = .number minutes
  filter : (makeFilter setup.regExp (setting entry "filter")).isSome = true
  savePath : (setting (optionsOf entry) "savePath").truthy = true →
    ∃ path, setting (optionsOf entry) "savePath" = .string path

/-- An item is to be downloaded: it is new to the first feed
of the URL, that feed is no dry run, and an update carried the item under a title
that passes. -/
def Wanted (setup : Setup) (persisted : Persisted) (entries : List Value) (alerts : List Alert)
    (url uuid : String) : Prop :=
  ∃ entry, (entries.find? fun entry => decide (urlOf entry = some url)) = some entry ∧
    uuid ∉ historyOf persisted url ∧
    (setting (optionsOf entry) "dryRun").truthy = false ∧
    ∃ alert ∈ alerts, alert.state = .updated ∧ alert.url = url ∧
      ∃ item ∈ alert.items, item.uuid = uuid ∧
        Passes setup.regExp item.title (setting entry "filter")

/-- The filter of two regular expressions, the second one optional. -/
theorem regExpFilter_isMatch_iff (regExp : Value → Option (String → Bool))
    (included excluded : Value) (filter : Filter)
    (made : regExpFilter regExp included excluded = some filter) (title : String) :
    filter.isMatch title = true ↔ Matches regExp title included ∧
      (excluded ≠ .undefined → ¬ Matches regExp title excluded) := by
  obtain ⟨includes, compiled, made⟩ := Option.bind_eq_some_iff.mp made
  have first : Matches regExp title included ↔ includes title = true := by
    simp [Matches, compiled]
  by_cases absent : excluded = .undefined
  · subst absent
    obtain rfl := Option.some.inj made
    simp [Filter.isMatch, first]
  · have other : (do return Filter.regExp includes (some (← regExp excluded))) = some filter := by
      cases excluded <;> first | exact absurd rfl absent | exact made
    obtain ⟨excludes, excludedCompiled, same⟩ := Option.bind_eq_some_iff.mp other
    obtain rfl := Option.some.inj same
    have second : Matches regExp title excluded ↔ excludes title = true := by
      simp [Matches, excludedCompiled]
    simp [Filter.isMatch, first, second, absent]

/-- The three filters that can be made of a setting. -/
theorem makeFilter_cases (regExp : Value → Option (String → Bool)) (configured : Value)
    (filter : Filter) (made : makeFilter regExp configured = some filter) :
    (configured = .string "*" ∧ filter = .catchAll) ∨
    (∃ patterns named, configured = .array (.string "regex" :: patterns) named ∧
      regExpFilter regExp (patterns[0]?.getD .undefined) (patterns[1]?.getD .undefined) =
        some filter) ∨
    (filter = .plain ∧ configured ≠ .string "*" ∧
      ∀ patterns named, configured ≠ .array (.string "regex" :: patterns) named) := by
  unfold makeFilter at made
  split at made
  · rename_i text
    by_cases star : text = "*"
    · rw [if_pos star] at made
      exact .inl ⟨by rw [star], (Option.some.inj made).symm⟩
    · rw [if_neg star] at made
      exact .inr (.inr ⟨(Option.some.inj made).symm, by simpa using star, by simp⟩)
  · rename_i kind patterns named
    by_cases regex : kind = "regex"
    · rw [if_pos regex] at made
      exact .inr (.inl ⟨patterns, named, by rw [regex], made⟩)
    · rw [if_neg regex] at made
      exact .inr (.inr ⟨(Option.some.inj made).symm, by simp, by simp [regex]⟩)
  · rename_i noText noArray
    exact .inr (.inr ⟨(Option.some.inj made).symm, noText _, fun _ _ => noArray _ _ _⟩)

/-- The filter that was made lets through what its setting is documented to. -/
theorem isMatch_iff_passes (regExp : Value → Option (String → Bool)) (configured : Value)
    (filter : Filter) (made : makeFilter regExp configured = some filter) (title : String) :
    filter.isMatch title = true ↔ Passes regExp title configured := by
  rcases makeFilter_cases regExp configured filter made with
    ⟨rfl, rfl⟩ | ⟨patterns, named, rfl, compiled⟩ | ⟨rfl, noStar, noRegex⟩
  · exact iff_of_true rfl .catchAll
  · rw [regExpFilter_isMatch_iff regExp _ _ filter compiled title]
    constructor
    · rintro ⟨included, kept⟩
      exact .regex included kept
    · rintro (_ | ⟨included, kept⟩)
      exact ⟨included, kept⟩
  · refine iff_of_false (by simp [Filter.isMatch]) ?_
    rintro (_ | _)
    · exact noStar rfl
    · exact noRegex _ _ rfl

/-- What an entry configures. -/
theorem configure_eq_some (setup : Setup) (entry : Value) (configured : Configured)
    (made : configure setup entry = some configured) :
    urlOf entry = some configured.url ∧
      makeFilter setup.regExp (setting entry "filter") = some configured.filter ∧
      configured.options = optionsOf entry := by
  rw [configure] at made
  split at made
  · rename_i url _ read _
    obtain ⟨filter, compiled, same⟩ := Option.bind_eq_some_iff.mp made
    obtain rfl := Option.some.inj same
    exact ⟨by simp [urlOf, read], compiled, rfl⟩
  · cases made

/-- A usable entry configures a feed. -/
theorem configure_isSome (setup : Setup) (entry : Value) (usable : Usable setup entry) :
    ∃ configured, configure setup entry = some configured := by
  obtain ⟨minutes, ttl⟩ := usable.ttl
  obtain ⟨filter, compiled⟩ := Option.isSome_iff_exists.mp usable.filter
  have named := usable.url
  rw [urlOf] at named
  split at named
  · rename_i url read
    exact ⟨_, by simp only [configure, read, ttl, compiled]; rfl⟩
  · cases named

/-- An entry whose save path is accepted makes a feed that downloads, unless it
is a dry run. -/
theorem enabled_iff (setup : Setup) (entry : Value) (configured : Configured)
    (usable : Usable setup entry) (made : configure setup entry = some configured) :
    Enabled setup configured ↔ (setting (optionsOf entry) "dryRun").truthy = false := by
  obtain ⟨_, _, options⟩ := configure_eq_some setup entry configured made
  have accepted : (download setup configured.options).isSome = true := by
    rw [download, Option.isSome_map, overrideSavePath_isSome_iff, options]
    exact usable.savePath
  rw [Enabled, options]
  exact and_iff_left (options ▸ accepted)

/-- Where every entry can be used, the first feed of a URL is the one the first
entry with that URL configures. -/
theorem find_configurations_iff (setup : Setup) (entries : List Value)
    (usable : ∀ entry ∈ entries, Usable setup entry) (url : String) (settings : Configured) :
    ((configurations setup entries).find? fun settings => decide (settings.url = url)) =
        some settings ↔
      ∃ entry, (entries.find? fun entry => decide (urlOf entry = some url)) = some entry ∧
        configure setup entry = some settings := by
  induction entries with
  | nil => simp [configurations]
  | cons entry rest ih =>
    obtain ⟨configured, made⟩ := configure_isSome setup entry (usable entry List.mem_cons_self)
    have named := (configure_eq_some setup entry configured made).1
    have later := ih fun other inside => usable other (List.mem_cons_of_mem entry inside)
    simp only [configurations, made]
    by_cases same : configured.url = url
    · rw [List.find?_cons_of_pos (by simpa using same),
        List.find?_cons_of_pos (by simp [named, same])]
      simp [made]
    · rw [List.find?_cons_of_neg (by simpa using same),
        List.find?_cons_of_neg (by simp [named, same])]
      exact later

section Run

variable (setup : Setup) (persisted : Persisted) (entries : List Value) (alerts : List Alert)
  (url : String)

/-- What the first entry's feed takes is what is wanted. -/
theorem mem_taken_iff_wanted (entry : Value) (configured : Configured) (uuid : String)
    (first : (entries.find? fun entry => decide (urlOf entry = some url)) = some entry)
    (made : configure setup entry = some configured)
    (live : (setting (optionsOf entry) "dryRun").truthy = false) :
    uuid ∈ (taken configured (historyOf persisted url) (offered url alerts)).map Item.uuid ↔
      Wanted setup persisted entries alerts url uuid := by
  have passes := isMatch_iff_passes setup.regExp (setting entry "filter") configured.filter
    (configure_eq_some setup entry configured made).2.1
  rw [mem_taken_iff]
  constructor
  · rintro ⟨fresh, item, carried, same, matched⟩
    obtain ⟨alert, sent, updated, own, member⟩ := (mem_offered_iff url alerts item).mp carried
    exact ⟨entry, first, fresh, live, alert, sent, updated, own, item, member, same,
      (passes item.title).mp matched⟩
  · rintro ⟨other, second, fresh, _, alert, sent, updated, own, item, member, same, passed⟩
    obtain rfl := Option.some.inj (second.symm.trans first)
    exact ⟨fresh, item, (mem_offered_iff url alerts item).mpr ⟨alert, sent, updated, own, member⟩,
      same, (passes item.title).mpr passed⟩

/-- The first feed of a URL can download when it comes from the first entry with the
URL, that entry asks for no dry run, and nothing inherited stands for the history. -/
theorem able_feed_iff (usable : ∀ entry ∈ entries, Usable setup entry)
    (configured : Configured) :
    (∃ feed, find url (load setup persisted entries).feeds = some feed ∧
        feed.toConfigured = configured ∧ Able setup feed) ↔
      inheritedIn persisted url = false ∧
      ∃ entry, (entries.find? fun entry => decide (urlOf entry = some url)) = some entry ∧
        configure setup entry = some configured ∧
        (setting (optionsOf entry) "dryRun").truthy = false := by
  have loaded := load_loaded setup persisted entries
  have firstFeed := (loaded.find_iff url configured).trans
    (find_configurations_iff setup entries usable url configured)
  constructor
  · rintro ⟨feed, found, same, enabled, array⟩
    obtain ⟨entry, first, made⟩ := firstFeed.mp ⟨feed, found, same⟩
    obtain ⟨inside, named⟩ := url_of_find url _ feed found
    rw [loaded.inherited feed inside, named] at array
    have live := (enabled_iff setup entry configured
      (usable entry (List.mem_of_find?_eq_some first)) made).mp (same ▸ enabled)
    exact ⟨array, entry, first, made, live⟩
  · rintro ⟨array, entry, first, made, live⟩
    obtain ⟨feed, found, same⟩ := firstFeed.mpr ⟨entry, first, made⟩
    obtain ⟨inside, named⟩ := url_of_find url _ feed found
    have enabled := (enabled_iff setup entry configured
      (usable entry (List.mem_of_find?_eq_some first)) made).mpr live
    refine ⟨feed, found, same, same ▸ enabled, ?_⟩
    rw [loaded.inherited feed inside, named, array]

end Run

/-- Each item of a feed URL is downloaded at most once, and it is downloaded exactly
when it is wanted. Alerts of feeds that are not updated change nothing. -/
def ExactlyOnce (setup : Setup) (persisted : Persisted) (entries : List Value)
    (alerts : List Alert) : Prop :=
  (∀ url, (downloaded url (receive setup alerts (load setup persisted entries))).Nodup ∧
    ∀ uuid, uuid ∈ downloaded url (receive setup alerts (load setup persisted entries)) ↔
      Wanted setup persisted entries alerts url uuid) ∧
  ∀ state alert, alert.state ≠ .updated → onRss setup state alert = state

/-- Where a property that every object inherits stands for the history of a URL, the
first entry with the URL asks for a dry run, or no update of the URL carries an item
under a title that passes. -/
def Unoffered (setup : Setup) (persisted : Persisted) (entries : List Value)
    (alerts : List Alert) : Prop :=
  ∀ url, inheritedIn persisted url = true → ∀ entry,
    (entries.find? fun entry => decide (urlOf entry = some url)) = some entry →
    (setting (optionsOf entry) "dryRun").truthy = false →
    ∀ alert ∈ alerts, alert.state = .updated → alert.url = url →
      ∀ item ∈ alert.items, ¬ Passes setup.regExp item.title (setting entry "filter")

section Run

variable (setup : Setup) (persisted : Persisted) (entries : List Value) (alerts : List Alert)
  (url : String)

/-- Under an inherited property all that passes is wanted: there is no history. -/
theorem not_wanted_iff (inherited : inheritedIn persisted url = true) :
    (∀ uuid, ¬ Wanted setup persisted entries alerts url uuid) ↔
      ∀ entry, (entries.find? fun entry => decide (urlOf entry = some url)) = some entry →
        (setting (optionsOf entry) "dryRun").truthy = false →
        ∀ alert ∈ alerts, alert.state = .updated → alert.url = url →
          ∀ item ∈ alert.items, ¬ Passes setup.regExp item.title (setting entry "filter") := by
  have fresh : historyOf persisted url = [] := by
    rw [inheritedIn, Bool.and_eq_true, Option.isNone_iff_eq_none] at inherited
    rw [historyOf, inherited.1]
    rfl
  constructor
  · intro unwanted entry first live alert sent updated own item member passed
    exact unwanted item.uuid ⟨entry, first, by rw [fresh]; exact List.not_mem_nil, live, alert,
      sent, updated, own, item, member, rfl, passed⟩
  · rintro unoffered uuid ⟨entry, first, _, live, alert, sent, updated, own, item, member, _, passed⟩
    exact unoffered entry first live alert sent updated own item member passed

/-- Where nothing inherited stands for the history, what is wanted is downloaded, and
once. -/
theorem downloaded_iff_wanted (usable : ∀ entry ∈ entries, Usable setup entry)
    (array : inheritedIn persisted url = false) :
    (downloaded url (receive setup alerts (load setup persisted entries))).Nodup ∧
      ∀ uuid, uuid ∈ downloaded url (receive setup alerts (load setup persisted entries)) ↔
        Wanted setup persisted entries alerts url uuid := by
  have loaded := load_loaded setup persisted entries
  have feedIff := able_feed_iff setup persisted entries url usable
  by_cases able : ∃ feed, find url (load setup persisted entries).feeds = some feed ∧
      Able setup feed
  · obtain ⟨feed, found, able⟩ := able
    obtain ⟨_, entry, first, made, live⟩ := (feedIff _).mp ⟨feed, found, rfl, able⟩
    rw [(downloaded_of_able setup alerts url feed loaded found able).1]
    exact ⟨nodup_taken _ _ _, fun uuid => mem_taken_iff_wanted setup persisted entries alerts url
      entry _ uuid first made live⟩
  · have none : downloaded url (receive setup alerts (load setup persisted entries)) = [] :=
      List.eq_nil_iff_forall_not_mem.mpr fun uuid arrived =>
        able (able_of_downloaded setup alerts url uuid loaded arrived)
    rw [none]
    refine ⟨List.nodup_nil, fun uuid => iff_of_false List.not_mem_nil ?_⟩
    rintro ⟨entry, first, _, live, _⟩
    obtain ⟨configured, made⟩ :=
      configure_isSome setup entry (usable entry (List.mem_of_find?_eq_some first))
    obtain ⟨feed, found, rfl, ready⟩ :=
      (feedIff configured).mpr ⟨array, entry, first, made, live⟩
    exact able ⟨feed, found, ready⟩

/-- Under an inherited property nothing is downloaded. -/
theorem downloaded_inherited (inherited : inheritedIn persisted url = true) :
    downloaded url (receive setup alerts (load setup persisted entries)) = [] := by
  have loaded := load_loaded setup persisted entries
  refine List.eq_nil_iff_forall_not_mem.mpr fun uuid arrived => ?_
  obtain ⟨feed, found, _, array⟩ := able_of_downloaded setup alerts url uuid loaded arrived
  obtain ⟨inside, named⟩ := url_of_find url _ feed found
  rw [loaded.inherited feed inside, named, inherited] at array
  cases array

end Run

/-- For every list of entries, every loaded state and any alerts, each item of a
feed URL is downloaded at most once and exactly when it is wanted, if and only if no
item is offered where an inherited property stands for the history. -/
theorem exactlyOnce_iff_unoffered (setup : Setup) (persisted : Persisted) (entries : List Value)
    (alerts : List Alert) (usable : ∀ entry ∈ entries, Usable setup entry) :
    ExactlyOnce setup persisted entries alerts ↔ Unoffered setup persisted entries alerts := by
  constructor
  · rintro ⟨each, _⟩ url inherited
    refine (not_wanted_iff setup persisted entries alerts url inherited).mp fun uuid wanted => ?_
    have arrived := ((each url).2 uuid).mpr wanted
    rw [downloaded_inherited setup persisted entries alerts url inherited] at arrived
    cases arrived
  · intro unoffered
    refine ⟨fun url => ?_, onRss_of_not_updated setup⟩
    cases inherited : inheritedIn persisted url with
    | false => exact downloaded_iff_wanted setup persisted entries alerts url usable inherited
    | true =>
      rw [downloaded_inherited setup persisted entries alerts url inherited]
      have unwanted := (not_wanted_iff setup persisted entries alerts url inherited).mpr
        (unoffered url inherited)
      exact ⟨List.nodup_nil, fun uuid => iff_of_false List.not_mem_nil (unwanted uuid)⟩

/-- Regular expressions that are compared as texts, and default parameters. -/
def plainSetup : Setup where
  regExp
    | .string pattern => some fun title => decide (title = pattern)
    | _ => none
  defaults := ⟨0, none, false⟩

/-- The feed of the documentation, which downloads all items. -/
def someFeed : Value :=
  .object [("url", .string "http://some-rss.net/feed"), ("filter", .string "*")]

/-- The feed is usable. -/
theorem usable_someFeed : ∀ entry ∈ [someFeed], Usable plainSetup entry := by
  intro entry member
  obtain rfl := List.mem_singleton.mp member
  exact ⟨by decide, ⟨.finite 30, rfl⟩, by decide, fun given => absurd given (by decide)⟩

/-- An update that carries an item twice. -/
def repeatedItem : Alert :=
  ⟨.updated, "http://some-rss.net/feed", [⟨"u", "1", "a"⟩, ⟨"u", "1", "b"⟩]⟩

/-- The item is downloaded once. -/
theorem repeated_item_downloaded : ExactlyOnce plainSetup [] [someFeed] [repeatedItem] := by
  refine (exactlyOnce_iff_unoffered plainSetup [] [someFeed] [repeatedItem] usable_someFeed).mpr ?_
  intro url inherited entry first _ alert sent _ own
  obtain rfl := List.mem_singleton.mp sent
  obtain rfl : "http://some-rss.net/feed" = url := own
  exact absurd inherited (by decide)

/-- A feed under the name of a function that every object has. -/
def functionFeed : Value := .object [("url", .string "toString"), ("filter", .string "*")]

/-- The function stands for its history, and nothing is downloaded. -/
theorem function_name_downloads_nothing :
    (∀ entry ∈ [functionFeed], Usable plainSetup entry) ∧
      Wanted plainSetup [] [functionFeed] [⟨.updated, "toString", [⟨"u", "1", "a"⟩]⟩]
        "toString" "1" ∧
      downloaded "toString" (receive plainSetup [⟨.updated, "toString", [⟨"u", "1", "a"⟩]⟩]
        (load plainSetup [] [functionFeed])) = [] ∧
      ¬ ExactlyOnce plainSetup [] [functionFeed] [⟨.updated, "toString", [⟨"u", "1", "a"⟩]⟩] := by
  have wanted : Wanted plainSetup [] [functionFeed] [⟨.updated, "toString", [⟨"u", "1", "a"⟩]⟩]
      "toString" "1" :=
    ⟨functionFeed, List.find?_cons_of_pos (by decide), by decide, by decide, _,
      List.mem_cons_self, rfl, rfl, _, List.mem_cons_self, rfl, .catchAll⟩
  have nothing := downloaded_inherited plainSetup [] [functionFeed]
    [⟨.updated, "toString", [⟨"u", "1", "a"⟩]⟩] "toString" (by decide)
  refine ⟨?_, wanted, nothing, fun once => ?_⟩
  · intro entry member
    obtain rfl := List.mem_singleton.mp member
    exact ⟨by decide, ⟨.finite 30, rfl⟩, by decide, fun given => absurd given (by decide)⟩
  · have arrived := ((once.1 "toString").2 "1").mpr wanted
    rw [nothing] at arrived
    cases arrived

end Hadouken.RssDownloads
