import Hadouken.RssHistory

/-!
# RSS downloads across restarts

Each run loads the histories that the run before it saved. As long as the URL of
a feed stays in the configuration, once, and the start gets as far as the feeds,
an item is downloaded at most once in all the runs together. The entry may
change from run to run in everything else, its filter included. The URL is not the
name of a property that every object inherits.
-/

namespace Hadouken.RssRestarts

open Script LoadTorrents Rss RssDownloads RssHistory Dispatch

variable {γ : Type}

/-- A run that starts with a state file the program wrote. -/
def startedFrom (run : Run γ) (persisted : Persisted) : Run γ :=
  { run with stateFile := .readable persisted }

/-- What is downloaded for a URL in runs that each load what the one before it
saved. -/
def downloadedAcross (url : String) : Persisted → List (Run γ) → List String
  | _, [] => []
  | persisted, run :: rest =>
      let final := (startedFrom run persisted).final
      downloaded url final ++ downloadedAcross url (saveState final) rest

/-- The entry of the URL that a run's configuration has. -/
def entryOf (run : Run γ) (url : String) : Option Configured :=
  (configurations run.setup run.entries).find? fun configured => decide (configured.url = url)

/-- The start gets as far as the feeds, and one of them has the URL, which names no
inherited property. -/
structure Steady (url : String) (run : Run γ) : Prop where
  ordinary : objectPrototype.lookup url = none
  reached : run.reached = true
  configured : (entryOf run url).isSome = true
  single : Single (configurations run.setup run.entries) url

/-- An item is due in a run: an update carries it under a title that passes. -/
def Due (url uuid : String) (run : Run γ) : Prop :=
  ∃ first, entryOf run url = some first ∧ ∃ item ∈ offered url run.alerts,
    item.uuid = uuid ∧ first.filter.isMatch item.title = true

section OneRun

variable {url : String} {run : Run γ} (steady : Steady url run) (persisted : Persisted)

include steady

/-- The feeds are configured by all the entries. -/
theorem configured_startedFrom :
    (startedFrom run persisted).configured = configurations run.setup run.entries := by
  have reached : (startedFrom run persisted).reached = true := steady.reached
  rw [Run.configured, if_pos ⟨reached, rfl⟩]
  rfl

/-- They are loaded from the state file. -/
theorem loaded_startedFrom :
    Loaded persisted (configurations run.setup run.entries) (startedFrom run persisted).loaded := by
  have reached : (startedFrom run persisted).reached = true := steady.reached
  have start : (startedFrom run persisted).loaded = load run.setup persisted run.entries := by
    rw [Run.loaded, reached]
    rfl
  rw [start]
  exact load_loaded run.setup persisted run.entries

/-- Nothing inherited stands for a history of the URL, and its name can be written. -/
theorem array_startedFrom : inheritedIn persisted url = false ∧ url ≠ "__proto__" := by
  constructor
  · simp [inheritedIn, steady.ordinary]
  · rintro rfl
    have absent := steady.ordinary
    exact absurd absent (by decide)

/-- The feed that has the URL while the program runs has an array for its history. -/
theorem found_startedFrom : ∃ first, entryOf run url = some first.toConfigured ∧
    find url (startedFrom run persisted).loaded.feeds = some first ∧ first.inherited = false := by
  have loaded := loaded_startedFrom steady persisted
  obtain ⟨settings, configured⟩ := Option.isSome_iff_exists.mp steady.configured
  obtain ⟨first, found, rfl⟩ := (loaded.find_iff url settings).mpr configured
  obtain ⟨inside, named⟩ := url_of_find url _ first found
  refine ⟨first, configured, found, ?_⟩
  rw [loaded.inherited first inside, named]
  exact (array_startedFrom steady persisted).1

/-- Nothing known or downloaded is missing from what is saved. -/
theorem saved_startedFrom (uuid : String)
    (known : uuid ∈ historyOf persisted url ∨
      uuid ∈ downloaded url (startedFrom run persisted).final) :
    uuid ∈ historyOf (saveState (startedFrom run persisted).final) url := by
  have configured := configured_startedFrom steady persisted
  have named := (array_startedFrom steady persisted).2
  refine saved_of_covered (startedFrom run persisted) url (fun _ => ⟨named, ?_⟩)
    (fun _ => ⟨named, .inr ?_⟩) uuid known
  · obtain ⟨settings, found⟩ := Option.isSome_iff_exists.mp steady.configured
    rw [configured]
    exact ⟨settings, List.mem_of_find?_eq_some found, by simpa using List.find?_some found⟩
  · rw [configured]
    exact steady.single

/-- A run downloads nothing twice, and nothing that was known before. -/
theorem downloaded_startedFrom :
    (downloaded url (startedFrom run persisted).final).Nodup ∧
      ∀ uuid ∈ downloaded url (startedFrom run persisted).final,
        uuid ∉ historyOf persisted url := by
  obtain ⟨first, -, found, array⟩ := found_startedFrom steady persisted
  have loaded := loaded_startedFrom steady persisted
  by_cases enabled : Enabled run.setup first.toConfigured
  · obtain ⟨all, -⟩ := downloaded_of_able run.setup run.alerts url first loaded found
      ⟨enabled, array⟩
    have whole : downloaded url (startedFrom run persisted).final =
      (taken first.toConfigured (historyOf persisted url) (offered url run.alerts)).map
        Item.uuid := all
    rw [whole]
    exact ⟨nodup_taken _ _ _, fun uuid arrived => ((mem_taken_iff _ _ _ uuid).mp arrived).1⟩
  · have none : downloaded url (startedFrom run persisted).final = [] := by
      refine List.eq_nil_iff_forall_not_mem.mpr fun uuid arrived => ?_
      obtain ⟨other, sought, able⟩ :=
        able_of_downloaded run.setup run.alerts url uuid loaded arrived
      rw [found] at sought
      cases sought
      exact enabled able.1
    rw [none]
    exact ⟨List.nodup_nil, List.forall_mem_nil _⟩

/-- With an enabled feed, a run downloads what is new and due, and saves what was
known and what it downloaded. -/
theorem enabled_startedFrom
    (enabled : ∀ first, entryOf run url = some first → Enabled run.setup first) (uuid : String) :
    (uuid ∈ downloaded url (startedFrom run persisted).final ↔
        uuid ∉ historyOf persisted url ∧ Due url uuid run) ∧
      (uuid ∈ historyOf (saveState (startedFrom run persisted).final) url →
        uuid ∈ historyOf persisted url ∨
          uuid ∈ downloaded url (startedFrom run persisted).final) := by
  obtain ⟨first, configured, found, array⟩ := found_startedFrom steady persisted
  have loaded := loaded_startedFrom steady persisted
  obtain ⟨all, history⟩ := downloaded_of_able run.setup run.alerts url first loaded found
    ⟨enabled first.toConfigured configured, array⟩
  have whole : downloaded url (startedFrom run persisted).final =
    (taken first.toConfigured (historyOf persisted url) (offered url run.alerts)).map
      Item.uuid := all
  constructor
  · rw [whole, mem_taken_iff, Due, configured]
    simp
  · intro kept
    obtain ⟨ordinary, named⟩ := array_startedFrom steady persisted
    rcases (startedFrom run persisted).saved url
      (written_of_array _ url named fun _ => ordinary) with ⟨_, unfound⟩ | ⟨other, last, a, b, sought,
      bounds, saved⟩
    · rw [found] at unfound
      cases unfound
    · obtain rfl := Option.some.inj (found.symm.trans sought)
      have same := last_eq_first loaded url first last a b bounds (.inr steady.single)
      have array : (startedFrom run persisted).final.arrays first.history =
        historyOf persisted url ++ (taken first.toConfigured (historyOf persisted url)
          (offered url run.alerts)).map Item.uuid := history
      rw [saved, same, array, ← whole] at kept
      exact List.mem_append.mp kept

end OneRun

/-- A run with the feed of the documentation and one update. -/
def updatedOnce (uuids : List String) : Run Unit where
  setup := plainSetup
  formats := torrentOnly
  phases := ⟨true, true, true⟩
  files := []
  listing := []
  stateFile := .missing
  entries := [someFeed]
  alerts := [⟨.updated, "http://some-rss.net/feed", uuids.map fun uuid => ⟨"u", uuid, "a"⟩⟩]

/-- A feed that is updated once is steady. -/
theorem steady_updatedOnce (uuids : List String) :
    Steady "http://some-rss.net/feed" (updatedOnce uuids) where
  ordinary := by decide
  reached := by
    have start : (updatedOnce []).reached = true := by decide
    exact start
  configured := by
    have entry : (entryOf (updatedOnce []) "http://some-rss.net/feed").isSome = true := by decide
    exact entry
  single := by
    have one : (configurations plainSetup [someFeed]).length = 1 := by decide
    intro i j first second atFirst atSecond _ _
    have inside := (List.getElem?_eq_some_iff.mp atFirst).1
    have within := (List.getElem?_eq_some_iff.mp atSecond).1
    have same : (configurations (updatedOnce uuids).setup (updatedOnce uuids).entries).length = 1 :=
      one
    omega

end Hadouken.RssRestarts
