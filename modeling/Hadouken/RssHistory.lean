import Hadouken.RssDownloads

/-!
# Saving the RSS histories

`unload` writes the histories of the feeds in memory over the state file. What
is in memory depends on the start: `load` of core.js comes to the feeds only
after the saved torrents, the state file has to be readable, and the entries
are configured up to the first that throws. Whatever happens there, the program
can run on, and `unload` saves what it finds.

Entries with one URL are written to the file under one name. What is written is a
plain object: a function that stands for a history has no JSON text, and an assignment
to `__proto__` makes no property.
-/

namespace Hadouken.RssHistory

open Script LoadTorrents AbortingLoop Files TorrentFiles Rss RssDownloads Dispatch

variable {γ : Type}

/-- The state file at the start, with the histories it holds. -/
inductive StateFile where
  | missing
  | unreadable (held : Persisted)
  | readable (held : Persisted)

/-- The histories persisted before the start. -/
def StateFile.held : StateFile → Persisted
  | .missing => []
  | .unreadable held | .readable held => held

/-- `loadState() || {}`, unless reading or parsing the file throws. -/
def loadState : StateFile → Option Persisted
  | .missing => some []
  | .unreadable _ => none
  | .readable held => some held

/-- A run: what `load` of core.js finds, and the alerts until `unload`. -/
structure Run (γ : Type) where
  setup : Setup
  formats : Formats γ
  phases : Phases
  files : FileSystem γ
  listing : List Path
  stateFile : StateFile
  entries : List Value
  alerts : List Alert

/-- `load` of core.js comes to `rss.load`. -/
def Run.reached (run : Run γ) : Bool :=
  run.phases.settings && completes (loadTorrent run.formats run.setup.defaults run.files) run.listing

/-- The state the feeds are in once `load` is over. -/
def Run.loaded (run : Run γ) : State :=
  if run.reached then
    match loadState run.stateFile with
    | some persisted => load run.setup persisted run.entries
    | none => parsed []
  else parsed []

/-- The state at `unload`. -/
def Run.final (run : Run γ) : State := receive run.setup run.alerts run.loaded

/-- What an assignment of the feed's history leaves in the file. -/
def saveFeed (arrays : Nat → List String) (saved : Persisted) (feed : Feed) : Persisted :=
  if feed.inherited ∨ feed.url = "__proto__" then saved
  else assign feed.url (arrays feed.history) saved

/-- `saveState`: what the state file holds afterwards. -/
def saveState (state : State) : Persisted := state.feeds.foldl (saveFeed state.arrays) []

/-- For each URL that is configured, the file holds in the end what it held at
the start and what was downloaded. -/
def Kept (run : Run γ) : Prop :=
  ∀ entry ∈ run.entries, ∀ url, urlOf entry = some url → ∀ uuid,
    uuid ∈ historyOf run.stateFile.held url ∨ uuid ∈ downloaded url run.final →
      uuid ∈ historyOf (saveState run.final) url

/-- What the feeds in memory are configured with: nothing where `rss.load` is not
reached or the state file cannot be read. -/
def Run.configured (run : Run γ) : List Configured :=
  if run.reached ∧ (loadState run.stateFile).isSome then configurations run.setup run.entries else []

/-- One position at most has the URL. -/
def Single (configured : List Configured) (url : String) : Prop :=
  ∀ (i j : Nat) (first second : Configured), configured[i]? = some first → configured[j]? = some second →
    first.url = url → second.url = url → i = j

/-- The first feed of the URL downloads something: it is enabled, nothing inherited
stands for its history, and it was offered an item that it lets through and does not
know. -/
def Downloads (run : Run γ) (url : String) : Prop :=
  inheritedIn run.stateFile.held url = false ∧
    ∃ first, (run.configured.find? fun configured => decide (configured.url = url)) = some first ∧
      Enabled run.setup first ∧ ∃ item ∈ offered url run.alerts,
        first.filter.isMatch item.title = true ∧ item.uuid ∉ historyOf run.stateFile.held url

/-- A URL with a history has a feed in memory, and one whose feed downloads
something has a history in the file already, or no second feed. Neither is the name
under which nothing is written. -/
def Covered (run : Run γ) : Prop :=
  ∀ entry ∈ run.entries, ∀ url, urlOf entry = some url →
    (historyOf run.stateFile.held url ≠ [] →
      url ≠ "__proto__" ∧ ∃ configured ∈ run.configured, configured.url = url) ∧
    (Downloads run url → url ≠ "__proto__" ∧
      ((run.stateFile.held.lookup url).isSome = true ∨ Single run.configured url))

/-- Whether `rss.load` is reached is what the model of `load` says. -/
theorem reached_iff (run : Run γ) :
    run.reached = true ↔ Action.loadRss ∈
      LoadTorrents.load run.formats run.setup.defaults run.phases run.files run.listing := by
  rw [Run.reached, LoadTorrents.load]
  by_cases settings : run.phases.settings = true
  · by_cases complete : completes (loadTorrent run.formats run.setup.defaults run.files) run.listing
    · simp [settings, complete]
    · simp [settings, complete]
  · simp [settings]

/-- The feeds in memory, loaded from what was persisted if there are any. -/
theorem loaded_loaded (run : Run γ) :
    ∃ persisted, Loaded persisted run.configured run.loaded ∧
      (run.configured ≠ [] → persisted = run.stateFile.held) := by
  have empty : Loaded [] [] (parsed []) :=
    ⟨rfl, by simp [parsed], by simp [parsed], rfl, rfl, rfl⟩
  by_cases reached : run.reached = true
  · cases file : run.stateFile with
    | missing =>
      refine ⟨[], ?_, fun _ => rfl⟩
      simpa [Run.configured, Run.loaded, reached, file, loadState] using
        load_loaded run.setup [] run.entries
    | readable held =>
      refine ⟨held, ?_, fun _ => rfl⟩
      simpa [Run.configured, Run.loaded, reached, file, loadState] using
        load_loaded run.setup held run.entries
    | unreadable held =>
      refine ⟨[], ?_, ?_⟩ <;> simp [Run.configured, Run.loaded, reached, file, loadState, empty]
  · refine ⟨[], ?_, ?_⟩ <;> simp [Run.configured, Run.loaded, reached, empty]

/-- The feeds of the URL are written. -/
def Written (feeds : List Feed) (url : String) : Prop :=
  url ≠ "__proto__" ∧ ∀ feed ∈ feeds, feed.url = url → feed.inherited = false

/-- A feed that is written or has another URL. -/
theorem lookup_saveFeed (arrays : Nat → List String) (saved : Persisted) (feed : Feed)
    (url : String) : (saveFeed arrays saved feed).lookup url =
      if url = feed.url ∧ feed.inherited = false ∧ url ≠ "__proto__" then
        some (arrays feed.history)
      else saved.lookup url := by
  unfold saveFeed
  by_cases skipped : feed.inherited ∨ feed.url = "__proto__"
  · rw [if_pos skipped, if_neg]
    rintro ⟨rfl, array, named⟩
    rcases skipped with inherited | proto
    · rw [array] at inherited
      cases inherited
    · exact named proto
  · rw [not_or, Bool.not_eq_true] at skipped
    rw [if_neg (by simp [skipped]), lookup_assign]
    by_cases own : url = feed.url
    · subst own
      simp [skipped]
    · simp [own]

/-- Under the name that makes no property the file holds nothing. -/
theorem lookup_saveState_proto (arrays : Nat → List String) (feeds : List Feed) :
    (feeds.foldl (saveFeed arrays) ([] : Persisted)).lookup "__proto__" = none := by
  induction feeds using List.reverseRecOn with
  | nil => rfl
  | append_singleton before last ih =>
    rw [List.foldl_append, List.foldl_cons, List.foldl_nil, lookup_saveFeed, if_neg (by simp), ih]

/-- The file holds the history of the last feed with the URL. -/
theorem lookup_saveState (arrays : Nat → List String) (feeds : List Feed) (url : String)
    (written : Written feeds url) :
    ((feeds.foldl (saveFeed arrays) ([] : Persisted)).lookup url = none ∧
      ∀ feed ∈ feeds, feed.url ≠ url) ∨
    ∃ (i : Nat) (feed : Feed), feeds[i]? = some feed ∧ feed.url = url ∧
      (feeds.foldl (saveFeed arrays) ([] : Persisted)).lookup url = some (arrays feed.history) ∧
      ∀ (j : Nat) (other : Feed), feeds[j]? = some other → other.url = url → j ≤ i := by
  induction feeds using List.reverseRecOn with
  | nil => exact .inl ⟨rfl, by simp⟩
  | append_singleton before last ih =>
    obtain ⟨named, array⟩ := written
    rw [List.foldl_append, List.foldl_cons, List.foldl_nil, lookup_saveFeed]
    by_cases own : url = last.url
    · have wrote : url = last.url ∧ last.inherited = false ∧ url ≠ "__proto__" :=
        ⟨own, array last (by simp) own.symm, named⟩
      refine .inr ⟨before.length, last, by simp, own.symm, by rw [if_pos wrote], ?_⟩
      intro j other stands _
      have bound := (List.getElem?_eq_some_iff.mp stands).1
      simp only [List.length_append, List.length_cons, List.length_nil] at bound
      omega
    · rw [if_neg fun wrote => own wrote.1]
      rcases ih ⟨named, fun feed inside => array feed (by simp [inside])⟩ with
        ⟨missing, none⟩ | ⟨i, feed, stands, named, found, latest⟩
      · refine .inl ⟨missing, ?_⟩
        intro feed member
        rcases List.mem_append.mp member with inside | final
        · exact none feed inside
        · rw [List.mem_singleton.mp final]
          exact Ne.symm own
      · have within := (List.getElem?_eq_some_iff.mp stands).1
        refine .inr ⟨i, feed, by rw [List.getElem?_append_left within, stands], named, found, ?_⟩
        intro j other otherStands otherNamed
        rw [List.getElem?_append] at otherStands
        split at otherStands
        · exact latest j other otherStands otherNamed
        · obtain rfl := List.mem_singleton.mp (List.mem_of_getElem? otherStands)
          exact absurd otherNamed.symm own

/-- The feeds of a URL stand between a first and a last one. -/
structure Bounds (feeds : List Feed) (url : String) (first last : Feed) (a b : Nat) : Prop where
  firstStands : feeds[a]? = some first
  lastStands : feeds[b]? = some last
  firstNamed : first.url = url
  lastNamed : last.url = url
  between : ∀ (i : Nat) (feed : Feed), feeds[i]? = some feed → feed.url = url → a ≤ i ∧ i ≤ b

/-- A feed that is found stands before all others with its URL. -/
theorem first_of_find (url : String) (feeds : List Feed) (first : Feed)
    (found : find url feeds = some first) :
    ∃ a, feeds[a]? = some first ∧
      ∀ (i : Nat) (feed : Feed), feeds[i]? = some feed → feed.url = url → a ≤ i := by
  obtain ⟨_, a, inside, here, earlier⟩ := List.find?_eq_some_iff_getElem.mp found
  refine ⟨a, by rw [List.getElem?_eq_getElem inside, here], ?_⟩
  intro i feed stands named
  by_contra before
  obtain ⟨bound, there⟩ := List.getElem?_eq_some_iff.mp stands
  have unlike := earlier i (Nat.lt_of_not_le before)
  simp [there, named] at unlike

/-- What is saved under a URL is in the array of its last feed, if it has one. -/
theorem saved_eq (state : State) (url : String) (written : Written state.feeds url) :
    (historyOf (saveState state) url = [] ∧ find url state.feeds = none) ∨
    ∃ first last a b, find url state.feeds = some first ∧
      Bounds state.feeds url first last a b ∧
      historyOf (saveState state) url = state.arrays last.history := by
  rcases lookup_saveState state.arrays state.feeds url written with
    ⟨missing, none⟩ | ⟨b, last, lastStands, named, saved, latest⟩
  · refine .inl ⟨by rw [historyOf, saveState, missing]; rfl, ?_⟩
    rw [find, List.find?_eq_none]
    intro feed member
    simpa using none feed member
  · obtain ⟨first, found⟩ : ∃ first, find url state.feeds = some first := by
      rw [← Option.isSome_iff_exists, find, List.find?_isSome]
      exact ⟨last, List.mem_of_getElem? lastStands, by simpa using named⟩
    obtain ⟨a, firstStands, earliest⟩ := first_of_find url state.feeds first found
    have bounds : Bounds state.feeds url first last a b :=
      ⟨firstStands, lastStands, (url_of_find url state.feeds first found).2, named,
        fun i feed stands own => ⟨earliest i feed stands own, latest i feed stands own⟩⟩
    exact .inr ⟨first, last, a, b, found, bounds, by rw [historyOf, saveState, saved]; rfl⟩

section Saving

variable (setup : Setup) {persisted : Persisted} {configured : List Configured} {state : State}
  (loaded : Loaded persisted configured state) (alerts : List Alert) (url : String)
  (first last : Feed) (a b : Nat) (bounds : Bounds state.feeds url first last a b)

include loaded bounds

/-- The first and the last feed of a URL share their array when the URL had a
history in the file or has one feed. -/
theorem last_eq_first
    (covered : (persisted.lookup url).isSome = true ∨ Single configured url) :
    last.history = first.history := by
  have settingsOf : ∀ (i : Nat) (feed : Feed), state.feeds[i]? = some feed →
      configured[i]? = some feed.toConfigured := by
    intro i feed stands
    rw [← loaded.feeds, List.getElem?_map, stands, Option.map_some]
  have firstHistory := loaded.history a first bounds.firstStands
  have lastHistory := loaded.history b last bounds.lastStands
  rw [bounds.firstNamed] at firstHistory
  rw [bounds.lastNamed] at lastHistory
  rcases covered with known | single
  · cases place : stored persisted url with
    | none =>
      rw [(stored_eq_none_iff persisted url).mp place] at known
      cases known
    | some reference =>
      rw [firstHistory, lastHistory, place]
      rfl
  · obtain rfl := single a b _ _ (settingsOf a first bounds.firstStands)
      (settingsOf b last bounds.lastStands) bounds.firstNamed bounds.lastNamed
    rw [firstHistory, lastHistory]

/-- Otherwise the last feed has an array of its own, to which nobody writes. -/
theorem last_unwritten (found : find url state.feeds = some first)
    (unknown : persisted.lookup url = none) (several : ¬ Single configured url) :
    (receive setup alerts state).arrays last.history = [] := by
  have place := (stored_eq_none_iff persisted url).mpr unknown
  have firstHistory := loaded.history a first bounds.firstStands
  have lastHistory := loaded.history b last bounds.lastStands
  rw [bounds.firstNamed, place, Option.getD_none] at firstHistory
  rw [bounds.lastNamed, place, Option.getD_none] at lastHistory
  have apart : a ≠ b := by
    rintro rfl
    have position : ∀ (i : Nat) (settings : Configured), configured[i]? = some settings →
        settings.url = url → i = a := by
      intro i settings stands own
      rw [← loaded.feeds, List.getElem?_map, Option.map_eq_some_iff] at stands
      obtain ⟨feed, feedStands, rfl⟩ := stands
      obtain ⟨lower, upper⟩ := bounds.between i feed feedStands own
      omega
    refine several fun i j one other oneStands otherStands oneNamed otherNamed => ?_
    rw [position i one oneStands oneNamed, position j other otherStands otherNamed]
  have lastInside : last ∈ state.feeds := List.mem_of_getElem? bounds.lastStands
  have unfound : ∀ other feed, find other state.feeds = some feed →
      feed.history ≠ last.history := by
    intro other feed sought shared
    obtain ⟨inside, otherNamed⟩ := url_of_find other state.feeds feed sought
    have same := loaded.separated feed inside last lastInside shared
    rw [otherNamed, bounds.lastNamed] at same
    subst same
    obtain rfl := Option.some.inj (sought.symm.trans found)
    omega
  rw [receive_unfound setup alerts state last.history unfound, loaded.contents last lastInside,
    bounds.lastNamed, historyOf, unknown]
  rfl

end Saving

section Runs

variable (run : Run γ) (url : String)

/-- The first feed downloads something when there is an item it takes. -/
theorem downloads_iff : Downloads run url ↔
    inheritedIn run.stateFile.held url = false ∧
      ∃ first, (run.configured.find? fun configured => decide (configured.url = url)) = some first ∧
        Enabled run.setup first ∧ ∃ uuid, uuid ∈
          (taken first (historyOf run.stateFile.held url) (offered url run.alerts)).map Item.uuid := by
  refine and_congr_right fun _ => exists_congr fun first => and_congr_right fun _ =>
    and_congr_right fun _ => ?_
  constructor
  · rintro ⟨item, carried, matched, fresh⟩
    exact ⟨item.uuid, (mem_taken_iff _ _ _ _).mpr ⟨fresh, item, carried, rfl, matched⟩⟩
  · rintro ⟨uuid, member⟩
    obtain ⟨fresh, item, carried, rfl, matched⟩ := (mem_taken_iff _ _ _ _).mp member
    exact ⟨item, carried, matched, fresh⟩

/-- Where nothing inherited stands for the history of a URL, its feeds are written. -/
theorem written_of_array (named : url ≠ "__proto__")
    (array : run.configured ≠ [] → inheritedIn run.stateFile.held url = false) :
    Written run.loaded.feeds url := by
  obtain ⟨persisted, loaded, previous⟩ := loaded_loaded run
  refine ⟨named, fun feed inside own => ?_⟩
  have some : run.configured ≠ [] := by
    rw [← loaded.feeds]
    exact List.ne_nil_of_mem (List.mem_map_of_mem inside)
  rw [loaded.inherited feed inside, own, previous some]
  exact array some

/-- What is saved, by the feeds that were loaded. -/
theorem Run.saved (written : Written run.loaded.feeds url) :
    (historyOf (saveState run.final) url = [] ∧ find url run.loaded.feeds = none) ∨
    ∃ first last a b, find url run.loaded.feeds = some first ∧
      Bounds run.loaded.feeds url first last a b ∧
      historyOf (saveState run.final) url = run.final.arrays last.history := by
  have feeds : run.final.feeds = run.loaded.feeds :=
    receive_feeds run.setup run.alerts run.loaded
  rw [← feeds] at written ⊢
  exact saved_eq run.final url written

/-- What is downloaded for a URL has an array to go to. -/
theorem array_of_due (uuid : String)
    (due : uuid ∈ historyOf run.stateFile.held url ∨ uuid ∈ downloaded url run.final) :
    inheritedIn run.stateFile.held url = false := by
  rcases due with known | arrived
  · cases held : run.stateFile.held.lookup url with
    | none =>
      rw [historyOf, held] at known
      cases known
    | some items => simp [inheritedIn, held]
  · obtain ⟨persisted, loaded, previous⟩ := loaded_loaded run
    obtain ⟨feed, found, _, array⟩ := able_of_downloaded run.setup run.alerts url uuid loaded arrived
    obtain ⟨inside, named⟩ := url_of_find url run.loaded.feeds feed found
    have some : run.configured ≠ [] := by
      rw [← loaded.feeds]
      exact List.ne_nil_of_mem (List.mem_map_of_mem inside)
    rw [loaded.inherited feed inside, named, previous some] at array
    exact array

/-- What is downloaded has a first feed that can download, found in the
configuration. -/
theorem downloads_of_downloaded (uuid : String) (arrived : uuid ∈ downloaded url run.final) :
    Downloads run url := by
  obtain ⟨persisted, loaded, previous⟩ := loaded_loaded run
  obtain ⟨feed, found, able⟩ := able_of_downloaded run.setup run.alerts url uuid loaded arrived
  have settings := (loaded.find_iff url feed.toConfigured).mp ⟨feed, found, rfl⟩
  have held : persisted = run.stateFile.held :=
    previous (List.ne_nil_of_mem (List.mem_of_find?_eq_some settings))
  subst held
  have array := array_of_due run url uuid (.inr arrived)
  rw [Run.final, (downloaded_of_able run.setup run.alerts url feed loaded found able).1] at arrived
  exact (downloads_iff run url).mpr ⟨array, _, settings, able.1, uuid, arrived⟩

/-- Nothing of a URL is lost when it is covered. -/
theorem saved_of_covered
    (remembered : historyOf run.stateFile.held url ≠ [] →
      url ≠ "__proto__" ∧ ∃ configured ∈ run.configured, configured.url = url)
    (shared : Downloads run url → url ≠ "__proto__" ∧
      ((run.stateFile.held.lookup url).isSome = true ∨ Single run.configured url))
    (uuid : String)
    (due : uuid ∈ historyOf run.stateFile.held url ∨ uuid ∈ downloaded url run.final) :
    uuid ∈ historyOf (saveState run.final) url := by
  obtain ⟨persisted, loaded, previous⟩ := loaded_loaded run
  have foundIff := loaded.find_iff url
  have array := array_of_due run url uuid due
  have named : url ≠ "__proto__" := by
    rcases due with known | arrived
    · exact (remembered (List.ne_nil_of_mem known)).1
    · exact (shared (downloads_of_downloaded run url uuid arrived)).1
  rcases run.saved url (written_of_array run url named fun _ => array) with
    ⟨_, unfound⟩ | ⟨first, last, a, b, found, bounds, saved⟩
  · have noFeed : ∀ configured ∈ run.configured, configured.url ≠ url := by
      intro configured inside named
      rw [← loaded.feeds] at inside
      obtain ⟨feed, member, rfl⟩ := List.mem_map.mp inside
      exact List.find?_eq_none.mp unfound feed member (by simpa using named)
    rcases due with known | arrived
    · obtain ⟨_, configured, inside, named⟩ := remembered (List.ne_nil_of_mem known)
      exact absurd named (noFeed configured inside)
    · obtain ⟨first, found, _⟩ := able_of_downloaded run.setup run.alerts url uuid loaded arrived
      rw [unfound] at found
      cases found
  · have settings := (foundIff first.toConfigured).mp ⟨first, found, rfl⟩
    have held : persisted = run.stateFile.held :=
      previous (List.ne_nil_of_mem (List.mem_of_find?_eq_some settings))
    subst held
    have same := last_eq_first loaded url first last a b bounds
    rw [saved]
    rcases due with known | arrived
    · have stored : (run.stateFile.held.lookup url).isSome = true := by
        rw [Option.isSome_iff_ne_none]
        intro missing
        rw [historyOf, missing] at known
        cases known
      obtain ⟨inside, named⟩ := url_of_find url run.loaded.feeds first found
      have before := loaded.contents first inside
      rw [named] at before
      rw [same (.inl stored)]
      exact (receive_grows run.setup run.alerts run.loaded first.history).subset
        (by rw [before]; exact known)
    · obtain ⟨_, shares⟩ := shared (downloads_of_downloaded run url uuid arrived)
      obtain ⟨feed, foundFeed, able⟩ :=
        able_of_downloaded run.setup run.alerts url uuid loaded arrived
      obtain rfl := Option.some.inj (foundFeed.symm.trans found)
      obtain ⟨all, history⟩ := downloaded_of_able run.setup run.alerts url feed loaded found able
      rw [Run.final, all] at arrived
      rw [same shares, Run.final, history]
      exact List.mem_append_right _ arrived

/-- A URL of which nothing is lost is covered. -/
theorem covered_of_saved
    (kept : ∀ uuid, uuid ∈ historyOf run.stateFile.held url ∨ uuid ∈ downloaded url run.final →
      uuid ∈ historyOf (saveState run.final) url) :
    (historyOf run.stateFile.held url ≠ [] →
      url ≠ "__proto__" ∧ ∃ configured ∈ run.configured, configured.url = url) ∧
    (Downloads run url → url ≠ "__proto__" ∧
      ((run.stateFile.held.lookup url).isSome = true ∨ Single run.configured url)) := by
  obtain ⟨persisted, loaded, previous⟩ := loaded_loaded run
  have foundIff := loaded.find_iff url
  have named : ∀ uuid, uuid ∈ historyOf (saveState run.final) url → url ≠ "__proto__" := by
    rintro uuid saved rfl
    rw [historyOf, saveState, lookup_saveState_proto] at saved
    cases saved
  constructor
  · intro known
    obtain ⟨uuid, member⟩ := List.exists_mem_of_ne_nil _ known
    have saved := kept uuid (.inl member)
    have array := array_of_due run url uuid (.inl member)
    refine ⟨named uuid saved, ?_⟩
    rcases run.saved url (written_of_array run url (named uuid saved) fun _ => array) with
      ⟨none, _⟩ | ⟨first, _, _, _, found, _⟩
    · rw [none] at saved
      cases saved
    · have settings := (foundIff first.toConfigured).mp ⟨first, found, rfl⟩
      exact ⟨first.toConfigured, List.mem_of_find?_eq_some settings,
        (url_of_find url run.loaded.feeds first found).2⟩
  · intro downloads
    obtain ⟨array, settings, firstSettings, enabled, uuid, member⟩ :=
      (downloads_iff run url).mp downloads
    have held : persisted = run.stateFile.held :=
      previous (List.ne_nil_of_mem (List.mem_of_find?_eq_some firstSettings))
    subst held
    obtain ⟨feed, found, rfl⟩ := (foundIff settings).mpr firstSettings
    obtain ⟨inside, own⟩ := url_of_find url run.loaded.feeds feed found
    have able : Able run.setup feed :=
      ⟨enabled, by rw [loaded.inherited feed inside, own]; exact array⟩
    have arrived : uuid ∈ downloaded url run.final := by
      rw [Run.final, (downloaded_of_able run.setup run.alerts url feed loaded found able).1]
      exact member
    have saved := kept uuid (.inr arrived)
    refine ⟨named uuid saved, ?_⟩
    by_contra uncovered
    rw [not_or, Bool.not_eq_true, Option.isSome_eq_false_iff, Option.isNone_iff_eq_none]
      at uncovered
    rcases run.saved url (written_of_array run url (named uuid saved) fun _ => array) with
      ⟨_, unfound⟩ | ⟨first, last, a, b, again, bounds, written⟩
    · rw [unfound] at found
      cases found
    · rw [written, Run.final, last_unwritten run.setup loaded run.alerts url first last a b bounds
        again uncovered.1 uncovered.2] at saved
      cases saved

end Runs

/-- A run that starts with an empty torrent file in the torrents directory, one
configured feed and its history. -/
def truncatedStart : Run Unit where
  setup := plainSetup
  formats := torrentOnly
  phases := ⟨true, true, true⟩
  files := truncated
  listing := ["t/a.torrent".toList, "t/b.torrent".toList]
  stateFile := .readable [("http://some-rss.net/feed", ["1"])]
  entries := [someFeed]
  alerts := []

end Hadouken.RssHistory
