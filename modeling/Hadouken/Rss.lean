import Hadouken.Dispatch
import Hadouken.Library.Admission
import Hadouken.LoadTorrents
import Mathlib.Data.List.Flatten
import Mathlib.Data.List.Induction
import Mathlib.Logic.Function.Basic

/-!
# RSS feeds

rss.js keeps a feed for each configured entry. When the session reports that a
feed was updated, the first feed with its URL goes through the items: an item
that is not in the history and passes the filter is written to the history and
downloaded.

A history is an array, and the feeds of one URL share the array of the loaded
state when there is one. Arrays are therefore kept apart from the feeds, under
references. The loaded state is a plain object: under a URL that names a property
every object inherits it is never empty, and what is inherited is no array.

Regular expressions are a parameter, and so is what the session reports. The log is
left out, and a feed's poll rate is only checked.
-/

namespace Hadouken.Rss

open Script ValueStack LoadTorrents Admission Dispatch

/-- What the scripts depend on. -/
structure Setup where
  regExp : Value → Option (String → Bool)
  defaults : Defaults

/-- The state as `saveState` writes it: the histories by URL. -/
abbrev Persisted := List (String × List String)

/-- The history of a URL in a state. -/
def historyOf (persisted : Persisted) (url : String) : List String :=
  (persisted.lookup url).getD []

/-- The filters of a feed. -/
inductive Filter where
  | plain
  | catchAll
  | regExp (includes : String → Bool) (excludes : Option (String → Bool))

/-- `isMatch` of the three kinds of filter. -/
def Filter.isMatch : Filter → String → Bool
  | .plain, _ => false
  | .catchAll, _ => true
  | .regExp includes none, input => includes input
  | .regExp includes (some excludes), input => includes input && !excludes input

/-- `new RegExpFilter(include, exclude)`. A regular expression that does not
compile throws. -/
def regExpFilter (regExp : Value → Option (String → Bool)) (included excluded : Value) :
    Option Filter := do
  let includes ← regExp included
  match excluded with
  | .undefined => return .regExp includes none
  | _ => return .regExp includes (some (← regExp excluded))

/-- The filter the constructor of `Feed` makes of a setting. -/
def makeFilter (regExp : Value → Option (String → Bool)) : Value → Option Filter
  | .string text => some (if text = "*" then .catchAll else .plain)
  | .array (.string kind :: patterns) _ =>
      if kind = "regex" then
        regExpFilter regExp (patterns[0]?.getD .undefined) (patterns[1]?.getD .undefined)
      else some .plain
  | _ => some .plain

/-- What a feed is configured with. -/
structure Configured where
  url : String
  filter : Filter
  options : Value

/-- A feed with its history: an array, unless the loaded state had none for the URL
and an inherited property stands in its place. -/
structure Feed extends Configured where
  history : Nat
  inherited : Bool

/-- What one entry of `feeds` configures, unless it throws: the native setters
take a string as the URL and a number as the poll rate. -/
def configure (setup : Setup) (entry : Value) : Option Configured :=
  match entry.member "url", (setting entry "ttl").orElse (.integer 30) with
  | some (.string url), .number _ => do
      let filter ← makeFilter setup.regExp (setting entry "filter")
      return ⟨cString url, filter, (setting entry "options").orElse (.object [])⟩
  | _, _ => none

/-- What the entries configure, up to the first that throws. -/
def configurations (setup : Setup) : List Value → List Configured
  | [] => []
  | entry :: rest =>
      match configure setup entry with
      | none => []
      | some configured => configured :: configurations setup rest

/-- An item of a feed, as far as it is read. -/
structure Item where
  url : String
  uuid : String
  title : String

/-- The states of the session's feeds. -/
inductive FeedState where
  | updating
  | updated
  | error
deriving DecidableEq

/-- An `rss_alert`, with the status its feed has when it is asked. -/
structure Alert where
  state : FeedState
  url : String
  items : List Item

/-- A call of `session.addTorrent`, with the feed and the item it is made for. -/
structure Download where
  feed : String
  uuid : String
  params : AddTorrentParams Unit
  url : String

/-- The feeds with the arrays they refer to, and what was downloaded. -/
structure State where
  feeds : List Feed
  arrays : Nat → List String
  next : Nat
  downloads : List Download

/-- The arrays of the loaded state are the first ones. -/
def parsed (persisted : Persisted) : State where
  feeds := []
  arrays reference := (persisted[reference]?.map Prod.snd).getD []
  next := persisted.length
  downloads := []

/-- The reference `state[url]`, if there is one. -/
def stored (persisted : Persisted) (url : String) : Option Nat :=
  (persisted.map Prod.fst).idxOf? url

/-- The state has no history of the URL, but a property under its name that every
object inherits. -/
def inheritedIn (persisted : Persisted) (url : String) : Bool :=
  (persisted.lookup url).isNone && (objectPrototype.lookup url).isSome

/-- The body of the loop of `load`. A new feed has an empty array of its own,
which gives way to what the loaded state has under the URL. -/
def addFeed (persisted : Persisted) (state : State) (configured : Configured) : State where
  feeds := state.feeds ++ [⟨configured, (stored persisted configured.url).getD state.next,
    inheritedIn persisted configured.url⟩]
  arrays := Function.update state.arrays state.next []
  next := state.next + 1
  downloads := state.downloads

/-- The state after the loop of `load`, also where it ends by an exception. -/
def load (setup : Setup) (persisted : Persisted) (entries : List Value) : State :=
  (configurations setup entries).foldl (addFeed persisted) (parsed persisted)

/-- `Feed.find`. -/
def find (url : String) (feeds : List Feed) : Option Feed :=
  feeds.find? fun feed => decide (feed.url = url)

/-- `download`: the parameters of the torrent, unless the save path is refused. -/
def download (setup : Setup) (options : Value) : Option (AddTorrentParams Unit) :=
  let params : AddTorrentParams Unit := getDefault setup.defaults
  (overrideSavePath (setting options "savePath") params.savePath).map fun path =>
    { params with savePath := path }

/-- `feed.history.push(uuid)`. -/
def State.push (state : State) (reference : Nat) (uuid : String) : State :=
  { state with
    arrays := Function.update state.arrays reference (state.arrays reference ++ [uuid]) }

/-- The loop over the items of an updated feed. What is inherited has no `indexOf`. -/
def visit (setup : Setup) (feed : Feed) : List Item → State → State
  | [], state => state
  | item :: rest, state =>
      if feed.inherited then state
      else if item.uuid ∈ state.arrays feed.history then visit setup feed rest state
      else if feed.filter.isMatch item.title = false then visit setup feed rest state
      else if (setting feed.options "dryRun").truthy then visit setup feed rest state
      else
        let pushed := state.push feed.history item.uuid
        match download setup feed.options with
        | none => pushed
        | some params => visit setup feed rest
            { pushed with downloads := pushed.downloads ++ [⟨feed.url, item.uuid, params, item.url⟩] }

/-- `onRss`. -/
def onRss (setup : Setup) (state : State) (alert : Alert) : State :=
  match alert.state with
  | .error | .updating => state
  | .updated =>
      match find alert.url state.feeds with
      | none => state
      | some feed => visit setup feed alert.items state

/-- Alerts one after the other. -/
def receive (setup : Setup) (alerts : List Alert) (state : State) : State :=
  alerts.foldl (onRss setup) state

/-- The items downloaded for a feed URL, in their order. -/
def downloaded (url : String) (state : State) : List String :=
  (state.downloads.filter fun download => decide (download.feed = url)).map Download.uuid

/-- The items a feed URL has carried in its updates. -/
def offered (url : String) (alerts : List Alert) : List Item :=
  (alerts.filter fun alert => decide (alert.state = .updated ∧ alert.url = url)).flatMap Alert.items

/-- The feed downloads what it takes: it is no dry run, and its save path is
accepted. -/
def Enabled (setup : Setup) (feed : Configured) : Prop :=
  (setting feed.options "dryRun").truthy = false ∧ (download setup feed.options).isSome = true

/-- The feed can download: it is enabled, and its history is an array. -/
def Able (setup : Setup) (feed : Feed) : Prop :=
  Enabled setup feed.toConfigured ∧ feed.inherited = false

/-- The items a feed takes, when it has this history. -/
def taken (feed : Configured) (history : List String) (items : List Item) : List Item :=
  admitted Item.uuid (fun item => feed.filter.isMatch item.title) history items

/-- A feed takes what is new to it and passes its filter. -/
theorem mem_taken_iff (feed : Configured) (history : List String) (items : List Item)
    (uuid : String) : uuid ∈ (taken feed history items).map Item.uuid ↔
      uuid ∉ history ∧ ∃ item ∈ items, item.uuid = uuid ∧ feed.filter.isMatch item.title = true :=
  mem_admitted_iff _ _ _ _ _

/-- It takes nothing twice. -/
theorem nodup_taken (feed : Configured) (history : List String) (items : List Item) :
    ((taken feed history items).map Item.uuid).Nodup := nodup_admitted _ _ _ _

/-- Feeds of different URLs have different histories. -/
def Separated (feeds : List Feed) : Prop :=
  ∀ first ∈ feeds, ∀ second ∈ feeds, first.history = second.history → first.url = second.url

section Visits

variable (setup : Setup) (feed : Feed)

/-- Without an array for its history a feed does nothing. -/
theorem visit_inherited (items : List Item) (state : State) (inherited : feed.inherited = true) :
    visit setup feed items state = state := by
  cases items with
  | nil => rfl
  | cons item rest => simp [visit, inherited]

/-- What is known, does not match, or meets a dry run changes nothing. -/
theorem visit_skip (item : Item) (rest : List Item) (state : State)
    (skipped : (item.uuid ∈ state.arrays feed.history ∨ feed.filter.isMatch item.title = false) ∨
      (setting feed.options "dryRun").truthy = true) :
    visit setup feed (item :: rest) state = visit setup feed rest state := by
  by_cases inherited : feed.inherited = true
  · rw [visit_inherited setup feed _ _ inherited, visit_inherited setup feed _ _ inherited]
  · rcases skipped with (old | refused) | dry
    · simp [visit, inherited, old]
    · simp [visit, inherited, refused]
    · simp [visit, inherited, dry]

/-- A feed that can download writes the items it takes to its history, and downloads
them. -/
theorem visit_enabled (params : AddTorrentParams Unit) (items : List Item) (state : State)
    (array : feed.inherited = false) (live : (setting feed.options "dryRun").truthy = false)
    (built : download setup feed.options = some params) :
    visit setup feed items state =
      let items := taken feed.toConfigured (state.arrays feed.history) items
      { state with
        arrays := Function.update state.arrays feed.history
          (state.arrays feed.history ++ items.map Item.uuid)
        downloads := state.downloads ++
          items.map fun item => ⟨feed.url, item.uuid, params, item.url⟩ } := by
  induction items generalizing state with
  | nil => simp [visit, taken, admitted]
  | cons item rest ih =>
    by_cases skipped : item.uuid ∈ state.arrays feed.history ∨
        feed.filter.isMatch item.title = false
    · rw [visit_skip setup feed item rest state (.inl skipped), ih, taken, taken,
        admitted_cons_skip _ _ _ _ _ skipped]
    · rw [not_or, Bool.not_eq_false] at skipped
      obtain ⟨fresh, accepted⟩ := skipped
      have step : visit setup feed (item :: rest) state = visit setup feed rest
          { state.push feed.history item.uuid with
            downloads := state.downloads ++ [⟨feed.url, item.uuid, params, item.url⟩] } := by
        simp [visit, array, fresh, accepted, live, built, State.push]
      have history : (state.push feed.history item.uuid).arrays feed.history =
          state.arrays feed.history ++ [item.uuid] := by simp [State.push]
      rw [step, ih, taken, taken, admitted_cons_take _ _ _ _ _ fresh accepted, history]
      simp [State.push, List.append_assoc]

/-- Another feed downloads nothing, though it may write to its history. -/
theorem visit_disabled (items : List Item) (state : State)
    (disabled : ¬ Able setup feed) :
    ∃ pushed, visit setup feed items state =
      { state with
        arrays := Function.update state.arrays feed.history
          (state.arrays feed.history ++ pushed) } := by
  by_cases inherited : feed.inherited = true
  · exact ⟨[], by simp [visit_inherited setup feed items state inherited]⟩
  rw [Bool.not_eq_true] at inherited
  induction items generalizing state with
  | nil => exact ⟨[], by simp [visit]⟩
  | cons item rest ih =>
    by_cases skipped : (item.uuid ∈ state.arrays feed.history ∨
        feed.filter.isMatch item.title = false) ∨ (setting feed.options "dryRun").truthy = true
    · rw [visit_skip setup feed item rest state skipped]
      exact ih state
    · simp only [not_or, Bool.not_eq_false, Bool.not_eq_true] at skipped
      obtain ⟨⟨fresh, accepted⟩, live⟩ := skipped
      have refused : download setup feed.options = none := by
        rw [← Option.not_isSome_iff_eq_none]
        exact fun built => disabled ⟨⟨live, built⟩, inherited⟩
      exact ⟨[item.uuid], by simp [visit, inherited, fresh, accepted, live, refused, State.push]⟩

end Visits

/-- A feed that is found has the URL it was looked for with. -/
theorem url_of_find (url : String) (feeds : List Feed) (feed : Feed)
    (found : find url feeds = some feed) : feed ∈ feeds ∧ feed.url = url :=
  ⟨List.mem_of_find?_eq_some found, by simpa using List.find?_some found⟩

/-- What is downloaded later comes behind. -/
theorem downloaded_append (url : String) (state : State) (arrays : Nat → List String)
    (added : List Download) :
    downloaded url { state with arrays := arrays, downloads := state.downloads ++ added } =
      downloaded url state ++
        (added.filter fun download => decide (download.feed = url)).map Download.uuid := by
  simp [downloaded]

section Alerts

variable (setup : Setup)

/-- An alert of a feed that is updating, or failed to, changes nothing. -/
theorem onRss_of_not_updated (state : State) (alert : Alert) (idle : alert.state ≠ .updated) :
    onRss setup state alert = state := by
  cases kind : alert.state with
  | updating => simp [onRss, kind]
  | error => simp [onRss, kind]
  | updated => exact absurd kind idle

/-- An alert adds to one history at most, which is that of the first feed with
its URL, and its downloads are for that URL. -/
theorem onRss_frame (state : State) (alert : Alert) :
    onRss setup state alert = state ∨
      ∃ feed pushed added, find alert.url state.feeds = some feed ∧
        onRss setup state alert =
          { state with
            arrays := Function.update state.arrays feed.history
              (state.arrays feed.history ++ pushed)
            downloads := state.downloads ++ added } ∧
        ∀ download ∈ added, download.feed = alert.url := by
  by_cases updated : alert.state = .updated
  · cases found : find alert.url state.feeds with
    | none => exact .inl (by simp [onRss, updated, found])
    | some feed =>
      have visited : onRss setup state alert = visit setup feed alert.items state := by
        simp [onRss, updated, found]
      obtain ⟨_, same⟩ := url_of_find alert.url state.feeds feed found
      rw [visited]
      by_cases able : Able setup feed
      · obtain ⟨⟨live, accepted⟩, array⟩ := able
        obtain ⟨params, built⟩ := Option.isSome_iff_exists.mp accepted
        refine .inr ⟨feed, _, _, rfl,
          visit_enabled setup feed params alert.items state array live built, ?_⟩
        intro download member
        obtain ⟨item, _, rfl⟩ := List.mem_map.mp member
        exact same
      · obtain ⟨pushed, visited⟩ := visit_disabled setup feed alert.items state able
        exact .inr ⟨feed, pushed, [], rfl, by rw [visited]; simp, by simp⟩
  · exact .inl (onRss_of_not_updated setup state alert updated)

/-- An alert leaves the feeds. -/
theorem onRss_feeds (state : State) (alert : Alert) :
    (onRss setup state alert).feeds = state.feeds := by
  rcases onRss_frame setup state alert with same | ⟨_, _, _, _, changed, _⟩
  · rw [same]
  · rw [changed]

/-- So do many. -/
theorem receive_feeds (alerts : List Alert) (state : State) :
    (receive setup alerts state).feeds = state.feeds := by
  induction alerts generalizing state with
  | nil => rfl
  | cons alert rest ih =>
    rw [receive, List.foldl_cons]
    exact (ih (onRss setup state alert)).trans (onRss_feeds setup state alert)

/-- Histories only grow. -/
theorem receive_grows (alerts : List Alert) (state : State) (reference : Nat) :
    state.arrays reference <+: (receive setup alerts state).arrays reference := by
  induction alerts generalizing state with
  | nil => exact List.prefix_rfl
  | cons alert rest ih =>
    refine List.IsPrefix.trans ?_ (ih (onRss setup state alert))
    rcases onRss_frame setup state alert with same | ⟨feed, pushed, _, _, changed, _⟩
    · simp [same]
    · rw [changed]
      by_cases own : reference = feed.history
      · subst own
        simp
      · simp [Function.update_of_ne own]

/-- A history that no URL finds stays as it is. -/
theorem receive_unfound (alerts : List Alert) (state : State) (reference : Nat)
    (unfound : ∀ url feed, find url state.feeds = some feed → feed.history ≠ reference) :
    (receive setup alerts state).arrays reference = state.arrays reference := by
  induction alerts generalizing state with
  | nil => rfl
  | cons alert rest ih =>
    have later := ih (onRss setup state alert) (by rw [onRss_feeds]; exact unfound)
    rw [receive, List.foldl_cons]
    refine later.trans ?_
    rcases onRss_frame setup state alert with same | ⟨feed, pushed, _, found, changed, _⟩
    · rw [same]
    · rw [changed]
      exact Function.update_of_ne (unfound alert.url feed found).symm _ _

variable (url : String)

/-- An alert that is no update of the URL leaves its downloads, and the history
of its feed. -/
theorem onRss_other (state : State) (alert : Alert) (separated : Separated state.feeds)
    (other : ¬ (alert.state = .updated ∧ alert.url = url)) :
    downloaded url (onRss setup state alert) = downloaded url state ∧
      ∀ feed, find url state.feeds = some feed →
        (onRss setup state alert).arrays feed.history = state.arrays feed.history := by
  by_cases updated : alert.state = .updated
  · have different : alert.url ≠ url := fun same => other ⟨updated, same⟩
    rcases onRss_frame setup state alert with same | ⟨changing, pushed, added, found, changed, own⟩
    · rw [same]
      exact ⟨rfl, fun _ _ => rfl⟩
    · obtain ⟨inside, named⟩ := url_of_find alert.url state.feeds changing found
      rw [changed]
      constructor
      · have none : added.filter (fun download => decide (download.feed = url)) = [] := by
          rw [List.filter_eq_nil_iff]
          intro download member
          simp [own download member, different]
        rw [downloaded_append, none]
        simp
      · intro feed sought
        obtain ⟨member, wanted⟩ := url_of_find url state.feeds feed sought
        refine Function.update_of_ne (fun shared => different ?_) _ _
        rw [← named, ← wanted]
        exact (separated feed member changing inside shared).symm
  · rw [onRss_of_not_updated setup state alert updated]
    exact ⟨rfl, fun _ _ => rfl⟩

/-- An item was offered when an update of the URL carried it. -/
theorem mem_offered_iff (alerts : List Alert) (item : Item) :
    item ∈ offered url alerts ↔
      ∃ alert ∈ alerts, alert.state = .updated ∧ alert.url = url ∧ item ∈ alert.items := by
  simp [offered, and_assoc]

/-- What is offered comes from the updates of the URL. -/
theorem offered_cons (alert : Alert) (rest : List Alert) :
    offered url (alert :: rest) =
      (if alert.state = .updated ∧ alert.url = url then alert.items else []) ++
        offered url rest := by
  by_cases own : alert.state = .updated ∧ alert.url = url
  · simp [offered, own]
  · rw [offered, List.filter_cons_of_neg (by simpa using own), if_neg own, List.nil_append, offered]

/-- At an update of its URL, a feed that can downloads the items it takes, and
its history records them. -/
theorem onRss_own (feed : Feed) (state : State) (alert : Alert)
    (able : Able setup feed) (found : find url state.feeds = some feed)
    (own : alert.state = .updated ∧ alert.url = url) :
    let items := taken feed.toConfigured (state.arrays feed.history) alert.items
    downloaded url (onRss setup state alert) = downloaded url state ++ items.map Item.uuid ∧
      (onRss setup state alert).arrays feed.history =
        state.arrays feed.history ++ items.map Item.uuid := by
  obtain ⟨⟨live, accepted⟩, array⟩ := able
  obtain ⟨params, built⟩ := Option.isSome_iff_exists.mp accepted
  have named := (url_of_find url state.feeds feed found).2
  have visited : onRss setup state alert = visit setup feed alert.items state := by
    simp [onRss, own.1, own.2, found]
  have uuids : ∀ items : List Item,
      ((items.map fun item => (⟨feed.url, item.uuid, params, item.url⟩ : Download)).filter
        fun download => decide (download.feed = url)).map Download.uuid = items.map Item.uuid := by
    intro items
    rw [List.filter_eq_self.mpr (by simp [named])]
    simp
  rw [visited, visit_enabled setup feed params alert.items state array live built]
  exact ⟨by rw [downloaded_append, uuids], Function.update_self _ _ _⟩

/-- Over any alerts, a feed that can download downloads exactly the items it takes of
those its URL was offered, and its history records them. -/
theorem receive_enabled (feed : Feed) (alerts : List Alert) (state : State)
    (able : Able setup feed) (found : find url state.feeds = some feed)
    (separated : Separated state.feeds) :
    let items := taken feed.toConfigured (state.arrays feed.history) (offered url alerts)
    downloaded url (receive setup alerts state) =
        downloaded url state ++ items.map Item.uuid ∧
      (receive setup alerts state).arrays feed.history =
        state.arrays feed.history ++ items.map Item.uuid := by
  induction alerts generalizing state with
  | nil => simp [receive, offered, taken, admitted]
  | cons alert rest ih =>
    have feeds := onRss_feeds setup state alert
    obtain ⟨laterDownloaded, laterHistory⟩ :=
      ih (onRss setup state alert) (by rw [feeds]; exact found) (by rw [feeds]; exact separated)
    have step : receive setup (alert :: rest) state =
        receive setup rest (onRss setup state alert) := rfl
    rw [step, laterDownloaded, laterHistory, offered_cons]
    by_cases own : alert.state = .updated ∧ alert.url = url
    · obtain ⟨nowDownloaded, nowHistory⟩ := onRss_own setup url feed state alert able found own
      have split : taken feed.toConfigured (state.arrays feed.history)
          (alert.items ++ offered url rest) =
          taken feed.toConfigured (state.arrays feed.history) alert.items ++
            taken feed.toConfigured (state.arrays feed.history ++
              (taken feed.toConfigured (state.arrays feed.history) alert.items).map Item.uuid)
              (offered url rest) := admitted_append _ _ _ _ _
      rw [if_pos own, split, nowDownloaded, nowHistory]
      simp [List.append_assoc]
    · obtain ⟨sameDownloaded, sameHistory⟩ := onRss_other setup url state alert separated own
      rw [if_neg own, List.nil_append, sameDownloaded, sameHistory feed found]
      exact ⟨rfl, rfl⟩

/-- Without a feed that can download nothing is downloaded for a URL. -/
theorem receive_idle (alerts : List Alert) (state : State) (separated : Separated state.feeds)
    (idle : ∀ feed, find url state.feeds = some feed → ¬ Able setup feed) :
    downloaded url (receive setup alerts state) = downloaded url state := by
  induction alerts generalizing state with
  | nil => rfl
  | cons alert rest ih =>
    have feeds := onRss_feeds setup state alert
    have later := ih (onRss setup state alert) (by rw [feeds]; exact separated)
      (by rw [feeds]; exact idle)
    have step : receive setup (alert :: rest) state =
        receive setup rest (onRss setup state alert) := rfl
    rw [step, later]
    by_cases own : alert.state = .updated ∧ alert.url = url
    · cases found : find url state.feeds with
      | none => simp [onRss, own.1, own.2, found]
      | some feed =>
        obtain ⟨pushed, visited⟩ := visit_disabled setup feed alert.items state (idle feed found)
        simp [onRss, own.1, own.2, found, visited, downloaded]
    · exact (onRss_other setup url state alert separated own).1

end Alerts

/-- A stored history has its place in the loaded state. -/
theorem stored_eq_some (persisted : Persisted) (url : String) (reference : Nat)
    (found : stored persisted url = some reference) :
    ∃ items, persisted[reference]? = some (url, items) ∧ persisted.lookup url = some items := by
  induction persisted generalizing reference with
  | nil => simp [stored] at found
  | cons member rest ih =>
    obtain ⟨name, items⟩ := member
    rw [stored, List.map_cons, List.idxOf?_cons] at found
    rw [lookup_cons_ite]
    by_cases same : url = name
    · subst same
      simp only [beq_self_eq_true, if_true, Option.some.injEq] at found
      subst found
      exact ⟨items, by simp⟩
    · rw [if_neg (by simpa using Ne.symm same)] at found
      obtain ⟨later, laterFound, rfl⟩ := Option.map_eq_some_iff.mp found
      obtain ⟨own, here, there⟩ := ih later laterFound
      exact ⟨own, by simpa using here, by rw [if_neg same, there]⟩

/-- A URL without a history has no place. -/
theorem stored_eq_none_iff (persisted : Persisted) (url : String) :
    stored persisted url = none ↔ persisted.lookup url = none := by
  rw [stored, List.idxOf?_eq_none_iff, ← lookup_isSome_iff, Option.not_isSome_iff_eq_none]

/-- The state while the feeds are loaded: every feed has the array of the loaded
state for its URL, or else one of its own, and no array was written to. -/
structure Loaded (persisted : Persisted) (configured : List Configured) (state : State) : Prop where
  feeds : state.feeds.map Feed.toConfigured = configured
  history : ∀ i feed, state.feeds[i]? = some feed →
    feed.history = (stored persisted feed.url).getD (persisted.length + i)
  inherited : ∀ feed ∈ state.feeds, feed.inherited = inheritedIn persisted feed.url
  arrays : state.arrays = (parsed persisted).arrays
  next : state.next = persisted.length + configured.length
  downloads : state.downloads = []

/-- Arrays beyond the loaded ones are empty. -/
theorem parsed_arrays_of_le (persisted : Persisted) (reference : Nat)
    (beyond : persisted.length ≤ reference) : (parsed persisted).arrays reference = [] := by
  simp [parsed, List.getElem?_eq_none beyond]

/-- Another feed is loaded after the others. -/
theorem addFeed_loaded (persisted : Persisted) (configured : List Configured) (state : State)
    (last : Configured) (loaded : Loaded persisted configured state) :
    Loaded persisted (configured ++ [last]) (addFeed persisted state last) where
  feeds := by simp [addFeed, loaded.feeds]
  history := by
    have count : state.feeds.length = configured.length := by rw [← loaded.feeds, List.length_map]
    intro i feed stands
    rw [addFeed, List.getElem?_append] at stands
    split at stands
    · exact loaded.history i feed stands
    · have position := (List.getElem?_eq_some_iff.mp stands).1
      obtain rfl := List.mem_singleton.mp (List.mem_of_getElem? stands)
      have here : i = configured.length := by
        simp only [List.length_cons, List.length_nil] at position
        omega
      simp [here, loaded.next]
  inherited := by
    intro feed inside
    rcases List.mem_append.mp inside with before | last
    · exact loaded.inherited feed before
    · rw [List.mem_singleton.mp last]
  arrays := by
    have fresh : state.arrays state.next = [] := by
      rw [loaded.arrays]
      exact parsed_arrays_of_le persisted _ (by rw [loaded.next]; omega)
    show Function.update state.arrays state.next [] = _
    rw [← fresh, Function.update_eq_self, loaded.arrays]
  next := by simp [addFeed, loaded.next, Nat.add_assoc]
  downloads := loaded.downloads

/-- So it is at the end of the loop, also where the loop ends early. -/
theorem load_loaded (setup : Setup) (persisted : Persisted) (entries : List Value) :
    Loaded persisted (configurations setup entries) (load setup persisted entries) := by
  have all : ∀ configured : List Configured,
      Loaded persisted configured (configured.foldl (addFeed persisted) (parsed persisted)) := by
    intro configured
    induction configured using List.reverseRecOn with
    | nil => exact ⟨rfl, by simp [parsed], by simp [parsed], rfl, rfl, rfl⟩
    | append_singleton before last ih =>
      rw [List.foldl_append]
      exact addFeed_loaded persisted before _ last ih
  exact all (configurations setup entries)

section AfterLoad

variable {persisted : Persisted} {configured : List Configured} {state : State}

/-- A feed starts with the history the loaded state has for its URL. -/
theorem Loaded.contents (loaded : Loaded persisted configured state) (feed : Feed)
    (inside : feed ∈ state.feeds) :
    state.arrays feed.history = historyOf persisted feed.url := by
  obtain ⟨i, stands⟩ := List.mem_iff_getElem?.mp inside
  rw [loaded.arrays, loaded.history i feed stands, historyOf]
  cases found : stored persisted feed.url with
  | none =>
    rw [(stored_eq_none_iff persisted feed.url).mp found]
    exact parsed_arrays_of_le persisted _ (by simp)
  | some reference =>
    obtain ⟨items, here, there⟩ := stored_eq_some persisted feed.url reference found
    simp [parsed, here, there]

/-- Only feeds of one URL share a history. -/
theorem Loaded.separated (loaded : Loaded persisted configured state) : Separated state.feeds := by
  intro first firstInside second secondInside shared
  obtain ⟨i, firstStands⟩ := List.mem_iff_getElem?.mp firstInside
  obtain ⟨j, secondStands⟩ := List.mem_iff_getElem?.mp secondInside
  have within : ∀ url reference, stored persisted url = some reference →
      reference < persisted.length := by
    intro url reference found
    obtain ⟨items, here, _⟩ := stored_eq_some persisted url reference found
    exact (List.getElem?_eq_some_iff.mp here).1
  have firstHistory := loaded.history i first firstStands
  have secondHistory := loaded.history j second secondStands
  cases firstFound : stored persisted first.url with
  | none =>
    rw [firstFound, Option.getD_none] at firstHistory
    cases secondFound : stored persisted second.url with
    | none =>
      rw [secondFound, Option.getD_none] at secondHistory
      obtain rfl : i = j := by omega
      rw [Option.some.inj (firstStands.symm.trans secondStands)]
    | some reference =>
      rw [secondFound, Option.getD_some] at secondHistory
      have bound := within second.url reference secondFound
      omega
  | some reference =>
    rw [firstFound, Option.getD_some] at firstHistory
    have bound := within first.url reference firstFound
    cases secondFound : stored persisted second.url with
    | none =>
      rw [secondFound, Option.getD_none] at secondHistory
      omega
    | some other =>
      rw [secondFound, Option.getD_some] at secondHistory
      obtain rfl : reference = other := by omega
      obtain ⟨_, firstHere, _⟩ := stored_eq_some persisted first.url reference firstFound
      obtain ⟨_, secondHere, _⟩ := stored_eq_some persisted second.url reference secondFound
      exact (Prod.mk.inj (Option.some.inj (firstHere.symm.trans secondHere))).1

/-- Looking for a feed is looking for what it was configured with. -/
theorem Loaded.find_iff (loaded : Loaded persisted configured state) (url : String)
    (settings : Configured) :
    (∃ feed, find url state.feeds = some feed ∧ feed.toConfigured = settings) ↔
      (configured.find? fun settings => decide (settings.url = url)) = some settings := by
  rw [← loaded.feeds, List.find?_map, Option.map_eq_some_iff]
  rfl

section Downloads

variable (setup : Setup) (alerts : List Alert) (url : String)

/-- From the loaded state on, a first feed that can downloads what it takes and adds
it to the history the file had. -/
theorem downloaded_of_able (first : Feed) (loaded : Loaded persisted configured state)
    (found : find url state.feeds = some first) (able : Able setup first) :
    let items := taken first.toConfigured (historyOf persisted url) (offered url alerts)
    downloaded url (receive setup alerts state) = items.map Item.uuid ∧
      (receive setup alerts state).arrays first.history =
        historyOf persisted url ++ items.map Item.uuid := by
  obtain ⟨inside, named⟩ := url_of_find url state.feeds first found
  obtain ⟨all, history⟩ := receive_enabled setup url first alerts state able found
    loaded.separated
  have contents := loaded.contents first inside
  have nothingYet : downloaded url state = [] := by
    rw [downloaded, loaded.downloads]
    rfl
  rw [named] at contents
  rw [contents, nothingYet, List.nil_append] at all
  rw [contents] at history
  exact ⟨all, history⟩

/-- What was downloaded for a URL was downloaded by its first feed. -/
theorem able_of_downloaded (uuid : String) (loaded : Loaded persisted configured state)
    (arrived : uuid ∈ downloaded url (receive setup alerts state)) :
    ∃ first, find url state.feeds = some first ∧ Able setup first := by
  by_contra unable
  have none := receive_idle setup url alerts state loaded.separated
    fun first found able => unable ⟨first, found, able⟩
  rw [none, downloaded, loaded.downloads] at arrived
  cases arrived

end Downloads

end AfterLoad

end Hadouken.Rss
