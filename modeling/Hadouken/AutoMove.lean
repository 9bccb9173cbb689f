import Hadouken.AutoAdd
import Hadouken.AutoLabel
import Hadouken.Library.ValueStack
import Hadouken.RepeatedAdds

/-!
# AutoMove

The plugin moves a finished torrent to the path of the first of its rules that
matches the torrent's name, its tags or its label. Names come from the library.
Tags and label are metadata: AutoAdd gives both with the torrents it adds,
AutoLabel gives a label to torrents without one, and the web interface sets it.

The configuration is any value here, and a rule of the wrong form makes the
plugin throw, when it is loaded or at a finished torrent. For rules of the
documented forms the moves of a whole run are those of a small machine that
keeps a list of tags and a label for each torrent, and nothing else of the
metadata.
-/

namespace Hadouken.AutoMove

open Script MetadataStore TorrentFiles SavedTorrents SeedGoals ValueStack Runs

section Plugin

variable (conversions : Conversions) (regExp : Value → Option (String → Bool))

/-- The operator `===`, on objects that were made apart from each other. -/
def strictlyEqual : Value → Value → Bool
  | .undefined, .undefined | .null, .null => true
  | .boolean left, .boolean right => left == right
  | .number left, .number right => decide (left ≠ .nan ∧ left = right)
  | .string left, .string right => left == right
  | _, _ => false

/-- `values.indexOf(sought) >= 0`, which throws where there is no such method. -/
def includes (values sought : Value) : Option Bool :=
  match values with
  | .array items _ => some (items.any fun item => strictlyEqual item sought)
  | .string text =>
      (conversions.propertyKey sought).map fun part =>
        text.toList.tails.any part.toList.isPrefixOf
  | _ => none

/-- What a loop from zero to the length goes over. -/
def elements : Value → Option (List Value)
  | .undefined | .null => none
  | .array items _ => some items
  | .string text => some (text.toList.map fun c => .string c.toString)
  | _ => some []

/-- The loop of `TagsFilter`. -/
def includesAll (held : Value) : List Value → Option Bool
  | [] => some true
  | tag :: rest => do
      if ← includes conversions held tag then includesAll held rest else some false

/-- The three filters, with what the configuration gives them. -/
inductive Filter where
  | pattern (regex : String → Bool) (field : Value)
  | tags (tags : Value)
  | label (label : Value)

/-- `isMatch` of the three filters, for a torrent with this name and what its
metadata hold under `tags` and `label`. -/
def Filter.isMatch (name : String) (tags label : Value) : Filter → Option Bool
  | .pattern regex field => some (isText field "name" && regex name)
  | .tags wanted =>
      if tags.truthy then (elements wanted).bind (includesAll conversions tags) else some false
  | .label wanted => some (label.truthy && strictlyEqual wanted label)

/-- A rule of the configuration: where to, and for which torrents. -/
structure Rule where
  path : Value
  filter : Filter

/-- The body of the loop of `getRules`. A filter of another name makes no rule. -/
def getRule (value : Value) : Option (Option Rule) := do
  let path ← value.member "path"
  let filter ← value.member "filter"
  let data ← value.member "data"
  if isText filter "pattern" then
    let regex ← regExp (← data.member "pattern")
    return some ⟨path, .pattern regex (← data.member "field")⟩
  else if isText filter "tags" then return some ⟨path, .tags data⟩
  else if isText filter "label" then return some ⟨path, .label data⟩
  else return none

/-- `getRules`. -/
def getRules (values : Value) : Option (List Rule) := do
  let rules ← (← elements values).mapM (getRule regExp)
  return rules.filterMap id

/-- `finished`: the path the torrent is moved to, if it is. The path is a part of
the line that is logged, and the native function takes a string. -/
def finished (name : String) (tags label : Value) : List Rule → Option (Option String)
  | [] => some none
  | rule :: rest => do
      if ← rule.filter.isMatch conversions name tags label then
        let _ ← conversions.concatText rule.path
        match rule.path with
        | .string path => some (some (cString path))
        | _ => none
      else finished name tags label rest

end Plugin

/-- The session with its metadata, and what the plugin did about each finished
torrent. -/
structure State where
  metadata : MetadataRuns.State
  answers : List (InfoHash × Option (Option String))

/-- A finished torrent is reported while its handle is valid. -/
inductive Event where
  | session (event : MetadataRuns.Event)
  | finish (infoHash : InfoHash) (name : String)

/-- One event: of the session, or a finished torrent, for which the rules give an
answer. -/
def step (conversions : Conversions) (rules : List Rule) (state : State) : Event → Option State
  | .session event =>
      (MetadataRuns.step conversions state.metadata event).map fun next =>
        { state with metadata := next }
  | .finish infoHash name =>
      if MetadataRuns.Present state.metadata.session infoHash then
        some { state with
          answers := state.answers ++ [(infoHash, finished conversions name
            (metadataOf state.metadata.store infoHash.text "tags")
            (metadataOf state.metadata.store infoHash.text "label") rules)] }
      else none

/-- The start, without answers. -/
def State.started : State := ⟨.started, []⟩

/-!
## What the rules say
-/

/-- The tags a torrent was given, if any, and its label. -/
structure Marks where
  tags : Option (List String)
  label : String

/-- A rule of one of the documented forms. -/
inductive Entry where
  | pattern (path : String) (regex : String → Bool)
  | tags (path : String) (tags : List String)
  | label (path label : String)

/-- Where the entry sends its torrents. -/
def Entry.path : Entry → String
  | .pattern path _ | .tags path _ | .label path _ => path

/-- The rule asks for the torrent. -/
def Entry.wants (name : String) (marks : Marks) : Entry → Bool
  | .pattern _ regex => regex name
  | .tags _ sought => marks.tags.any fun held => sought.all held.contains
  | .label _ sought => sought ≠ "" && sought = marks.label

/-- Where the torrent is to go. -/
def destination (entries : List Entry) (name : String) (marks : Marks) : Option String :=
  (entries.find? (Entry.wants name marks)).map fun entry => cString entry.path

/-- A value of the configuration spells the rule. -/
def Configures (regExp : Value → Option (String → Bool)) (value : Value) : Entry → Prop
  | .pattern path regex =>
      value.member "path" = some (.string path) ∧ value.member "filter" = some (.string "pattern") ∧
        ∃ data pattern, value.member "data" = some data ∧ data.member "pattern" = some pattern ∧
          data.member "field" = some (.string "name") ∧ regExp pattern = some regex
  | .tags path tags =>
      value.member "path" = some (.string path) ∧ value.member "filter" = some (.string "tags") ∧
        value.member "data" = some (.array (tags.map .string) [])
  | .label path label =>
      value.member "path" = some (.string path) ∧ value.member "filter" = some (.string "label") ∧
        value.member "data" = some (.string label)

/-- The metadata under the two keys are the marks. A label that is absent is one
that is empty. -/
def Marks.Shown (marks : Marks) (tags label : Value) : Prop :=
  tags = (marks.tags.map fun held => .array (held.map .string) []).getD .null ∧
    (label.orElse (.string "") = .string marks.label)

section Rules

variable (conversions : Conversions) (regExp : Value → Option (String → Bool))

/-- A list of texts includes its own. -/
theorem includes_strings (held : List String) (tag : String) :
    includes conversions (.array (held.map .string) []) (.string tag) =
      some (held.contains tag) := by
  have same : (fun item => strictlyEqual item (.string tag)) ∘ Value.string =
      fun own => own == tag := rfl
  rw [includes, List.any_map, same, List.contains_eq_any_beq]
  congr 2
  funext own
  exact Bool.beq_comm

/-- It includes all of a list where it has each of them. -/
theorem includesAll_strings (held tags : List String) :
    includesAll conversions (.array (held.map .string) []) (tags.map .string) =
      some (tags.all held.contains) := by
  induction tags with
  | nil => rfl
  | cons tag rest ih =>
    rw [List.map_cons, includesAll, includes_strings, ih, List.all_cons]
    cases held.contains tag <;> rfl

/-- A value that spells a rule makes one, which matches what the rule asks for and
has its path. -/
theorem getRule_configured (value : Value) (entry : Entry)
    (configured : Configures regExp value entry) :
    ∃ rule, getRule regExp value = some (some rule) ∧ rule.path = .string entry.path ∧
      ∀ name tags label marks, marks.Shown tags label →
        rule.filter.isMatch conversions name tags label = some (entry.wants name marks) := by
  cases entry with
  | pattern path regex =>
    obtain ⟨ownPath, filter, data, pattern, held, first, second, compiled⟩ := configured
    refine ⟨⟨.string path, .pattern regex (.string "name")⟩, ?_, rfl, fun name _ _ _ _ => ?_⟩
    · simp [getRule, ownPath, filter, held, first, second, compiled, isText]
    · simp [Filter.isMatch, isText, Entry.wants]
  | tags path tags =>
    obtain ⟨ownPath, filter, held⟩ := configured
    refine ⟨⟨.string path, .tags (.array (tags.map .string) [])⟩, ?_, rfl, ?_⟩
    · simp [getRule, ownPath, filter, held, isText]
    · rintro name _ label marks ⟨rfl, _⟩
      cases given : marks.tags with
      | none => simp [Filter.isMatch, Entry.wants, given, Value.truthy]
      | some own =>
        simp only [Filter.isMatch, Entry.wants, given, Option.map_some, Option.getD_some,
          Value.truthy, if_true, elements, Option.bind_some, includesAll_strings, Option.any_some]
  | label path label =>
    obtain ⟨ownPath, filter, held⟩ := configured
    refine ⟨⟨.string path, .label (.string label)⟩, ?_, rfl, ?_⟩
    · simp [getRule, ownPath, filter, held, isText]
    · rintro name tags own marks ⟨_, shown⟩
      by_cases given : own.truthy = true
      · rw [Value.orElse_truthy _ given] at shown
        subst shown
        simp only [Filter.isMatch, given, Bool.true_and, strictlyEqual, Entry.wants,
          Option.some.injEq]
        rw [Bool.eq_iff_iff]
        simp only [Value.truthy, decide_eq_true_eq] at given
        simp only [beq_iff_eq, Bool.and_eq_true, decide_eq_true_eq]
        exact ⟨fun same => ⟨same ▸ given, same⟩, And.right⟩
      · rw [Value.orElse_falsy _ (by simpa using given), Value.string.injEq] at shown
        have never : (label ≠ "" && label = marks.label) = false := by
          rw [← shown]
          by_cases same : label = "" <;> simp [same]
        simp only [Filter.isMatch, Entry.wants, never]
        simp [given]

/-- The rules are all made, and a finished torrent goes where the first of them
that asks for it says. -/
theorem getRules_configured (values : List Value) (named : Members) (entries : List Entry)
    (configured : List.Forall₂ (Configures regExp) values entries) :
    ∃ rules, getRules regExp (.array values named) = some rules ∧
      ∀ name tags label marks, marks.Shown tags label →
        finished conversions name tags label rules = some (destination entries name marks) := by
  induction configured with
  | nil => exact ⟨[], rfl, fun _ _ _ _ _ => rfl⟩
  | @cons value entry values entries first _ ih =>
    obtain ⟨rule, made, path, matched⟩ := getRule_configured conversions regExp value entry first
    obtain ⟨rules, others, later⟩ := ih
    obtain ⟨makes, all, kept⟩ : ∃ makes, values.mapM (getRule regExp) = some makes ∧
        makes.filterMap id = rules := by
      simpa [getRules, elements, Option.bind_eq_some_iff] using others
    refine ⟨rule :: rules, ?_, fun name tags label marks shown => ?_⟩
    · simp [getRules, elements, made, all, ← kept]
    · rw [finished, matched name tags label marks shown, path, destination, List.find?_cons]
      cases wanted : entry.wants name marks with
      | true => simp [conversions.concatText_string]
      | false => simpa [destination] using later name tags label marks shown

end Rules

/-!
## What a run does to the marks
-/

/-- The texts of an array. -/
def textsOf : Value → List String
  | .array items _ => items.filterMap fun item => match item with
      | .string text => some text
      | _ => none
  | _ => []

/-- A text, or none. -/
def textOf : Value → String
  | .string text => text
  | _ => ""

/-- A list of texts has these texts. -/
theorem textsOf_strings (texts : List String) (named : Members) :
    textsOf (.array (texts.map .string) named) = texts := by
  rw [textsOf, List.filterMap_map]
  exact List.filterMap_some

/-- The marks a torrent has after its add was handled. Those of the request
replace the ones it had; a rule of AutoLabel gives a label where there is none. -/
def Marks.added (marks : Marks) (metadata : Option MetadataMap) (rule : Option String) : Marks where
  tags := ((valueOf metadata "tags").map textsOf).or marks.tags
  label :=
    let own := ((valueOf metadata "label").map textOf).getD marks.label
    if own = "" then rule.getD "" else own

/-- The marks after a property was set through the web interface. -/
def Marks.set (marks : Marks) (key : String) : Value → Marks
  | .string label => if key = "label" then { marks with label := label } else marks
  | _ => marks

/-- The label that a rule of AutoLabel would give. -/
def ruleLabel (reads : MetadataRuns.Reads) : Option String :=
  reads.label.map fun label => textOf label.document.toValue

/-- The run with the marks of each torrent, and where they send the finished ones. -/
structure Traced where
  state : State
  marks : InfoHash → Marks
  destinations : List (InfoHash × Option String)

/-- Of all that is written to the metadata, the adds and the labels that are set
count. -/
def marksAfter (traced : Traced) : Event → InfoHash → Marks
  | .session (.setProperty infoHash key value) =>
      Function.update traced.marks infoHash ((traced.marks infoHash).set key value)
  | .session (.handle reads) =>
      match traced.state.metadata.queued with
      | .torrentAdd _ _ metadata :: _ =>
          Function.update traced.marks reads.infoHash
            ((traced.marks reads.infoHash).added metadata (ruleLabel reads))
      | _ => traced.marks
  | _ => traced.marks

/-- A finished torrent is sent where its marks say. -/
def destinationsAfter (entries : List Entry) (traced : Traced) :
    Event → List (InfoHash × Option String)
  | .finish infoHash name =>
      traced.destinations ++ [(infoHash, destination entries name (traced.marks infoHash))]
  | _ => traced.destinations

/-- A step with the marks and destinations it should have. -/
def tracedStep (conversions : Conversions) (rules : List Rule) (entries : List Entry)
    (traced : Traced) (event : Event) : Option Traced :=
  (step conversions rules traced.state event).map fun next =>
    ⟨next, marksAfter traced event, destinationsAfter entries traced event⟩

/-- The start, without marks or destinations. -/
def Traced.started : Traced := ⟨.started, fun _ => ⟨none, ""⟩, []⟩

/-- The tags of a request are texts, and so is its label. -/
def Textual (metadata : Option MetadataMap) : Prop :=
  (∀ value, valueOf metadata "tags" = some value →
    ∃ tags : List String, value = .array (tags.map .string) []) ∧
  ∀ value, valueOf metadata "label" = some value → ∃ label, value = .string label

/-- What is given with an add or by a rule of AutoLabel is of the documented form,
and the default options that are configured can be logged. -/
def Event.Documented (conversions : Conversions) : Event → Prop
  | .session (.add _ _ metadata) => Textual metadata
  | .session (.handle reads) =>
      (∀ label, reads.label = some label → ∃ text, label.document.toValue = .string text) ∧
        logged conversions (defaultsOf reads.configured) = some ()
  | _ => True

/-- All torrents show their marks. -/
def AllShown (store : Store) (marks : InfoHash → Marks) : Prop :=
  ∀ infoHash : InfoHash, (marks infoHash).Shown (metadataOf store infoHash.text "tags")
    (metadataOf store infoHash.text "label")

/-- What is queued is documented, and what is stored shows the marks. -/
structure Invariant (traced : Traced) : Prop where
  queued : ∀ infoHash number metadata,
    MetadataRuns.Alert.torrentAdd infoHash number metadata ∈ traced.state.metadata.queued →
      Textual metadata
  shown : AllShown traced.state.metadata.store traced.marks
  answers : traced.state.answers =
    traced.destinations.map fun entry => (entry.1, some entry.2)

/-- Metadata that were never written are null. -/
theorem metadataOf_eq (store : Store) (infoHash key : String) :
    metadataOf store infoHash key = (valueOf (store infoHash) key).getD .null := by
  rw [metadataOf, valueOf]
  cases documentOf (store infoHash) key <;> rfl

/-- The completion of a request leaves its members other than the options. -/
theorem lookup_completion (options : Members) (source : Option MetadataMap) (key : String)
    (other : key ≠ "options") : (completion options source).lookup key = valueOf source key := by
  have own : ((source.map MetadataMap.values).getD []).lookup key = valueOf source key := by
    cases source with
    | none => rfl
    | some map => exact lookup_values_eq map key
  rw [completion]
  split
  · exact own
  · rw [lookup_assign_of_ne "options" key _ _ other, own]

section Adds

variable (conversions : Conversions) (reads : MetadataRuns.Reads) (metadata : Option MetadataMap)
  (store : Store)

/-- A rule with a text gives its label. -/
theorem given_eq
    (ruled : ∀ label, reads.label = some label → ∃ text, label.document.toValue = .string text) :
    reads.given conversions = reads.label := by
  unfold MetadataRuns.Reads.given
  cases rule : reads.label with
  | none => rfl
  | some label =>
    obtain ⟨text, spelled⟩ := ruled label rule
    simp [spelled, conversions.concatText_string]

variable (returns : MetadataRuns.Returns conversions reads metadata)
include returns

/-- What core.js leaves under a key other than the options: what the request has,
or else what was there. -/
theorem valueOf_torrentAdd (key : String) (other : key ≠ "options") :
    valueOf (torrentAdd conversions reads.configured reads.infoHash.text
        (metadata.map MetadataMap.document) store reads.infoHash.text) key =
      (valueOf metadata key).or (valueOf (store reads.infoHash.text) key) := by
  obtain ⟨_, _, read⟩ :=
    MetadataRuns.torrentAdd_configured conversions reads metadata store returns
  obtain ⟨_, plain⟩ := defaultsOf_spec _ (MetadataRuns.configured_plain reads)
  rw [valueOf, read, ← lookup_completion (defaultsOf reads.configured) metadata key other]
  split
  · rename_i inside
    obtain ⟨value, document, found, encoded, decoded⟩ :=
      completion_encodable _ plain metadata key inside
    simp [found, encoded, decoded]
  · rename_i outside
    rw [← lookup_isSome_iff, Option.not_isSome_iff_eq_none] at outside
    rw [outside, Option.none_or, valueOf]

omit returns in
/-- The plugin AutoLabel reads a label as it is shown. -/
theorem truthy_label (label : Value) (text : String)
    (shown : label.orElse (.string "") = .string text) :
    label.truthy = decide (text ≠ "") ∧ (label.truthy = true → label = .string text) := by
  by_cases given : label.truthy = true
  · rw [Value.orElse_truthy _ given] at shown
    subst shown
    exact ⟨rfl, fun _ => rfl⟩
  · rw [Value.orElse_falsy _ (by simpa using given), Value.string.injEq] at shown
    subst shown
    exact ⟨by simpa using given, fun same => absurd same given⟩

/-- The tags of a request replace those that were there. -/
theorem tags_added (textual : Textual metadata) (marks : Marks) (rule : Option String)
    (shown : metadataOf store reads.infoHash.text "tags" =
      (marks.tags.map fun held => Value.array (held.map .string) []).getD .null) :
    metadataOf (MetadataRuns.addHandlers conversions reads metadata store)
        reads.infoHash.text "tags" =
      ((marks.added metadata rule).tags.map fun held =>
        Value.array (held.map .string) []).getD .null := by
  have unlabelled := (MetadataRuns.autoLabel_frame reads.infoHash.text (reads.given conversions)
    (torrentAdd conversions reads.configured reads.infoHash.text
      (metadata.map MetadataMap.document) store)).2.2 "tags" (fun same => by simp at same)
  rw [metadataOf_eq] at shown
  rw [metadataOf_eq, valueOf,
    MetadataRuns.addHandlers_returns conversions reads metadata store returns, unlabelled, ← valueOf,
    valueOf_torrentAdd conversions reads metadata store returns "tags" (by decide), Marks.added]
  cases requested : valueOf metadata "tags" with
  | none => simpa using shown
  | some value =>
    obtain ⟨tags, rfl⟩ := textual.1 value requested
    simp [textsOf_strings]

/-- The label of a request replaces the one that was there, and AutoLabel gives one
where there is none. -/
theorem label_added (textual : Textual metadata)
    (ruled : ∀ label, reads.label = some label → ∃ text, label.document.toValue = .string text)
    (marks : Marks)
    (shown : (metadataOf store reads.infoHash.text "label").orElse (.string "") =
      .string marks.label) :
    (metadataOf (MetadataRuns.addHandlers conversions reads metadata store)
        reads.infoHash.text "label").orElse (.string "") =
      .string (marks.added metadata (ruleLabel reads)).label := by
  have core := valueOf_torrentAdd conversions reads metadata store returns "label" (by decide)
  generalize made : torrentAdd conversions reads.configured reads.infoHash.text
    (metadata.map MetadataMap.document) store = written at core
  have own : ((valueOf (written reads.infoHash.text) "label").getD .null).orElse (.string "") =
      .string (((valueOf metadata "label").map textOf).getD marks.label) := by
    rw [core]
    cases requested : valueOf metadata "label" with
    | none => simpa [metadataOf_eq] using shown
    | some value =>
      obtain ⟨label, rfl⟩ := textual.2 value requested
      by_cases empty : label = "" <;> simp [Value.orElse, Value.truthy, textOf, empty]
  obtain ⟨truthy, same⟩ := truthy_label _ _ own
  rw [metadataOf_eq, MetadataRuns.addHandlers_returns conversions reads metadata store returns,
    made, given_eq conversions reads ruled, Marks.added, ruleLabel]
  cases rule : reads.label with
  | none =>
    rw [MetadataRuns.autoLabel, own]
    dsimp only [Option.map_none, Option.getD_none]
    split
    · rename_i empty
      rw [empty]
    · rfl
  | some label =>
    obtain ⟨text, spelled⟩ := ruled label rule
    obtain ⟨document, encoded, decoded⟩ :=
      Json.toValue_ofValue _ (Json.plain_toValue label.document)
    have given := label.given
    have after : valueOf (MetadataRuns.autoLabel reads.infoHash.text (some label) written
        reads.infoHash.text) "label" =
        if ((valueOf (written reads.infoHash.text) "label").getD .null).truthy then
          valueOf (written reads.infoHash.text) "label"
        else some (.string text) := by
      rw [valueOf, MetadataRuns.documentOf_autoLabel, ← valueOf]
      split
      · rfl
      · rw [encoded, Option.map_some, decoded, spelled]
    rw [after, truthy]
    simp only [Option.map_some, Option.getD_some, spelled, textOf, decide_eq_true_eq, ite_not]
    split
    · by_cases empty : text = "" <;> simp [Value.orElse, Value.truthy, empty]
    · exact own

/-- The handlers of an add leave the marks they should. -/
theorem shown_added (textual : Textual metadata)
    (ruled : ∀ label, reads.label = some label → ∃ text, label.document.toValue = .string text)
    (marks : Marks) (shown : marks.Shown (metadataOf store reads.infoHash.text "tags")
      (metadataOf store reads.infoHash.text "label")) :
    (marks.added metadata (ruleLabel reads)).Shown
      (metadataOf (MetadataRuns.addHandlers conversions reads metadata store)
        reads.infoHash.text "tags")
      (metadataOf (MetadataRuns.addHandlers conversions reads metadata store)
        reads.infoHash.text "label") :=
  ⟨tags_added conversions reads metadata store returns textual marks _ shown.1,
    label_added conversions reads metadata store returns textual ruled marks shown.2⟩

end Adds

section Steps

variable (conversions : Conversions)

/-- Writes leave what they are not made to. -/
theorem documentOf_writeAll_other (infoHash : String) (writes : List (String × Value))
    (store : Store) (tested : String)
    (others : ∀ entry ∈ writes, entry.1 ≠ migrateKey ∧ tested ≠ entry.1) :
    documentOf (MetadataRuns.writeAll infoHash writes store infoHash) tested =
      documentOf (store infoHash) tested := by
  induction writes generalizing store with
  | nil => rfl
  | cons entry rest ih =>
    obtain ⟨key, value⟩ := entry
    obtain ⟨ordinary, distinct⟩ := others _ List.mem_cons_self
    have frame := (MetadataRuns.setMetadata_frame store infoHash key value ordinary).2.2
      tested distinct
    rw [MetadataRuns.writeAll]
    cases wrote : setMetadata store infoHash key value with
    | none => rfl
    | some written =>
      rw [wrote, Option.getD_some] at frame
      rw [← frame]
      exact ih written fun later member => others later (List.mem_cons_of_mem _ member)

/-- A property other than the label is one of the options, if it is metadata. -/
theorem setProperty_options (options : Value) (key : String) (value : Value)
    (other : key ≠ "label") :
    ∀ entry ∈ HashUpdates.setProperty conversions options key value, entry.1 = "options" := by
  have option : ∀ name value, ∀ entry ∈ HashUpdates.withOption options name value,
      entry.1 = "options" := by
    intro name value entry member
    unfold HashUpdates.withOption at member
    split at member
    · rw [List.mem_singleton.mp member]
    · cases member
  intro entry member
  unfold HashUpdates.setProperty at member
  rw [if_neg other] at member
  split at member
  · exact option _ _ entry member
  · split at member
    · split at member
      · exact option _ _ entry member
      · cases member
    · split at member
      · split at member
        · exact option _ _ entry member
        · cases member
      · cases member

/-- A property that is set changes the marks of its torrent as it should. -/
theorem shown_set (store : Store) (infoHash : InfoHash) (key : String) (value : Value)
    (marks : Marks) (shown : marks.Shown (metadataOf store infoHash.text "tags")
      (metadataOf store infoHash.text "label")) :
    let written := MetadataRuns.writeAll infoHash.text
      (HashUpdates.setProperty conversions (metadataOf store infoHash.text "options") key value)
      store
    (marks.set key value).Shown (metadataOf written infoHash.text "tags")
      (metadataOf written infoHash.text "label") := by
  intro written
  have kept : ∀ tested, (∀ entry ∈ HashUpdates.setProperty conversions
      (metadataOf store infoHash.text "options") key value, tested ≠ entry.1) →
      metadataOf written infoHash.text tested = metadataOf store infoHash.text tested := by
    intro tested others
    rw [metadataOf, documentOf_writeAll_other infoHash.text _ store tested fun entry member =>
      ⟨HashUpdates.setProperty_ordinary conversions _ key value entry member, others entry member⟩,
      ← metadataOf]
  have tags : metadataOf written infoHash.text "tags" = metadataOf store infoHash.text "tags" := by
    refine kept "tags" fun entry member same => ?_
    rcases RepeatedAdds.setProperty_keys conversions _ key value entry member with own | own <;>
      simp [own] at same
  by_cases labels : key = "label"
  · subst labels
    cases value with
    | string label =>
      obtain ⟨next, wrote, _, _, read⟩ := setMetadata_spec store infoHash.text "label"
        (.string label) (.string label) (by decide) rfl
      have made : written = next := by
        simp [written, HashUpdates.setProperty, MetadataRuns.writeAll, wrote]
      have own : metadataOf next infoHash.text "label" = .string label := by
        rw [metadataOf, read, if_pos rfl]
        rfl
      refine ⟨by rw [tags]; exact shown.1, ?_⟩
      rw [made, own]
      by_cases empty : label = "" <;> simp [Value.orElse, Value.truthy, Marks.set, empty]
    | _ => exact shown
  · have label := kept "label" fun entry member same => by
      rw [setProperty_options conversions _ key value labels entry member] at same
      simp at same
    have unset : marks.set key value = marks := by
      cases value with
      | string text => exact if_neg labels
      | _ => rfl
    rw [unset, tags, label]
    exact shown

/-- A change that is about one torrent. -/
theorem allShown_update {store written : Store} {marks : InfoHash → Marks} {changed : InfoHash}
    {own : Marks} (shown : AllShown store marks)
    (elsewhere : ∀ other ≠ changed.text, written other = store other)
    (changes : own.Shown (metadataOf written changed.text "tags")
      (metadataOf written changed.text "label")) :
    AllShown written (Function.update marks changed own) := by
  intro infoHash
  by_cases same : infoHash = changed
  · subst same
    rw [Function.update_self]
    exact changes
  · rw [Function.update_of_ne same, metadataOf, metadataOf, elsewhere _ (InfoHash.text_ne same)]
    exact shown infoHash

/-- A write of the internal key is none of tags or label. -/
theorem allShown_of_frame {store written : Store} {marks : InfoHash → Marks} {changed : InfoHash}
    (shown : AllShown store marks)
    (elsewhere : ∀ other ≠ changed.text, written other = store other)
    (others : ∀ key ≠ pauseKey, documentOf (written changed.text) key =
      documentOf (store changed.text) key) : AllShown written marks := by
  have own : (marks changed).Shown (metadataOf written changed.text "tags")
      (metadataOf written changed.text "label") := by
    rw [metadataOf, metadataOf, others "tags" (by decide), others "label" (by decide)]
    exact shown changed
  have whole := allShown_update shown elsewhere own
  rwa [Function.update_eq_self] at whole

/-- A handler leaves the marks as the trace says. -/
theorem allShown_handled (traced : Traced) (reads : MetadataRuns.Reads)
    (alert : MetadataRuns.Alert) (rest : List MetadataRuns.Alert) (store : Store)
    (queue : traced.state.metadata.queued = alert :: rest)
    (handled : MetadataRuns.handle conversions traced.state.metadata.session reads alert
      traced.state.metadata.store = some store)
    (documented : (Event.session (.handle reads)).Documented conversions)
    (textual : ∀ infoHash number metadata,
      alert = .torrentAdd infoHash number metadata → Textual metadata)
    (shown : AllShown traced.state.metadata.store traced.marks) :
    AllShown store (marksAfter traced (.session (.handle reads))) := by
  cases alert with
  | torrentAdd infoHash number metadata =>
    simp only [MetadataRuns.handle, Option.ite_none_right_eq_some, Option.some.injEq] at handled
    obtain ⟨_, rfl⟩ := handled
    simp only [marksAfter, queue]
    have returns : MetadataRuns.Returns conversions reads metadata :=
      .of_logged metadata documented.2
    exact allShown_update shown
      (MetadataRuns.addHandlers_elsewhere conversions reads metadata _)
      (shown_added conversions reads metadata _ returns (textual _ _ _ rfl) documented.1 _
        (shown reads.infoHash))
  | torrentChecked infoHash number =>
    simp only [MetadataRuns.handle, Option.ite_none_right_eq_some, Option.some.injEq] at handled
    obtain ⟨_, rfl⟩ := handled
    obtain ⟨elsewhere, _, _, others⟩ :=
      torrentChecked_frame reads.infoHash.text traced.state.metadata.store
    simp only [marksAfter, queue]
    exact allShown_of_frame shown elsewhere others
  | torrentRemoved infoHash =>
    obtain rfl := Option.some.inj handled
    simpa only [marksAfter, queue] using shown

/-- The metadata change as the marks do. -/
theorem session_step (traced : Traced) (event : MetadataRuns.Event) (next : MetadataRuns.State)
    (invariant : Invariant traced) (documented : (Event.session event).Documented conversions)
    (stepped : MetadataRuns.step conversions traced.state.metadata event = some next) :
    (∀ infoHash number metadata,
      MetadataRuns.Alert.torrentAdd infoHash number metadata ∈ next.queued → Textual metadata) ∧
    AllShown next.store (marksAfter traced (.session event)) := by
  have outcome := MetadataRuns.step_cases conversions traced.state.metadata event next stepped
  have queued := invariant.queued
  cases event with
  | add infoHash hasMetadata metadata =>
    obtain ⟨_, rfl⟩ := outcome
    refine ⟨fun tested number requested member => ?_, invariant.shown⟩
    rcases List.mem_append.mp member with before | added
    · exact queued tested number requested before
    · obtain ⟨_, _, rfl⟩ : tested = infoHash ∧ _ ∧ requested = metadata := by simpa using added
      exact documented
  | remove infoHash =>
    obtain ⟨_, rfl⟩ := outcome
    refine ⟨fun tested number requested member => ?_, invariant.shown⟩
    rcases List.mem_append.mp member with before | added
    · exact queued tested number requested before
    · simp at added
  | finishCheck infoHash =>
    obtain ⟨_, rfl⟩ := outcome
    refine ⟨fun tested number requested member => ?_, invariant.shown⟩
    rcases List.mem_append.mp member with before | added
    · exact queued tested number requested before
    · simp at added
  | setProperty infoHash key value =>
    obtain ⟨_, rfl⟩ := outcome
    refine ⟨queued, allShown_update invariant.shown ?_ ?_⟩
    · exact MetadataRuns.writeAll_elsewhere infoHash.text _ _
        (HashUpdates.setProperty_ordinary conversions _ key value)
    · exact shown_set conversions _ infoHash key value _ (invariant.shown infoHash)
  | recheck infoHash =>
    obtain ⟨_, rfl⟩ := outcome
    obtain ⟨elsewhere, _, others⟩ := MetadataRuns.setMetadata_frame
      traced.state.metadata.store infoHash.text pauseKey (.boolean true) (by decide)
    exact ⟨queued, allShown_of_frame invariant.shown elsewhere others⟩
  | handle reads =>
    obtain ⟨alert, rest, store, queue, handled, rfl⟩ := outcome
    have textual : ∀ infoHash number metadata,
        MetadataRuns.Alert.torrentAdd infoHash number metadata ∈ alert :: rest →
          Textual metadata := by rwa [queue] at queued
    refine ⟨fun infoHash number metadata member =>
      textual infoHash number metadata (List.mem_cons_of_mem alert member), ?_⟩
    refine allShown_handled conversions traced reads alert rest store queue handled
      documented (fun infoHash number metadata same => ?_) invariant.shown
    exact textual infoHash number metadata (same ▸ List.mem_cons_self)

/-- A step keeps the invariant: the plugin answers as the marks say. -/
theorem invariant_step (rules : List Rule) (entries : List Entry)
    (answered : ∀ name tags label marks, marks.Shown tags label →
      finished conversions name tags label rules = some (destination entries name marks))
    (traced : Traced) (event : Event) (next : Traced) (invariant : Invariant traced)
    (documented : event.Documented conversions)
    (stepped : tracedStep conversions rules entries traced event = some next) :
    Invariant next := by
  obtain ⟨state, moved, rfl⟩ := Option.map_eq_some_iff.mp stepped
  cases event with
  | session event =>
    obtain ⟨metadata, changed, rfl⟩ := Option.map_eq_some_iff.mp moved
    obtain ⟨queued, shown⟩ := session_step conversions traced event metadata invariant
      documented changed
    exact ⟨queued, shown, invariant.answers⟩
  | finish infoHash name =>
    simp only [step, Option.ite_none_right_eq_some, Option.some.injEq] at moved
    obtain ⟨_, rfl⟩ := moved
    refine ⟨invariant.queued, invariant.shown, ?_⟩
    simp [destinationsAfter, invariant.answers,
      answered name _ _ _ (invariant.shown infoHash)]

end Steps

/-- In every run in which tags and labels are texts and the default options can be
logged, whatever else is written to the metadata and in whatever order, a plugin
with rules of the documented forms moves each finished torrent to where the marks
it was given last send it, and never throws. -/
theorem finished_torrents_go_where_marked (conversions : Conversions)
    (regExp : Value → Option (String → Bool)) (values : List Value) (named : Members)
    (entries : List Entry) (configured : List.Forall₂ (Configures regExp) values entries) :
    ∃ rules, getRules regExp (.array values named) = some rules ∧
      ∀ events, (∀ event ∈ events, event.Documented conversions) → ∀ final,
        run (tracedStep conversions rules entries) .started events = some final →
          final.state.answers = final.destinations.map fun entry => (entry.1, some entry.2) := by
  obtain ⟨rules, made, answered⟩ :=
    getRules_configured conversions regExp values named entries configured
  refine ⟨rules, made, fun events documented final ran => ?_⟩
  have initial : Invariant .started :=
    ⟨fun _ _ _ member => absurd member List.not_mem_nil, fun _ => ⟨rfl, rfl⟩, rfl⟩
  have guarded : Guarded (tracedStep conversions rules entries)
      (fun _ event => event.Documented conversions) .started events :=
    guarded_of_forall events Traced.started documented
  have kept : Invariant final := guarded_invariant
    (invariant_step conversions rules entries answered) events _ final initial guarded ran
  exact kept.answers

/-- The rules of the documentation. -/
def documentedRules : List Value :=
  [.object [("path", .string "C:/Debian"), ("filter", .string "pattern"),
      ("data", .object [("pattern", .string "debian"), ("field", .string "name")])],
    .object [("path", .string "C:/ISOs"), ("filter", .string "tags"),
      ("data", .array [.string "debian", .string "iso"] [])],
    .object [("path", .string "C:/Mine"), ("filter", .string "label"),
      ("data", .string "mine")]]

/-- The entries of the documented configuration. -/
def documentedEntries : List Entry :=
  [.pattern "C:/Debian" fun tested => tested.toList.tails.any "debian".toList.isPrefixOf,
    .tags "C:/ISOs" ["debian", "iso"], .label "C:/Mine" "mine"]

/-- The documented configuration is made of these entries. -/
theorem configures_documented :
    List.Forall₂ (Configures AutoLabel.literally) documentedRules documentedEntries := by
  refine .cons ⟨rfl, rfl, _, _, rfl, rfl, rfl, rfl⟩ (.cons ⟨rfl, rfl, rfl⟩ (.cons ?_ .nil))
  exact ⟨rfl, rfl, rfl⟩

/-- The documented configuration, with every run of documented events. -/
theorem finished_torrents_go_where_marked_documented :
    ∃ rules, getRules AutoLabel.literally (.array documentedRules []) = some rules ∧
      ∀ events, (∀ event ∈ events, event.Documented plainConversions) → ∀ final,
        run (tracedStep plainConversions rules documentedEntries) .started events = some final →
          final.state.answers = final.destinations.map fun entry => (entry.1, some entry.2) :=
  finished_torrents_go_where_marked plainConversions
    AutoLabel.literally documentedRules [] documentedEntries configures_documented

/-- A torrent is added with tags, gets a label, and finishes. Its tags decide. -/
example : ((run (tracedStep plainConversions [] documentedEntries) .started
    [.session (.add .ones true (some (.put .empty "tags"
        (.array [.string "iso", .string "debian"]) (by decide)))),
      .session (.handle MetadataRuns.plainReads),
      .session (.setProperty .ones "label" (.string "mine")), .finish .ones "a.iso"]).map
    Traced.destinations) = some [(.ones, some "C:/ISOs")] := by rfl

end Hadouken.AutoMove
