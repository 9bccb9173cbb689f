import Hadouken.Library.Tallies
import Hadouken.Dispatch
import Hadouken.PropertiesRoundTrip

/-!
# The list of torrents

`webui.list` answers with a row for each torrent and with the labels, each with
the number of its torrents. The numbers are kept in a plain object under the
labels, which are texts that users choose: a label that every object has as the
name of an inherited property is never missing there.

The status of a torrent has no queue position, so that its column is undefined.
-/

namespace Hadouken.TorrentList

open Script MetadataStore HashUpdates TorrentProperties Dispatch Tallies

/-- What the list uses of a torrent's status. -/
structure Status where
  name : String
  isPaused : Bool
  autoManaged : Bool
  state : Int
  error : String
  progress : ℚ
  downloadedBytesTotal : Int
  uploadedBytesTotal : Int
  ratio : ℚ
  uploadRate : Int
  downloadRate : Int
  eta : ℚ
  numPeers : Int
  numSeeds : Int
  listPeers : Int
  listSeeds : Int
  distributedCopies : ℚ
  wantedBytes : Int
  addedTime : Int
  completedTime : Int
  savePath : String

/-- A torrent of the session, with the total size where its metadata is known. -/
structure Torrent where
  infoHash : String
  status : Status
  info : Option Int

/-- The bits of the state column. -/
def stateOf (status : Status) : Nat :=
  (if status.isPaused then 0 else 1) |||
    (if status.state = 0 ∨ status.state = 1 ∨ status.state = 7 then 2 else 0) |||
    (if status.error ≠ "" then 16 else 0) |||
    (if !status.autoManaged && status.isPaused then 32 else 0) |||
    (if status.autoManaged && status.isPaused then 64 else 0)

/-- Thousandths, cut to an integer. -/
def perMille (value : ℚ) : Value := .integer (toInt32 (scale 1000 (.finite value)))

/-- `torrent.metadata("label")`. -/
def labelOf (store : Store) (torrent : Torrent) : Value := metadataOf store torrent.infoHash "label"

/-- A torrent's row. -/
def rowOf (store : Store) (torrent : Torrent) : Value :=
  let status := torrent.status
  let totalSize := torrent.info.getD (-1)
  .array [
    .string torrent.infoHash,
    .integer (stateOf status),
    .string status.name,
    .integer totalSize,
    perMille status.progress,
    .integer status.downloadedBytesTotal,
    .integer status.uploadedBytesTotal,
    perMille status.ratio,
    .integer status.uploadRate,
    .integer status.downloadRate,
    .number (.finite status.eta),
    (labelOf store torrent).orElse (.string ""),
    .integer (status.numPeers - status.numSeeds),
    .integer status.listPeers,
    .integer status.numSeeds,
    .integer status.listSeeds,
    .number (.finite status.distributedCopies),
    .undefined,
    .integer (if totalSize > 0 then totalSize - status.wantedBytes else -1),
    .string "",
    .string "",
    .string status.error,
    .string "",
    .integer status.addedTime,
    .integer status.completedTime,
    .string "",
    .string status.savePath] []

section Labels

variable (conversions : Conversions)

/-- The value `held + 1`: of what converts to a text, the text with a digit. -/
def plusOne : Value → Option Value
  | .number (.finite value) => some (.number (.finite (value + 1)))
  | .number other => some (.number other)
  | .undefined => some (.number .nan)
  | .null => some (.integer 1)
  | .boolean flag => some (.integer (flag.toNat + 1))
  | held => (conversions.concatText held).map fun text => .string (text ++ "1")

/-- `labels[key] = value` for a value that is no object: the prototype takes no
such value. -/
def assignOwn (key : String) (value : Value) (labels : Members) : Members :=
  if key = "__proto__" then labels else assign key value labels

/-- The label of a torrent is counted. -/
def countLabel (store : Store) (labels : Members) (torrent : Torrent) : Option Members := do
  let label := labelOf store torrent
  if label.truthy then
    let key ← conversions.propertyKey label
    let held := property labels key
    if held.truthy then return assignOwn key (← plusOne conversions held) labels
    else return assignOwn key (.integer 1) labels
  else return labels

/-- `labelList`, from the object's own members, which the engine lists in the order
they were made in. -/
def labelList (labels : Members) : List Value :=
  labels.map fun entry => .array [.string entry.1, entry.2] []

/-- `webui.list`. It has no result where it throws. -/
def list (store : Store) (torrents : List Torrent) : Option Value := do
  let labels ← torrents.foldlM (countLabel conversions store) []
  return .object [("label", .array (labelList labels) []),
    ("torrents", .array (torrents.map (rowOf store)) [])]

end Labels

/-- The label column of a row. -/
def labelColumn : Value → Option String
  | .array items _ =>
      match items.getD 11 .undefined with
      | .string label => some label
      | _ => none
  | _ => none

/-- The rows that carry a label. -/
def carrying (rows : List Value) (label : String) : Nat :=
  rows.countP fun row => labelColumn row = some label

/-- The rows that carry any. -/
def labelled (rows : List Value) : Nat :=
  rows.countP fun row => (labelColumn row).any fun label => label ≠ ""

/-- The entries are the labels of the rows, each once and with its number. -/
def Counted (rows entries : List Value) : Prop :=
  ∃ counts : List (String × Nat),
    entries = counts.map (fun entry => .array [.string entry.1, .integer entry.2] []) ∧
    (counts.map Prod.fst).Nodup ∧
    (∀ label number, (label, number) ∈ counts ↔
      label ≠ "" ∧ 0 < number ∧ carrying rows label = number) ∧
    (counts.map Prod.snd).sum = labelled rows

/-- The method answers, with the labels counted. -/
def CountsLabels (conversions : Conversions) (store : Store) (torrents : List Torrent) : Prop :=
  ∃ rows entries, list conversions store torrents =
    some (.object [("label", .array entries []), ("torrents", .array rows [])]) ∧
    Counted rows entries

/-- The label of the torrent, if there is one, is a text. -/
def TextLabel (store : Store) (torrent : Torrent) : Prop :=
  labelOf store torrent = .null ∨ ∃ label, labelOf store torrent = .string label

/-- No torrent's label is the name of an inherited property. -/
def OwnLabels (store : Store) (torrents : List Torrent) : Prop :=
  ∀ torrent ∈ torrents, ∀ label, labelOf store torrent = .string label →
    label ∉ objectPrototype.map Prod.fst

/-- The label of a torrent, as the list shows it. -/
def textOf (store : Store) (torrent : Torrent) : String :=
  match labelOf store torrent with
  | .string label => label
  | _ => ""

/-- The labels that are counted. -/
def labelsOf (store : Store) (torrents : List Torrent) : List String :=
  (torrents.map (textOf store)).filter fun label => label ≠ ""

section Rows

variable (store : Store)

/-- Its label column has the label. -/
theorem labelColumn_rowOf (torrent : Torrent) (text : TextLabel store torrent) :
    labelColumn (rowOf store torrent) = some (textOf store torrent) := by
  rcases text with none | ⟨label, own⟩
  · simp [labelColumn, rowOf, textOf, none, Value.orElse, Value.truthy]
  · by_cases empty : label = ""
    · simp [labelColumn, rowOf, textOf, own, Value.orElse, Value.truthy, empty]
    · simp [labelColumn, rowOf, textOf, own, Value.orElse, Value.truthy, empty]

variable (torrents : List Torrent) (texts : ∀ torrent ∈ torrents, TextLabel store torrent)
include texts

/-- The rows with a label are those of its torrents. -/
theorem carrying_rows (label : String) :
    carrying (torrents.map (rowOf store)) label = (torrents.map (textOf store)).count label := by
  rw [carrying, List.countP_map, List.count, List.countP_map]
  refine List.countP_congr fun torrent member => ?_
  simp [labelColumn_rowOf store torrent (texts torrent member)]

/-- The rows with any label are those of labelled torrents. -/
theorem labelled_rows :
    labelled (torrents.map (rowOf store)) = (labelsOf store torrents).length := by
  rw [labelled, labelsOf, ← List.countP_eq_length_filter, List.countP_map, List.countP_map]
  refine List.countP_congr fun torrent member => ?_
  simp [labelColumn_rowOf store torrent (texts torrent member)]

end Rows

section Counting

variable (conversions : Conversions) (store : Store)

/-- Numbers as the object holds them. -/
def numbered (counts : List (String × Nat)) : Members :=
  counts.map fun entry => (entry.1, .integer entry.2)

/-- The list of labels has their numbers. -/
theorem labelList_numbered (counts : List (String × Nat)) : labelList (numbered counts) =
    counts.map fun entry => .array [.string entry.1, .integer entry.2] [] := by
  rw [labelList, numbered, List.map_map]
  rfl

/-- A label that is no inherited name reads its own number. -/
theorem property_numbered (counts : List (String × Nat)) (label : String)
    (own : label ∉ objectPrototype.map Prod.fst) : property (numbered counts) label =
      ((counts.lookup label).map fun number : Nat =>
        Value.integer (number : Int)).getD .undefined := by
  have inherited : objectPrototype.lookup label = none := by
    rw [← Option.not_isSome_iff_eq_none, lookup_isSome_iff]
    exact own
  rw [property, inherited, numbered, lookup_map (fun number : Nat => Value.integer (number : Int))]
  rfl

/-- A torrent without a label is not counted. -/
theorem countLabel_blank (labels : Members) (torrent : Torrent) (text : TextLabel store torrent)
    (blank : textOf store torrent = "") :
    countLabel conversions store labels torrent = some labels := by
  rcases text with none | ⟨label, own⟩
  · simp [countLabel, none, Value.truthy]
  · have empty : label = "" := by simpa [textOf, own] using blank
    simp [countLabel, own, empty, Value.truthy]

/-- A label that is given is the torrent's metadata. -/
theorem labelOf_of_given (torrent : Torrent) (text : TextLabel store torrent)
    (given : textOf store torrent ≠ "") :
    labelOf store torrent = .string (textOf store torrent) := by
  rcases text with none | ⟨label, own⟩
  · simp [textOf, none] at given
  · simp [textOf, own]

/-- A label that is no inherited name makes its number one higher. -/
theorem countLabel_own (counts : List (String × Nat)) (torrent : Torrent) (label : String)
    (carried : labelOf store torrent = .string label) (given : label ≠ "")
    (own : label ∉ objectPrototype.map Prod.fst) :
    countLabel conversions store (numbered counts) torrent =
      some (numbered (bump counts label)) := by
  have proto : label ≠ "__proto__" := fun same => own (by simp [same, objectPrototype])
  have assigned : ∀ number : Nat, assignOwn label (.integer number) (numbered counts) =
      numbered (assign label number counts) := by
    intro number
    rw [assignOwn, if_neg proto, numbered,
      assign_map (fun number : Nat => Value.integer (number : Int)), ← numbered]
  have start : countLabel conversions store (numbered counts) torrent =
      let held := property (numbered counts) label
      if held.truthy then (plusOne conversions held).map fun next =>
        assignOwn label next (numbered counts)
      else some (assignOwn label (.integer 1) (numbered counts)) := by
    have present : (Value.string label).truthy = true := by simpa [Value.truthy] using given
    simp only [countLabel, carried, present, if_true, conversions.propertyKey_string,
      Option.bind_eq_bind, Option.bind_some]
    exact if_congr Iff.rfl (Option.map_eq_bind ..).symm rfl
  rw [start, property_numbered counts label own, bump]
  cases counts.lookup label with
  | none => exact congrArg some (assigned 1)
  | some number =>
    by_cases zero : number = 0
    · subst zero
      exact congrArg some (assigned 1)
    · have positive : (Value.integer number).truthy = true := by simpa using zero
      have next : plusOne conversions (Value.integer number) =
          some (.integer (number + 1 : Nat)) := by
        simp [plusOne, Value.integer]
      simp only [Option.map_some, Option.getD_some, positive, if_true, next, assigned]

/-- With labels of their own the torrents are tallied. -/
theorem countLabels_own (torrents : List Torrent) (counts : List (String × Nat))
    (texts : ∀ torrent ∈ torrents, TextLabel store torrent) (own : OwnLabels store torrents) :
    torrents.foldlM (countLabel conversions store) (numbered counts) =
      some (numbered ((labelsOf store torrents).foldl bump counts)) := by
  induction torrents generalizing counts with
  | nil => rfl
  | cons torrent rest ih =>
    have later := fun counts => ih counts
      (fun other member => texts other (List.mem_cons_of_mem _ member))
      fun other member => own other (List.mem_cons_of_mem _ member)
    have text := texts torrent List.mem_cons_self
    rw [List.foldlM_cons]
    by_cases blank : textOf store torrent = ""
    · rw [countLabel_blank conversions store _ torrent text blank, Option.bind_eq_bind,
        Option.bind_some, later, labelsOf, labelsOf, List.map_cons,
        List.filter_cons_of_neg (by simpa using blank)]
    · have carried := labelOf_of_given store torrent text blank
      rw [countLabel_own conversions store counts torrent _ carried blank
        (own torrent List.mem_cons_self _ carried), Option.bind_eq_bind, Option.bind_some,
        later, labelsOf, labelsOf, List.map_cons,
        List.filter_cons_of_pos (by simpa using blank), List.foldl_cons]

/-- Inherited names have no numbers: texts stand under them, if anything does. -/
def Spoilt (labels : Members) : Prop :=
  ∀ entry ∈ labels, entry.1 ∈ objectPrototype.map Prod.fst →
    ∃ text, text ≠ "" ∧ entry.2 = .string text

/-- What is inherited is a function or the prototype. -/
theorem objectPrototype_values : ∀ entry ∈ objectPrototype,
    (∃ identity, entry.2 = .function identity) ∨ entry.2 = .object [] := by
  simp [objectPrototype]

/-- Counting an inherited name makes a text. -/
theorem property_inherited (labels : Members) (spoilt : Spoilt labels) (key : String)
    (inherited : key ∈ objectPrototype.map Prod.fst) :
    (property labels key).truthy = true ∧ plusOne conversions (property labels key) =
      (conversions.concatText (property labels key)).map fun text => .string (text ++ "1") := by
  rw [property]
  cases held : labels.lookup key with
  | some own =>
    obtain ⟨text, given, rfl⟩ := spoilt _ (mem_of_lookup key own labels held) inherited
    exact ⟨by simpa [Value.truthy] using given, rfl⟩
  | none =>
    obtain ⟨value, found⟩ := Option.isSome_iff_exists.mp ((lookup_isSome_iff key _).mpr inherited)
    rw [found, Option.getD_none, Option.getD_some]
    rcases objectPrototype_values _ (mem_of_lookup key value _ found) with ⟨identity, rfl⟩ | rfl
    · exact ⟨rfl, rfl⟩
    · exact ⟨rfl, rfl⟩

/-- Counting a torrent leaves texts under inherited names. -/
theorem spoilt_countLabel (labels next : Members) (torrent : Torrent)
    (text : TextLabel store torrent) (spoilt : Spoilt labels)
    (counted : countLabel conversions store labels torrent = some next) : Spoilt next := by
  by_cases blank : textOf store torrent = ""
  · rw [countLabel_blank conversions store labels torrent text blank] at counted
    exact Option.some.inj counted ▸ spoilt
  obtain ⟨label, given, carried⟩ : ∃ label, label ≠ "" ∧ labelOf store torrent = .string label :=
    ⟨_, blank, labelOf_of_given store torrent text blank⟩
  obtain ⟨value, rfl, own⟩ : ∃ value, next = assignOwn label value labels ∧
      (label ∈ objectPrototype.map Prod.fst → ∃ text, text ≠ "" ∧ value = .string text) := by
    have present : (Value.string label).truthy = true := by simpa [Value.truthy] using given
    simp only [countLabel, carried, present, if_true, conversions.propertyKey_string,
      Option.bind_eq_bind, Option.bind_some] at counted
    split at counted
    · obtain ⟨value, sum, same⟩ := Option.bind_eq_some_iff.mp counted
      refine ⟨value, (Option.some.inj same).symm, fun inherited => ?_⟩
      rw [(property_inherited conversions labels spoilt label inherited).2] at sum
      obtain ⟨text, _, rfl⟩ := Option.map_eq_some_iff.mp sum
      exact ⟨text ++ "1", by simp, rfl⟩
    · rename_i falsy
      refine ⟨_, (Option.some.inj counted).symm, fun inherited => ?_⟩
      exact absurd (property_inherited conversions labels spoilt label inherited).1 falsy
  intro entry member inherited
  rw [assignOwn] at member
  split at member
  · exact spoilt entry member inherited
  · rcases mem_of_mem_assign label value labels entry member with earlier | rfl
    · exact spoilt entry earlier inherited
    · exact own inherited

/-- So does counting all of them. -/
theorem spoilt_countLabels (torrents : List Torrent) (labels last : Members)
    (texts : ∀ torrent ∈ torrents, TextLabel store torrent) (spoilt : Spoilt labels)
    (counted : torrents.foldlM (countLabel conversions store) labels = some last) :
    Spoilt last := by
  induction torrents generalizing labels with
  | nil => exact Option.some.inj counted ▸ spoilt
  | cons torrent rest ih =>
    rw [List.foldlM_cons] at counted
    obtain ⟨next, first, later⟩ := Option.bind_eq_some_iff.mp counted
    exact ih next (fun other member => texts other (List.mem_cons_of_mem _ member))
      (spoilt_countLabel conversions store labels next torrent (texts torrent List.mem_cons_self)
        spoilt first) later

end Counting

section

variable (conversions : Conversions) (store : Store) (torrents : List Torrent)
  (texts : ∀ torrent ∈ torrents, TextLabel store torrent)
include texts

/-- What the object counts under inherited names are texts. -/
theorem ownLabels_of_countsLabels (counted : CountsLabels conversions store torrents) :
    OwnLabels store torrents := by
  obtain ⟨rows, entries, answered, counts, rfl, _, all, _⟩ := counted
  intro torrent member label carried inherited
  simp only [list, Option.bind_eq_bind, Option.bind_eq_some_iff, Option.some.injEq,
    Option.pure_def, Value.object.injEq, List.cons.injEq, Prod.mk.injEq, Value.array.injEq,
    true_and, and_true] at answered
  obtain ⟨labels, counted, entries, rfl⟩ := answered
  have given : label ≠ "" := by
    rintro rfl
    revert inherited
    decide
  have occurs : 0 < carrying (torrents.map (rowOf store)) label := by
    rw [carrying_rows store torrents texts, List.count_pos_iff]
    exact List.mem_map.mpr ⟨torrent, member, by simp [textOf, carried]⟩
  have inside : Value.array
      [.string label, .integer (carrying (torrents.map (rowOf store)) label)] [] ∈
      labelList labels := by
    rw [entries]
    exact List.mem_map.mpr ⟨(label, _), (all label _).mpr ⟨given, occurs, rfl⟩, rfl⟩
  obtain ⟨entry, held, same⟩ := List.mem_map.mp inside
  simp only [Value.array.injEq, List.cons.injEq, Value.string.injEq, and_true] at same
  obtain ⟨rfl, number⟩ := same
  obtain ⟨text, _, own⟩ := spoilt_countLabels conversions store torrents [] labels texts
    (by simp [Spoilt]) counted entry held inherited
  rw [own] at number
  cases number

/-- Labels that are no inherited names are counted. -/
theorem countsLabels_of_ownLabels (own : OwnLabels store torrents) :
    CountsLabels conversions store torrents := by
  have counted : torrents.foldlM (countLabel conversions store) [] =
      some (numbered (tally (labelsOf store torrents))) :=
    countLabels_own conversions store torrents [] texts own
  refine ⟨torrents.map (rowOf store), labelList (numbered (tally (labelsOf store torrents))), ?_,
    tally (labelsOf store torrents), labelList_numbered _, nodup_tally _,
    fun label number => ?_, ?_⟩
  · rw [list, counted]
    rfl
  · rw [mem_tally_iff, carrying_rows store torrents texts, labelsOf]
    by_cases given : label = ""
    · subst given
      have none : "" ∉ (torrents.map (textOf store)).filter fun label => label ≠ "" := by simp
      rw [List.count_eq_zero_of_not_mem none]
      simp only [ne_eq, not_true_eq_false, false_and, iff_false, not_and]
      omega
    · rw [List.count_filter (by simpa using given)]
      simp [given]
  · rw [total_tally, labelled_rows store torrents texts]

/-- The labels are counted exactly where none of them is an inherited name. -/
theorem countsLabels_iff_ownLabels :
    CountsLabels conversions store torrents ↔ OwnLabels store torrents :=
  ⟨ownLabels_of_countsLabels conversions store torrents texts,
    countsLabels_of_ownLabels conversions store torrents texts⟩

end

/-- A torrent of which the status is all zero, for runs on fixed inputs. -/
def idleTorrent (infoHash : String) : Torrent where
  infoHash := infoHash
  status := ⟨"", false, true, 3, "", 0, 0, 0, 0, 0, 0, 0, 0, 0, 0, 0, 0, 0, 0, 0, ""⟩
  info := none

/-- Every torrent has the same label. -/
def labelledStore (label : String) : Store := fun _ =>
  some ⟨[("label", .string label)], by simp, by simp [migrateKey]⟩

/-- The label of this store is a text. -/
theorem textLabel_labelledStore (label : String) (torrent : Torrent) :
    TextLabel (labelledStore label) torrent := .inr ⟨label, rfl⟩

/-- Two torrents under one label. -/
theorem countsLabels_iff_ownLabels_linux :
    CountsLabels plainConversions (labelledStore "linux") [idleTorrent "1", idleTorrent "2"] ↔
      OwnLabels (labelledStore "linux") [idleTorrent "1", idleTorrent "2"] :=
  countsLabels_iff_ownLabels plainConversions (labelledStore "linux")
    [idleTorrent "1", idleTorrent "2"] fun torrent _ => textLabel_labelledStore "linux" torrent

/-- The prototype of the object is not its member, and takes no text either. -/
theorem label_proto_not_counted :
    list plainConversions (labelledStore "__proto__") [idleTorrent "1"] =
      some (.object [("label", .array [] []),
        ("torrents", .array [rowOf (labelledStore "__proto__") (idleTorrent "1")] [])]) ∧
    ¬ CountsLabels plainConversions (labelledStore "__proto__") [idleTorrent "1"] := by
  refine ⟨rfl, fun counted => ?_⟩
  have own := ownLabels_of_countsLabels plainConversions (labelledStore "__proto__")
    [idleTorrent "1"] (fun torrent _ => textLabel_labelledStore "__proto__" torrent) counted
  exact own (idleTorrent "1") List.mem_cons_self "__proto__" rfl (by decide)

end Hadouken.TorrentList
