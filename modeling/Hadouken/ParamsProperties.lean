import Hadouken.Library.ValueStack
import Hadouken.Settings

/-!
# The properties of AddTorrentParams

Each property has a setter that stores a value in a field of the library's
structure, and a getter that makes a value of it again. The setters of the two
vectors add to what is there; the others replace it.

What the elements of the vector of priorities can hold is the library's; it is a
parameter, with the limit of the JSON encoder and what the digits printed for a
number are read back as. The properties for the torrent and its resume data are left
out.
-/

namespace Hadouken.ParamsProperties

open Script ValueStack Settings

/-- The elements of the vector of priorities, and the JSON encoder and decoder. -/
structure Native where
  encodeLimit : Nat
  reread : ℚ → ℚ
  priority : CInt → Int

/-- `libtorrent::storage_mode_t`. -/
inductive StorageMode where
  | allocate
  | sparse
  | other (number : Nat)
deriving DecidableEq

/-- `libtorrent::add_torrent_params`, with the text of the metadata as the
document it spells. -/
structure Params where
  filePriorities : List Int
  flags : UInt64
  userdata : Option Json
  savePath : String
  storageMode : StorageMode
  trackers : List String
  url : String

/-- The properties of the script object. -/
inductive Property where
  | filePriorities
  | flags
  | metadata
  | savePath
  | sparseMode
  | trackers
  | url
deriving DecidableEq

/-- The getters. -/
def Params.get (params : Params) : Property → Value
  | .filePriorities => .array (params.filePriorities.map Value.integer) []
  | .flags => .integer params.flags.toNat
  | .metadata => (params.userdata.map Json.toValue).getD .null
  | .savePath => .string (cString params.savePath)
  | .sparseMode => .boolean (decide (params.storageMode = .sparse))
  | .trackers => .array (params.trackers.map fun tracker => .string (cString tracker)) []
  | .url => .string (cString params.url)

/-- `duk_get_int`, as an element of the vector. -/
def Native.priorityOf (native : Native) : Value → Int
  | .number number => native.priority (toInt number)
  | _ => native.priority (CInt.clamp 0)

/-- `duk_get_string`: there is no string for another value. -/
def textOf : Value → Option String
  | .string text => some (cString text)
  | _ => none

/-- The setters. They have no result where they throw. -/
def Params.set (native : Native) (params : Params) : Property → Value → Option Params
  | .filePriorities, .array items _ =>
      some { params with filePriorities := params.filePriorities ++ items.map native.priorityOf }
  | .filePriorities, _ => some params
  | .flags, .number (.finite value) =>
      some { params with flags := UInt64.ofNat (value.num.tdiv value.den).toNat }
  | .flags, _ => none
  | .metadata, value =>
      match Json.encode native.encodeLimit value with
      | some (some document) =>
          some { params with userdata := some (document.mapNumbers native.reread) }
      | _ => none
  | .savePath, .string path => some { params with savePath := cString path }
  | .savePath, _ => none
  | .sparseMode, .boolean sparse =>
      some { params with storageMode := if sparse then .sparse else .allocate }
  | .sparseMode, _ => none
  | .trackers, .array items _ =>
      (items.mapM textOf).map fun texts => { params with trackers := params.trackers ++ texts }
  | .trackers, _ => some params
  | .url, .string url => some { params with url := cString url }
  | .url, _ => none

/-- The values that belong to a property. -/
def WellTyped : Property → Value → Prop
  | .filePriorities, value => ∃ numbers : List Int, value = .array (numbers.map Value.integer) []
  | .flags, value => ∃ number : Nat, number < 2 ^ 53 ∧ value = .integer number
  | .metadata, value => Json.Plain value
  | .savePath, value | .url, value => ∃ text, cString text = text ∧ value = .string text
  | .sparseMode, value => ∃ flag, value = .boolean flag
  | .trackers, value => ∃ texts : List String, (∀ text ∈ texts, cString text = text) ∧
      value = .array (texts.map Value.string) []

/-- An assignment of a value of the right type. -/
structure Assignment where
  property : Property
  value : Value
  typed : WellTyped property value

/-- The parameters after some assignments, unless one of them throws. -/
def assignAll (native : Native) (params : Params) (assignments : List Assignment) :
    Option Params :=
  assignments.foldlM
    (fun params assignment => params.set native assignment.property assignment.value) params

/-- What was assigned to a property, in order. -/
def assigned (property : Property) (assignments : List Assignment) : List Value :=
  (assignments.filter fun assignment => assignment.property = property).map Assignment.value

/-- Every property reads as what was assigned to it last, or as before. -/
def ReadsLast (native : Native) (params : Params) (assignments : List Assignment) : Prop :=
  ∃ final, assignAll native params assignments = some final ∧ ∀ property,
    final.get property = (assigned property assignments).getLast?.getD (params.get property)

/-- The items of an array. -/
def itemsOf : Value → List Value
  | .array items _ => items
  | _ => []

/-- If the vector is assigned, nothing was in it: not before, nor by an earlier
assignment. -/
def Fresh (params : Params) (property : Property) (assignments : List Assignment) : Prop :=
  assigned property assignments ≠ [] →
    params.get property = .array [] [] ∧
      ∀ earlier ∈ (assigned property assignments).dropLast, earlier = .array [] []

/-- The elements of the vector can hold the priorities assigned last. -/
def Fitting (native : Native) (assignments : List Assignment) : Prop :=
  ∀ last, (assigned .filePriorities assignments).getLast? = some last →
    ∀ item ∈ itemsOf last, .integer (native.priorityOf item) = item

/-- The metadata are not nested deeper than the encoder goes. -/
def Shallow (native : Native) (assignments : List Assignment) : Prop :=
  ∀ value ∈ assigned .metadata assignments, value.depth ≤ native.encodeLimit

/-- The numbers of the metadata assigned last are read back as they were. -/
def ReadAlike (native : Native) (assignments : List Assignment) : Prop :=
  ∀ last, (assigned .metadata assignments).getLast? = some last →
    last.mapNumbers native.reread = last

/-- What an assignment adds to a vector, as its getter shows it. -/
def added (native : Native) : Property → Value → List Value
  | .filePriorities, value => (itemsOf value).map fun item => .integer (native.priorityOf item)
  | _, value => itemsOf value

/-- What a property that is no vector reads as after an assignment. -/
def shown (native : Native) (property : Property) (value : Value) : Value :=
  if property = .metadata then value.mapNumbers native.reread else value

/-- What a property reads as after an assignment, where it read as something
before. -/
def stored (native : Native) (property : Property) (before value : Value) : Value :=
  if property = .filePriorities ∨ property = .trackers then
    .array (itemsOf before ++ added native property value) []
  else shown native property value

section Setters

variable (native : Native) (params next : Params) (property : Property) (value : Value)

/-- Texts without NUL are taken whole. -/
theorem mapM_textOf (texts : List String) (whole : ∀ text ∈ texts, cString text = text) :
    (texts.map Value.string).mapM textOf = some texts := by
  induction texts with
  | nil => rfl
  | cons text rest ih =>
    have later := ih fun other member => whole other (List.mem_cons_of_mem _ member)
    simp [textOf, whole text List.mem_cons_self, later]

/-- An assignment leaves the other properties as they were. -/
theorem get_set_of_ne (done : params.set native property value = some next) {other : Property}
    (distinct : other ≠ property) : next.get other = params.get other := by
  revert done
  fun_cases Params.set native params property value <;> intro done
  case case11 items named =>
    obtain ⟨texts, _, rfl⟩ := Option.map_eq_some_iff.mp done
    cases other <;> first | exact absurd rfl distinct | rfl
  all_goals
    cases done <;> cases other <;> first | exact absurd rfl distinct | rfl

/-- What one assignment does: it is stored under its property, and the others
read as before. -/
theorem set_spec (typed : WellTyped property value)
    (done : params.set native property value = some next) :
    next.get property = stored native property (params.get property) value ∧
      ∀ other ≠ property, next.get other = params.get other := by
  refine ⟨?_, fun other distinct =>
    get_set_of_ne native params next property value done distinct⟩
  cases property with
  | filePriorities =>
    obtain ⟨numbers, rfl⟩ := typed
    obtain rfl := Option.some.inj done
    simp [stored, Params.get, added, itemsOf]
  | flags =>
    obtain ⟨number, small, rfl⟩ := typed
    obtain rfl := Option.some.inj done
    have wraps : (number : Int) % 18446744073709551616 = number :=
      Int.emod_eq_of_lt (by omega) (by omega)
    simp [stored, shown, Params.get, wraps]
  | metadata =>
    obtain ⟨document, encoded, decoded⟩ := Json.toValue_ofValue value typed
    by_cases shallow : value.depth ≤ native.encodeLimit
    · simp only [Params.set, Json.encode, encoded, if_pos shallow] at done
      obtain rfl := Option.some.inj done
      simp [stored, shown, Params.get, Json.toValue_mapNumbers, decoded]
    · simp only [Params.set, Json.encode, if_neg shallow] at done
      cases done
  | savePath =>
    obtain ⟨text, whole, rfl⟩ := typed
    obtain rfl := Option.some.inj done
    simp [stored, shown, Params.get, whole]
  | sparseMode =>
    obtain ⟨flag, rfl⟩ := typed
    obtain rfl := Option.some.inj done
    cases flag <;> simp [stored, shown, Params.get]
  | trackers =>
    obtain ⟨texts, whole, rfl⟩ := typed
    simp only [Params.set, mapM_textOf texts whole, Option.map_some] at done
    obtain rfl := Option.some.inj done
    have whole : texts.map (fun tracker => Value.string (cString tracker)) =
        texts.map Value.string := List.map_congr_left fun text member => by rw [whole text member]
    simp [stored, Params.get, added, itemsOf, whole]
  | url =>
    obtain ⟨text, whole, rfl⟩ := typed
    obtain rfl := Option.some.inj done
    simp [stored, shown, Params.get, whole]

/-- An assignment throws only for metadata that are nested too deep. -/
theorem set_isSome_iff (typed : WellTyped property value) :
    (params.set native property value).isSome = true ↔
      (property = .metadata → value.depth ≤ native.encodeLimit) := by
  cases property with
  | metadata =>
    obtain ⟨document, encoded, _⟩ := Json.toValue_ofValue value typed
    by_cases shallow : value.depth ≤ native.encodeLimit
    · simp [Params.set, Json.encode, encoded, shallow]
    · simp [Params.set, Json.encode, shallow]
  | trackers =>
    obtain ⟨texts, whole, rfl⟩ := typed
    simp [Params.set, mapM_textOf texts whole]
  | flags =>
    obtain ⟨number, _, rfl⟩ := typed
    simp [Params.set, Value.integer]
  | filePriorities =>
    obtain ⟨numbers, rfl⟩ := typed
    simp [Params.set]
  | sparseMode =>
    obtain ⟨flag, rfl⟩ := typed
    simp [Params.set]
  | savePath =>
    obtain ⟨text, _, rfl⟩ := typed
    simp [Params.set]
  | url =>
    obtain ⟨text, _, rfl⟩ := typed
    simp [Params.set]

end Setters

section Runs

variable (native : Native)

/-- An assignment counts for its own property. -/
theorem assigned_cons (property : Property) (assignment : Assignment) (rest : List Assignment) :
    assigned property (assignment :: rest) =
      if assignment.property = property then assignment.value :: assigned property rest
      else assigned property rest := by
  by_cases same : assignment.property = property
  · simp [assigned, same]
  · simp [assigned, same]

/-- After a run a property reads as its own assignments leave it. -/
theorem get_assignAll (assignments : List Assignment) (params final : Params)
    (done : assignAll native params assignments = some final) (property : Property) :
    final.get property =
      (assigned property assignments).foldl (stored native property) (params.get property) := by
  induction assignments generalizing params with
  | nil =>
    obtain rfl := Option.some.inj done
    rfl
  | cons assignment rest ih =>
    rw [assignAll, List.foldlM_cons] at done
    obtain ⟨next, first, later⟩ := Option.bind_eq_some_iff.mp done
    obtain ⟨own, others⟩ := set_spec native params next _ _ assignment.typed first
    rw [ih next later, assigned_cons]
    by_cases same : assignment.property = property
    · subst same
      rw [if_pos rfl, List.foldl_cons, own]
    · rw [if_neg same, others property (Ne.symm same)]

/-- A run throws only for metadata that are nested too deep. -/
theorem assignAll_isSome_iff (assignments : List Assignment) (params : Params) :
    (assignAll native params assignments).isSome = true ↔ Shallow native assignments := by
  induction assignments generalizing params with
  | nil => simp [assignAll, Shallow, assigned]
  | cons assignment rest ih =>
    have split : Shallow native (assignment :: rest) ↔
        (assignment.property = .metadata → assignment.value.depth ≤ native.encodeLimit) ∧
          Shallow native rest := by
      simp only [Shallow, assigned_cons]
      by_cases same : assignment.property = .metadata
      · simp [same]
      · simp [same]
    rw [split, ← set_isSome_iff native params _ _ assignment.typed, assignAll, List.foldlM_cons]
    cases first : params.set native assignment.property assignment.value with
    | none => simp
    | some next =>
      simp only [Option.bind_eq_bind, Option.bind_some, Option.isSome_some, true_and]
      exact ih next

end Runs

section Vectors

variable (native : Native) (property : Property)

/-- A property that is no vector reads as what was assigned last. -/
theorem foldl_stored_of_single (single : ¬ (property = .filePriorities ∨ property = .trackers))
    (values : List Value) (before : Value) :
    values.foldl (stored native property) before =
      (values.getLast?.map (shown native property)).getD before := by
  rcases List.eq_nil_or_concat values with rfl | ⟨front, last, rfl⟩
  · rfl
  · simp [stored, single]

/-- That is the value itself exactly where its numbers are read back. -/
theorem foldl_stored_eq_of_single_iff
    (single : ¬ (property = .filePriorities ∨ property = .trackers))
    (values : List Value) (before : Value) :
    values.foldl (stored native property) before = values.getLast?.getD before ↔
      ∀ last, values.getLast? = some last → shown native property last = last := by
  rw [foldl_stored_of_single native property single]
  cases values.getLast? <;> simp

variable (vector : property = .filePriorities ∨ property = .trackers)
include vector

/-- A vector reads as everything that was added to it. -/
theorem foldl_stored_of_vector (values items : List Value) :
    values.foldl (stored native property) (.array items []) =
      .array (items ++ (values.map (added native property)).flatten) [] := by
  induction values generalizing items with
  | nil => simp
  | cons value rest ih =>
    rw [List.foldl_cons, stored, if_pos vector, itemsOf, ih]
    simp [List.append_assoc]

/-- Every item is added. -/
theorem length_added (value : Value) :
    (added native property value).length = (itemsOf value).length := by
  rcases vector with rfl | rfl <;> simp [added]

/-- It reads as the last array exactly where nothing is in front of it and its
items are kept. -/
theorem foldl_stored_eq_iff (values items : List Value)
    (arrays : ∀ value ∈ values, value = .array (itemsOf value) []) :
    values.foldl (stored native property) (.array items []) =
        values.getLast?.getD (.array items []) ↔
      (values ≠ [] → Value.array items [] = .array [] [] ∧
        ∀ earlier ∈ values.dropLast, earlier = .array [] []) ∧
      ∀ last, values.getLast? = some last → added native property last = itemsOf last := by
  rw [foldl_stored_of_vector native property vector]
  rcases List.eq_nil_or_concat values with rfl | ⟨front, last, rfl⟩
  · simp
  · have own := arrays last (by simp)
    have emptied : ∀ earlier ∈ front,
        (added native property earlier = [] ↔ earlier = .array [] []) := by
      intro earlier member
      have shape := arrays earlier (by simp [member])
      rw [← List.length_eq_zero_iff, length_added native property vector, List.length_eq_zero_iff]
      constructor
      · intro none
        rw [shape, none]
      · rintro rfl
        rfl
    have total := length_added native property vector last
    simp only [List.concat_eq_append, List.getLast?_append, List.getLast?_singleton,
      Option.some_or, Option.getD_some, List.map_append, List.map_cons, List.map_nil,
      List.flatten_append, List.flatten_singleton, List.dropLast_concat, Value.array.injEq,
      and_true, Option.some.injEq, forall_eq', ne_eq, List.append_eq_nil_iff, List.cons_ne_nil,
      and_false, not_false_eq_true, true_implies]
    constructor
    · intro same
      have whole : items ++ ((front.map (added native property)).flatten ++
          added native property last) = itemsOf last := congrArg itemsOf same
      rw [← List.append_assoc] at whole
      have none : items ++ (front.map (added native property)).flatten = [] := by
        refine List.eq_nil_of_length_eq_zero ?_
        have lengths := congrArg List.length whole
        rw [List.length_append, total] at lengths
        omega
      rw [none, List.nil_append] at whole
      obtain ⟨rfl, flat⟩ := List.append_eq_nil_iff.mp none
      rw [List.flatten_eq_nil_iff] at flat
      exact ⟨⟨rfl, fun earlier member => (emptied earlier member).mp
        (flat _ (List.mem_map_of_mem member))⟩, whole⟩
    · rintro ⟨⟨rfl, blank⟩, kept⟩
      have flat : (front.map (added native property)).flatten = [] := by
        rw [List.flatten_eq_nil_iff]
        rintro _ member
        obtain ⟨earlier, inside, rfl⟩ := List.mem_map.mp member
        exact (emptied earlier inside).mpr (blank earlier inside)
      rw [flat, List.nil_append, List.nil_append, kept]
      exact own.symm

end Vectors

/-- What is assigned to a vector is an array. -/
theorem array_of_assigned (property : Property)
    (vector : property = .filePriorities ∨ property = .trackers) (assignments : List Assignment) :
    ∀ value ∈ assigned property assignments, value = .array (itemsOf value) [] := by
  intro value member
  obtain ⟨assignment, inside, rfl⟩ := List.mem_map.mp member
  have same : assignment.property = property := by simpa using (List.mem_filter.mp inside).2
  have typed := assignment.typed
  rw [same] at typed
  rcases vector with rfl | rfl
  · obtain ⟨numbers, own⟩ := typed
    rw [own, itemsOf]
  · obtain ⟨texts, _, own⟩ := typed
    rw [own, itemsOf]

/-- Every property reads as what was assigned to it last exactly where the two
vectors were empty before that, the priorities fit, and the metadata are not
nested too deep and have numbers that are read back as they were. -/
theorem readsLast_iff (native : Native) (params : Params) (assignments : List Assignment) :
    ReadsLast native params assignments ↔
      Shallow native assignments ∧ ReadAlike native assignments ∧ Fitting native assignments ∧
        Fresh params .filePriorities assignments ∧ Fresh params .trackers assignments := by
  have arrays : ∀ property, (property = .filePriorities ∨ property = .trackers) →
      params.get property = .array (itemsOf (params.get property)) [] := by
    rintro property (rfl | rfl) <;> rfl
  have vectors : ∀ property, (property = .filePriorities ∨ property = .trackers) →
      ((assigned property assignments).foldl (stored native property) (params.get property) =
          (assigned property assignments).getLast?.getD (params.get property) ↔
        Fresh params property assignments ∧
          ∀ last, (assigned property assignments).getLast? = some last →
            added native property last = itemsOf last) := by
    intro property vector
    rw [arrays property vector, foldl_stored_eq_iff native property vector _ _
      (array_of_assigned property vector assignments), ← arrays property vector, Fresh]
  have priorities : (∀ last, (assigned .filePriorities assignments).getLast? = some last →
      added native .filePriorities last = itemsOf last) ↔ Fitting native assignments := by
    refine forall_congr' fun last => imp_congr_right fun _ => ?_
    have fixed : (itemsOf last).map (fun item => .integer (native.priorityOf item)) =
        (itemsOf last).map id ↔ ∀ item ∈ itemsOf last, .integer (native.priorityOf item) = item :=
      List.map_inj_left
    rwa [List.map_id] at fixed
  have metadata := foldl_stored_eq_of_single_iff native .metadata (by decide)
    (assigned .metadata assignments) (params.get .metadata)
  have alike : ReadAlike native assignments ↔
      ∀ last, (assigned .metadata assignments).getLast? = some last →
        shown native .metadata last = last := by
    simp only [ReadAlike, shown, if_true]
  constructor
  · rintro ⟨final, done, reads⟩
    have shallow := (assignAll_isSome_iff native assignments params).mp (by rw [done]; rfl)
    have read := get_assignAll native assignments params final done
    obtain ⟨freshPriorities, kept⟩ := (vectors .filePriorities (.inl rfl)).mp
      ((read _).symm.trans (reads _))
    obtain ⟨freshTrackers, _⟩ := (vectors .trackers (.inr rfl)).mp ((read _).symm.trans (reads _))
    have reread := alike.mpr (metadata.mp ((read _).symm.trans (reads _)))
    exact ⟨shallow, reread, priorities.mp kept, freshPriorities, freshTrackers⟩
  · rintro ⟨shallow, reread, fitting, freshPriorities, freshTrackers⟩
    obtain ⟨final, done⟩ := Option.isSome_iff_exists.mp
      ((assignAll_isSome_iff native assignments params).mpr shallow)
    refine ⟨final, done, fun property => ?_⟩
    rw [get_assignAll native assignments params final done property]
    cases property with
    | filePriorities => exact (vectors _ (.inl rfl)).mpr ⟨freshPriorities, priorities.mpr fitting⟩
    | trackers => exact (vectors _ (.inr rfl)).mpr ⟨freshTrackers, fun _ _ => rfl⟩
    | metadata => exact metadata.mpr (alike.mp reread)
    | _ => exact (foldl_stored_eq_of_single_iff native _ (by decide) _ _).mpr fun _ _ => rfl

/-- Priorities of one byte, and numbers that are all read back. -/
def byteNative : Native := ⟨1000, id, fun number => number.value % 256⟩

/-- New parameters. -/
def newParams : Params := ⟨[], 0, none, "", .sparse, [], ""⟩

/-- One tracker. -/
def trackerAssignment (tracker : String) (whole : cString tracker = tracker) : Assignment where
  property := .trackers
  value := .array [.string tracker] []
  typed := ⟨[tracker], by simpa using whole, rfl⟩

/-- The second of two assignments adds its tracker to the first one. -/
theorem second_assignment_appends :
    ((assignAll byteNative newParams
        [trackerAssignment "udp://a" (by decide), trackerAssignment "udp://b" (by decide)]).map
      fun final => final.get .trackers) =
      some (.array [.string "udp://a", .string "udp://b"] []) ∧
    ¬ ReadsLast byteNative newParams
      [trackerAssignment "udp://a" (by decide), trackerAssignment "udp://b" (by decide)] := by
  refine ⟨rfl, ?_⟩
  rintro ⟨final, done, reads⟩
  have read := reads .trackers
  rw [get_assignAll byteNative _ newParams final done] at read
  have short := congrArg (fun value => (itemsOf value).length) read
  exact absurd short (by decide)

end Hadouken.ParamsProperties
