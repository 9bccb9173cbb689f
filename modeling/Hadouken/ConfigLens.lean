import Hadouken.ConfigWrites
import Hadouken.Dispatch

/-!
# Reading back what was set

`config.get` and `config.set` walk along the parts of a key. The one stops at
what is undefined, the other replaces what is falsy; neither looks at what else
a node can be. A write through truthy nodes ends in a primitive, which drops it,
or in what holds members.

The laws of a lens hold where the nodes on the way hold members or are falsy.
-/

namespace Hadouken.ConfigLens

open Script Config ConfigWrites

/-- `key.split(".")`. -/
def parts (key : String) : List String := (key.toList.splitOn '.').map String.ofList

/-- A key has a part. -/
theorem parts_ne_nil (key : String) : parts key ≠ [] := by
  simp [parts, List.splitOn_ne_nil]

/-- `config.get(key)`. -/
def get (config : Value) (key : String) : Option Value :=
  if key = "" then some config else findKey config (parts key)

/-- `config.set(key, val)`. -/
def set (config : Value) (key : String) (value : Value) : Option Value :=
  setKey config (parts key) value

/-- The functions of the engine's `Array.prototype`. -/
def arrayNames : List String :=
  ["concat", "join", "pop", "push", "reverse", "shift", "slice", "sort", "splice", "unshift",
    "indexOf", "lastIndexOf", "every", "some", "forEach", "map", "filter", "reduce", "reduceRight"]

/-- The functions of the engine's `String.prototype`, to which hadouken.js adds
`endsWith`. -/
def stringNames : List String :=
  ["charAt", "charCodeAt", "concat", "indexOf", "lastIndexOf", "localeCompare", "match", "replace",
    "search", "slice", "split", "substring", "substr", "toLowerCase", "toLocaleLowerCase",
    "toUpperCase", "toLocaleUpperCase", "trim", "endsWith"]

/-- The functions of the engine's `Number.prototype`. -/
def numberNames : List String := ["toFixed", "toExponential", "toPrecision"]

/-- The properties that the values of JSON have through the engine's
prototypes. -/
def inheritedNames : List String :=
  Dispatch.objectPrototype.map Prod.fst ++ arrayNames ++ stringNames ++ numberNames

/-- A key that does not lead into the engine's own objects. -/
structure Key where
  text : String
  given : text ≠ ""
  ordinary : ∀ part ∈ parts text, part ∉ inheritedNames

/-- A key without any built-in property. -/
structure PlainKey extends Key where
  noLength : "length" ∉ parts text

/-- What stands in a tree: where nothing does, it is undefined. -/
def nodeAt : Value → List String → Value
  | node, [] => node
  | node, part :: rest => nodeAt (setting node part) rest

/-- The path goes on behind this front. -/
def StrictPrefix (front path : List String) : Prop := ∃ part rest, path = front ++ part :: rest

/-- None of the keys leads on from the other. -/
def Apart (first second : List String) : Prop := ¬ first <+: second ∧ ¬ second <+: first

/-- The nodes on the way to the key are absent, falsy or objects. -/
def Passable (config : Value) (path : List String) : Prop :=
  ∀ front, StrictPrefix front path →
    (nodeAt config front).truthy = false ∨ isHolder (nodeAt config front) = true

/-- The strict prefixes of a path are none, and those behind its first part. -/
theorem forall_strictPrefix_cons_iff (holds : List String → Prop) (part : String)
    (path : List String) : (∀ front, StrictPrefix front (part :: path) → holds front) ↔
      holds [] ∧ ∀ front, StrictPrefix front path → holds (part :: front) := by
  constructor
  · intro all
    refine ⟨all [] ⟨part, path, rfl⟩, ?_⟩
    rintro front ⟨next, rest, rfl⟩
    exact all (part :: front) ⟨next, rest, rfl⟩
  · rintro ⟨own, later⟩ front ⟨next, rest, split⟩
    cases front with
    | nil => exact own
    | cons first front =>
      obtain ⟨rfl, rfl⟩ := List.cons.inj split
      exact later front ⟨next, rest, rfl⟩

/-- Keys that do not lead on from each other part somewhere. -/
theorem diverge_of_apart (first second : List String) (apart : Apart first second) :
    diverge first second = true := by
  induction first generalizing second with
  | nil => exact absurd List.nil_prefix apart.1
  | cons part first ih =>
    cases second with
    | nil => exact absurd List.nil_prefix apart.2
    | cons other second =>
      rw [diverge]
      split
      · rename_i same
        subst same
        exact ih second ⟨fun before => apart.1 ((List.prefix_cons_inj part).mpr before),
          fun before => apart.2 ((List.prefix_cons_inj part).mpr before)⟩
      · rfl

section Passing

/-- What is truthy has properties. -/
theorem member_eq_setting (cfg : Value) (part : String) (truthy : cfg.truthy = true) :
    cfg.member part = some (setting cfg part) := by
  obtain ⟨node, read⟩ := Value.member_of_truthy cfg part truthy
  rw [setting, read, Option.getD_some]

/-- A write along a passable way gets through and is taken. -/
theorem takes_of_passable (part : String) (path : List String) (cfg : Value)
    (holder : isHolder cfg = true) (passable : Passable cfg (part :: path)) :
    takes cfg (part :: path) = true ∧ reaches cfg (part :: path) = true := by
  induction path generalizing part cfg with
  | nil => exact ⟨holder, by cases cfg <;> first | rfl | cases holder⟩
  | cons next rest ih =>
    have read := member_eq_setting cfg part (truthy_of_isHolder cfg holder)
    obtain ⟨_, later⟩ := (forall_strictPrefix_cons_iff _ part (next :: rest)).mp passable
    by_cases truthy : (setting cfg part).truthy = true
    · have below : isHolder (setting cfg part) = true := by
        rcases later [] ⟨next, rest, rfl⟩ with falsy | holds
        · exact absurd truthy (by simp [show (setting cfg part).truthy = false from falsy])
        · exact holds
      obtain ⟨taken, through⟩ := ih next (setting cfg part) below later
      exact ⟨by simp [takes, holder, read, taken], by simp [reaches, read, truthy, through]⟩
    · exact ⟨by simp [takes, holder, read, truthy], by simp [reaches, read, truthy, holder]⟩

end Passing

section Twice

/-- Of two writes to one member the later one counts. -/
theorem assignMember_assignMember (target written : Value) (part : String) (first second : Value)
    (noLength : part ≠ "length") (done : target.assignMember part first = some written) :
    written.assignMember part second = target.assignMember part second := by
  cases target with
  | object members =>
    obtain rfl := Option.some.inj done
    simp [assign_assign]
  | array items named =>
    simp only [Value.assignMember, if_neg noLength] at done ⊢
    split at done
    · rename_i index found
      obtain rfl := Option.some.inj done
      have length : (Value.resize items (max items.length (index + 1))).length =
          max items.length (index + 1) := by
        simp only [Value.resize, List.length_take, List.length_append, List.length_replicate]
        omega
      have same : Value.resize ((Value.resize items (max items.length (index + 1))).set index first)
          (max items.length (index + 1)) =
          (Value.resize items (max items.length (index + 1))).set index first := by
        rw [Value.resize, List.length_set, length, Nat.sub_self, List.replicate_zero,
          List.append_nil, List.take_of_length_le (by rw [List.length_set, length])]
      have again : max (max items.length (index + 1)) (index + 1) =
          max items.length (index + 1) := by omega
      simp only [found, if_neg noLength, List.length_set, length, again, same, List.set_set]
    · rename_i found
      obtain rfl := Option.some.inj done
      simp only [found, if_neg noLength, assign_assign]
  | undefined => cases done
  | null => cases done
  | _ => obtain rfl := Option.some.inj done; rfl

/-- A write on the way, in one equation: the child is written, or made and
written, and put back. -/
theorem setKey_opened (cfg node : Value) (part next : String) (rest : List String) (value : Value)
    (noLength : part ≠ "length") (holder : isHolder cfg = true)
    (read : cfg.member part = some node) : setKey cfg (part :: next :: rest) value =
      (setKey (opened node) (next :: rest) value).bind (cfg.assignMember part) := by
  by_cases truthy : node.truthy = true
  · simp [setKey, read, opened, truthy]
  · obtain ⟨changed, replaced⟩ := Option.isSome_iff_exists.mp
      ((isSome_assignMember cfg part (.object []) noLength).trans (by rw [read]; rfl))
    have own := member_assignMember_self cfg changed part _ noLength holder replaced
    have again := fun child =>
      assignMember_assignMember cfg changed part (.object []) child noLength replaced
    simp only [setKey, read, Option.bind_eq_bind, Option.bind_some, if_neg truthy, replaced, own,
      opened]
    exact Option.bind_congr fun child _ => again child

/-- Setting twice is setting the last value. -/
theorem setKey_setKey (part : String) (path : List String) (cfg written first second : Value)
    (noLength : "length" ∉ part :: path)
    (done : setKey cfg (part :: path) first = some written) :
    setKey written (part :: path) second = setKey cfg (part :: path) second := by
  induction path generalizing part cfg written with
  | nil =>
    exact assignMember_assignMember cfg written part first second
      (fun same => noLength (by simp [same])) done
  | cons next rest ih =>
    have plain : part ≠ "length" := fun same => noLength (by simp [same])
    have later : "length" ∉ next :: rest := fun inside => noLength (List.mem_cons_of_mem _ inside)
    cases holder : isHolder cfg with
    | false =>
      rcases setKey_cons cfg written part next rest first plain done with ⟨_, rfl⟩ | ⟨holds, _⟩
      · rfl
      · cases holder.symm.trans holds
    | true =>
      have read := member_eq_setting cfg part (truthy_of_isHolder cfg holder)
      rw [setKey_opened cfg _ part next rest first plain holder read] at done
      obtain ⟨child, below, put⟩ := Option.bind_eq_some_iff.mp done
      have stepped := stepped_assignMember cfg written part child plain holder put
      have nextPlain : next ≠ "length" := fun same => later (by simp [same])
      have truthy := truthy_child _ child first next rest nextPlain below
      have kept : opened child = child := if_pos truthy
      rw [setKey_opened written child part next rest second plain (stepped.holder.trans holder)
          stepped.own, setKey_opened cfg _ part next rest second plain holder read, kept,
        ih next _ child later below]
      exact Option.bind_congr fun last _ =>
        assignMember_assignMember cfg written part child last plain put

end Twice

/-- On configuration trees the keys are lenses: what is set is read, keys apart
read what they did unless that throws, and the last of two writes counts. -/
theorem lens_of_passable (members : Members) (key : PlainKey)
    (passable : Passable (.object members) (parts key.text)) (value : Value) :
    ∃ written, set (.object members) key.text value = some written ∧
      get written key.text = some value ∧
      (∀ other : PlainKey, Apart (parts key.text) (parts other.text) →
        ∀ read, get (.object members) other.text = some read → get written other.text = some read) ∧
      ∀ second, set written key.text second = set (.object members) key.text second := by
  obtain ⟨part, path, split⟩ := List.exists_cons_of_ne_nil (parts_ne_nil key.text)
  have noLength := key.noLength
  rw [split] at passable noLength
  obtain ⟨taken, through⟩ := takes_of_passable part path (.object members) rfl passable
  obtain ⟨written, done⟩ := Option.isSome_iff_exists.mp
    ((setKey_isSome part path (.object members) value noLength).trans through)
  have placed := placed_setKey part path (.object members) written value noLength done
  simp only [set, get, if_neg key.given, split]
  refine ⟨written, done, ?_, fun other apart read found => ?_, fun second => ?_⟩
  · rw [placed.key, if_pos taken]
  · rw [if_neg other.given] at found ⊢
    exact (framed_setKey (part :: path) (parts other.text) (.object members) written value
      (diverge_of_apart _ _ apart) noLength other.noLength done).key read found
  · exact setKey_setKey part path (.object members) written value second noLength done

/-- `bittorrent.listenPort`. -/
def portKey : PlainKey where
  text := "bittorrent.listenPort"
  given := by decide
  ordinary := by decide
  noLength := by decide

/-- A configuration with the section of the port. -/
theorem passable_port : Passable (.object [("webui", .object [])]) (parts portKey.text) := by
  show Passable (.object [("webui", .object [])]) ["bittorrent", "listenPort"]
  rw [Passable, forall_strictPrefix_cons_iff, forall_strictPrefix_cons_iff]
  refine ⟨.inr rfl, .inl rfl, ?_⟩
  rintro front ⟨part, rest, split⟩
  simp at split

/-- A port that was set reads back, whatever else is configured. -/
theorem lens_of_passable_port : ∃ written,
    set (.object [("webui", .object [])]) portKey.text (.integer 6881) = some written ∧
      get written portKey.text = some (.integer 6881) ∧
      (∀ other : PlainKey, Apart (parts portKey.text) (parts other.text) →
        ∀ read, get (.object [("webui", .object [])]) other.text = some read →
          get written other.text = some read) ∧
      ∀ second, set written portKey.text second =
        set (.object [("webui", .object [])]) portKey.text second :=
  lens_of_passable [("webui", .object [])] portKey passable_port (.integer 6881)

end Hadouken.ConfigLens
