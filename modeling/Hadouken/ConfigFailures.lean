import Hadouken.ConfigLens

/-!
# Where the configuration fails silently

A configuration file can have anything at any node, and a key can ask for any
name. Each node also has what it inherits from the engine's prototypes: reading
finds that where the node has no property of its own, and writing makes an own
property, except under `__proto__`, where an accessor takes what is assigned.

The way to the last part of a key stays in the configuration when no property on
it is inherited. Where it leaves it, the engine's own objects are read and
changed, which are outside the model.
-/

namespace Hadouken.ConfigFailures

open Script Config ConfigWrites ConfigLens

/-- Functions the engine puts on a prototype. Which they are is not asked. -/
def functionsNamed (names : List String) : Members := names.map fun name => (name, .function 0)

/-- What a node inherits. -/
def prototype : Value → Members
  | .undefined | .null => []
  | .array _ _ => functionsNamed arrayNames ++ Dispatch.objectPrototype
  | .string _ => functionsNamed stringNames ++ Dispatch.objectPrototype
  | .number _ => functionsNamed numberNames ++ Dispatch.objectPrototype
  | _ => Dispatch.objectPrototype

/-- The node has a property of its own under this name. -/
def hasOwn : Value → String → Bool
  | .object members, key => (members.lookup key).isSome
  | .array items named, key =>
      key == "length" ||
        match Value.arrayIndex key with
        | some index => decide (index < items.length)
        | none => (named.lookup key).isSome
  | .string text, key =>
      key == "length" || (Value.arrayIndex key).any fun index => decide (index < text.length)
  | .error _, key => key == "name" || key == "message"
  | _, _ => false

/-- Read a property: an own one, or else an inherited one. -/
def read (node : Value) (key : String) : Option Value :=
  if hasOwn node key then node.member key
  else
    match (prototype node).lookup key with
    | some found => some found
    | none => node.member key

/-- The accessor `__proto__` takes objects and `null`. -/
def isPrototype : Value → Bool
  | .null | .array _ _ | .object _ | .function _ | .error _ => true
  | _ => false

/-- Write a property. What an object is once its prototype was set is a parameter. -/
def write (withPrototype : Value → Value → Option Value) (node : Value) (key : String)
    (value : Value) : Option Value :=
  if key = "__proto__" ∧ hasOwn node key = false ∧ isHolder node = true then
    if isPrototype value then withPrototype node value else some node
  else node.assignMember key value

/-- `findKey(key)`, with what the nodes inherit. -/
def findKey : Value → List String → Option Value
  | val, [] => some val
  | val, part :: rest => do
      match ← read val part with
      | .undefined => return .undefined
      | val => findKey val rest

/-- The walk of `config.set(key, val)`, with what the nodes inherit. The changed
child is put back into its node, so that this is the walk of the script as long
as it stays in the configuration. -/
def setKey (withPrototype : Value → Value → Option Value) :
    Value → List String → Value → Option Value
  | cfg, [], _ => some cfg
  | cfg, [last], val => write withPrototype cfg last val
  | cfg, elem :: rest, val => do
      let cfg ← if (← read cfg elem).truthy then some cfg
        else write withPrototype cfg elem (.object [])
      let child ← setKey withPrototype (← read cfg elem) rest val
      write withPrototype cfg elem child

/-- `config.get(key)`. -/
def get (config : Value) (key : String) : Option Value :=
  if key = "" then some config else findKey config (parts key)

/-- `config.set(key, val)`. -/
def set (withPrototype : Value → Value → Option Value) (config : Value) (key : String)
    (value : Value) : Option Value := setKey withPrototype config (parts key) value

/-- What is read of the node under this name is no inherited property. -/
def Stays (node : Value) (part : String) : Prop :=
  hasOwn node part = true ∨ (prototype node).lookup part = none

/-- No property on the way to the last part is inherited, neither from the nodes
that are there nor from the objects that `set` puts in the place of falsy ones. -/
def Inside : Value → List String → Prop
  | node, part :: next :: rest =>
      Stays node part ∧ Stays (opened node) part ∧ Inside (setting node part) (next :: rest)
  | _, _ => True

/-- The way to the key leads through no `null`. -/
def NoNull (config : Value) (path : List String) : Prop :=
  ∀ front, StrictPrefix front path → nodeAt config front ≠ .null

/-- What is written under this name is kept. -/
def changeable : Value → String → Bool
  | .object _, _ => true
  | .array _ _, part => decide (part ≠ "length")
  | _, _ => false

/-- The write comes to the node for the last part: a falsy node on the way hangs
where it can be replaced. -/
def comes : Value → List String → Bool
  | node, part :: next :: rest =>
      if (setting node part).truthy then comes (setting node part) (next :: rest)
      else changeable node part
  | _, _ => true

/-- What is set stays: the node for it is falsy, or one that holds members, of
which this one is not the length of an array. The accessor `__proto__` does not
take it, for the node has such a member itself or the write does not come to it. -/
structure Keeps (config : Value) (path : List String) : Prop where
  holds : (nodeAt config path.dropLast).truthy = true →
    isHolder (nodeAt config path.dropLast) = true
  noLength : ∀ items named, nodeAt config path.dropLast = .array items named →
    path.getLast? ≠ some "length"
  noAccessor : path.getLast? = some "__proto__" →
    hasOwn (nodeAt config path.dropLast) "__proto__" = true ∨ comes config path = false

/-- The look-up does not throw, and what was set reads back unless that threw. -/
structure Reliable (withPrototype : Value → Value → Option Value) (config : Value) (key : String) :
    Prop where
  answers : (get config key).isSome = true
  written : ∀ value, value ≠ .undefined → ∀ after, set withPrototype config key value = some after →
    get after key = some value

section Properties

variable (withPrototype : Value → Value → Option Value) (node : Value) (part : String)

/-- What every prototype has is an object or a function. -/
theorem inherited_cases (found : Value) (inherits : (prototype node).lookup part = some found) :
    found = .object [] ∨ ∃ identity, found = .function identity := by
  have functions : ∀ names, (functionsNamed names ++ Dispatch.objectPrototype).lookup part =
      some found → found = .object [] ∨ ∃ identity, found = .function identity := by
    intro names own
    rcases List.mem_append.mp (mem_of_lookup part found _ own) with engine | object
    · obtain ⟨name, _, same⟩ := List.mem_map.mp engine
      exact .inr ⟨0, (Prod.mk.inj same).2.symm⟩
    · simp only [Dispatch.objectPrototype, List.mem_cons, Prod.mk.injEq, List.not_mem_nil,
        or_false] at object
      rcases object with ⟨_, rfl⟩ | ⟨_, rfl⟩ | ⟨_, rfl⟩ | ⟨_, rfl⟩ | ⟨_, rfl⟩ | ⟨_, rfl⟩ |
        ⟨_, rfl⟩ | ⟨_, rfl⟩
      · exact .inl rfl
      all_goals exact .inr ⟨_, rfl⟩
  cases node with
  | undefined => cases inherits
  | null => cases inherits
  | array items named => exact functions _ inherits
  | string text => exact functions _ inherits
  | number value => exact functions _ inherits
  | _ => exact functions [] inherits

/-- An own property is read as a member. -/
theorem read_of_stays (stays : Stays node part) : read node part = node.member part := by
  unfold read
  split
  · rfl
  · rename_i notOwn
    rw [stays.resolve_left notOwn]

/-- Every holder inherits the accessor `__proto__`. -/
theorem accessor_of_isHolder (holder : isHolder node = true) :
    (prototype node).lookup "__proto__" = some (.object []) := by
  cases node with
  | object members => rfl
  | array items named => rfl
  | _ => cases holder

/-- A property that is not inherited is written as a member. -/
theorem write_of_stays (stays : Stays node part) (value : Value) :
    write withPrototype node part value = node.assignMember part value := by
  refine if_neg ?_
  rintro ⟨rfl, notOwn, holder⟩
  rcases stays with own | absent
  · exact Bool.noConfusion (own.symm.trans notOwn)
  · rw [accessor_of_isHolder node holder] at absent
    cases absent

/-- The nodes that have properties are those whose properties can be read. -/
theorem read_isSome (defined : node ≠ .undefined) (notNull : node ≠ .null) :
    (read node part).isSome = true := by
  unfold read
  split
  · exact Value.isSome_member node part defined notNull
  · split
    · rfl
    · exact Value.isSome_member node part defined notNull

/-- A member that was written is an own property. -/
theorem hasOwn_assignMember (written value : Value) (holder : isHolder node = true)
    (done : node.assignMember part value = some written) : hasOwn written part = true := by
  cases node with
  | object members =>
    obtain rfl := Option.some.inj done
    simp [hasOwn]
  | array items named =>
    simp only [Value.assignMember] at done
    split at done
    · rename_i length
      obtain ⟨count, _, rfl⟩ := Option.map_eq_some_iff.mp done
      simp [hasOwn, length]
    · split at done
      · rename_i index found
        obtain rfl := Option.some.inj done
        have inside : index < (Value.resize items (max items.length (index + 1))).length := by
          simp only [Value.resize, List.length_take, List.length_append, List.length_replicate]
          omega
        simp [hasOwn, found, inside]
      · rename_i found
        obtain rfl := Option.some.inj done
        simp [hasOwn, found]
  | _ => cases holder

end Properties

section Reading

/-- Under what is falsy nothing is truthy. -/
theorem falsy_nodeAt (path : List String) (node : Value) (falsy : node.truthy = false) :
    (nodeAt node path).truthy = false := by
  induction path generalizing node with
  | nil => exact falsy
  | cons part rest ih =>
    refine ih (setting node part) ?_
    cases node with
    | string text =>
      obtain rfl : text = "" := by simpa [Value.truthy] using falsy
      simp only [setting, Value.member]
      split
      · rfl
      · split <;> rfl
    | array items named => cases falsy
    | object members => cases falsy
    | error thrown => cases falsy
    | _ => rfl

/-- Under what is missing everything is. -/
theorem nodeAt_undefined (path : List String) : nodeAt .undefined path = .undefined := by
  induction path with
  | nil => rfl
  | cons part rest ih => exact ih

/-- The look-up of one part is the read. -/
theorem findKey_single (cfg node : Value) (part : String) (own : read cfg part = some node) :
    findKey cfg [part] = some node := by
  simp only [findKey, own, Option.bind_eq_bind, Option.bind_some]
  cases node <;> rfl

/-- The look-up goes on with what was read. -/
theorem findKey_of_read (cfg node : Value) (part : String) (path : List String)
    (own : read cfg part = some node) (defined : node ≠ .undefined) :
    findKey cfg (part :: path) = findKey node path := by
  simp only [findKey, own, Option.bind_eq_bind, Option.bind_some]

/-- What is found below a node is found below the one that holds it. -/
theorem findKey_below (cfg node value : Value) (part next : String) (path : List String)
    (own : read cfg part = some node) (found : findKey node (next :: path) = some value) :
    findKey cfg (part :: next :: path) = some value := by
  have defined : node ≠ .undefined := by
    rintro rfl
    cases found
  rw [findKey_of_read cfg node part (next :: path) own defined, found]

/-- A look-up that stays in the configuration throws where it comes to `null` with
parts left. -/
theorem findKey_isSome_iff (path : List String) (cfg : Value) (defined : cfg ≠ .undefined)
    (inside : Inside cfg path) : (findKey cfg path).isSome = true ↔ NoNull cfg path := by
  induction path generalizing cfg with
  | nil => simp [findKey, NoNull, StrictPrefix]
  | cons part rest ih =>
    rw [NoNull, forall_strictPrefix_cons_iff]
    show _ ↔ cfg ≠ .null ∧ NoNull (setting cfg part) rest
    by_cases null : cfg = .null
    · subst null
      simp [findKey, read, hasOwn, prototype, Value.member]
    · cases rest with
      | nil =>
        obtain ⟨node, own⟩ := Option.isSome_iff_exists.mp (read_isSome cfg part defined null)
        simp [findKey_single cfg node part own, null, NoNull, StrictPrefix]
      | cons next rest =>
        obtain ⟨stays, _, later⟩ := inside
        obtain ⟨node, member⟩ := Option.isSome_iff_exists.mp
          (Value.isSome_member cfg part defined null)
        have own := (read_of_stays cfg part stays).trans member
        have same : setting cfg part = node := by rw [setting, member, Option.getD_some]
        rw [same] at later
        rw [same, and_iff_right null]
        by_cases missing : node = .undefined
        · subst missing
          have nowhere : NoNull .undefined (next :: rest) := fun front _ => by
            simp [nodeAt_undefined]
          simp [findKey, own, nowhere]
        · rw [findKey_of_read cfg node part (next :: rest) own missing, ih node missing later]

end Reading

section Ways

/-- What stays in the configuration below a falsy node does so below an empty
object in its place. -/
theorem inside_of_falsy (path : List String) (node : Value) (falsy : node.truthy = false)
    (inside : Inside node path) : Inside .undefined path ∧ Inside (.object []) path := by
  induction path generalizing node with
  | nil => exact ⟨trivial, trivial⟩
  | cons part rest ih =>
    cases rest with
    | nil => exact ⟨trivial, trivial⟩
    | cons next rest =>
      obtain ⟨_, stays, later⟩ := inside
      have empty : opened node = .object [] := if_neg (by simp [falsy])
      rw [empty] at stays
      have below := (ih (setting node part) (falsy_nodeAt [part] node falsy) later).1
      exact ⟨⟨.inr rfl, stays, below⟩, ⟨stays, stays, below⟩⟩

end Ways

section Writing

variable (withPrototype : Value → Value → Option Value) (cfg child : Value) (part : String)
  (value : Value)

/-- What holds no members stays as it is. -/
theorem write_of_not_holder (still : isHolder cfg = false)
    (done : write withPrototype cfg part value = some child) : child = cfg := by
  rw [write, if_neg (by simp [still])] at done
  exact assignMember_of_not_holder cfg child part value still done

/-- A write on the way through what holds no members changes nothing. -/
theorem setKey_of_not_holder (path : List String) (node : Value) (still : isHolder node = false)
    (done : setKey withPrototype node path value = some child) : child = node := by
  match path with
  | [] => exact (Option.some.inj done).symm
  | [last] => exact write_of_not_holder withPrototype node child last value still done
  | part :: next :: rest =>
    simp only [setKey, Option.bind_eq_bind, Option.bind_eq_some_iff] at done
    obtain ⟨found, _, done⟩ := done
    by_cases truthy : found.truthy = true
    · simp only [if_pos truthy, Option.bind_some, Option.bind_eq_some_iff] at done
      obtain ⟨base, _, below, _, put⟩ := done
      exact write_of_not_holder withPrototype node child part below still put
    · simp only [if_neg truthy, Option.bind_eq_some_iff] at done
      obtain ⟨changed, replaced, base, _, below, _, put⟩ := done
      obtain rfl := write_of_not_holder withPrototype node changed part _ still replaced
      exact write_of_not_holder withPrototype _ child part below still put

/-- The length of an array, or anything under what holds no members. -/
def Fixed : Prop :=
  (∃ items named, cfg = .array items named ∧ part = "length") ∨ isHolder cfg = false

/-- The properties of a primitive are primitives. -/
theorem setting_of_primitive (still : isHolder cfg = false) : setting cfg part = .undefined ∨
    (∃ number, setting cfg part = .integer number) ∨ ∃ text, setting cfg part = .string text := by
  cases cfg with
  | object members => cases still
  | array items named => cases still
  | string text =>
    simp only [setting, Value.member]
    split
    · exact .inr (.inl ⟨_, by rw [Option.getD_some]⟩)
    · split
      · rename_i index _
        cases text.toList[index]? with
        | none => exact .inl (by simp)
        | some c => exact .inr (.inr ⟨String.singleton c, by simp⟩)
      · exact .inl (by simp)
  | error thrown =>
    simp only [setting, Value.member]
    split
    · exact .inr (.inr ⟨_, by rw [Option.getD_some]⟩)
    · split
      · exact .inr (.inr ⟨_, by rw [Option.getD_some]⟩)
      · exact .inl (by simp)
  | _ => exact .inl (by simp [setting, Value.member])

/-- A write below such a node changes nothing. -/
theorem child_of_fixed (path : List String) (fixed : Fixed cfg part)
    (below : setKey withPrototype (setting cfg part) path value = some child) :
    child = setting cfg part := by
  refine setKey_of_not_holder withPrototype child value path _ ?_ below
  rcases fixed with ⟨items, named, rfl, rfl⟩ | still
  · rfl
  · rcases setting_of_primitive cfg part still with own | ⟨_, own⟩ | ⟨_, own⟩ <;> rw [own] <;> rfl

/-- A member that is written reads back, if it is the old one where nothing can
change. -/
theorem member_put_back (truthy : cfg.truthy = true)
    (kept : Fixed cfg part → child = setting cfg part) :
    ∃ written, cfg.assignMember part child = some written ∧ written.member part = some child := by
  have member := member_eq_setting cfg part truthy
  cases cfg with
  | object members => exact ⟨_, rfl, by simp⟩
  | array items named =>
    by_cases length : part = "length"
    · subst length
      obtain rfl := kept (.inl ⟨items, named, rfl, rfl⟩)
      refine ⟨.array (Value.resize items items.length) named, ?_, ?_⟩
      · simp [Value.assignMember, setting, Value.member, Value.integer, Value.arrayLength]
      · simp [Value.member, Value.resize, setting]
    · obtain ⟨written, put⟩ := Option.isSome_iff_exists.mp
        ((isSome_assignMember (.array items named) part child length).trans (by rw [member]; rfl))
      exact ⟨written, put, member_assignMember_self _ written part child length rfl put⟩
  | undefined => cases truthy
  | null => cases truthy
  | _ =>
    obtain rfl := kept (.inr rfl)
    exact ⟨_, rfl, member⟩

/-- On the way a child is put back as it is read. -/
theorem put_back (truthy : cfg.truthy = true) (stays : Stays cfg part)
    (kept : Fixed cfg part → child = setting cfg part) :
    ∃ written, write withPrototype cfg part child = some written ∧
      cfg.assignMember part child = some written ∧ Stays written part ∧
      read written part = some child := by
  obtain ⟨written, put, own⟩ := member_put_back cfg child part truthy kept
  have staying : Stays written part := by
    cases holder : isHolder cfg with
    | true => exact .inl (hasOwn_assignMember cfg part written child holder put)
    | false => rwa [assignMember_of_not_holder cfg written part child holder put]
  exact ⟨written, (write_of_stays withPrototype cfg part stays child).trans put, put, staying,
    (read_of_stays written part staying).trans own⟩

/-- A property of a primitive is truthy or not there. -/
theorem setting_of_not_holder (truthy : cfg.truthy = true) (plain : Json.Plain cfg)
    (still : isHolder cfg = false) (falsy : (setting cfg part).truthy = false) :
    setting cfg part = .undefined := by
  cases cfg with
  | object members => cases still
  | array items named => cases still
  | error thrown => cases plain
  | string text =>
    simp only [setting, Value.member] at falsy ⊢
    split
    · rename_i length
      have empty : text = "" := by simpa [length] using falsy
      simp [Value.truthy, empty] at truthy
    · rename_i noLength
      split
      · rename_i index found
        cases held : text.toList[index]? with
        | none => simp
        | some c => simp [noLength, found, held, Value.truthy] at falsy
      · rfl
  | _ => rfl

/-- No property of a primitive is a boolean, whether its own or inherited. -/
theorem read_ne_boolean (truthy : cfg.truthy = true) (still : isHolder cfg = false) :
    ∃ found, read cfg part = some found ∧ found ≠ .boolean true := by
  have member := member_eq_setting cfg part truthy
  have own : setting cfg part ≠ .boolean true := by
    rcases setting_of_primitive cfg part still with own | ⟨_, own⟩ | ⟨_, own⟩ <;>
      simp [own, Value.integer]
  unfold read
  split
  · exact ⟨_, member, own⟩
  · split
    · rename_i found inherits
      rcases inherited_cases cfg part found inherits with rfl | ⟨_, rfl⟩ <;>
        exact ⟨_, rfl, by simp⟩
    · exact ⟨_, member, own⟩

/-- Nothing is written under what is missing. -/
theorem setKey_undefined (path : List String) :
    setKey withPrototype .undefined (part :: path) value = none := by
  cases path with
  | nil => simp [setKey, write, isHolder, Value.assignMember]
  | cons next rest => rfl

/-- A replaced member leaves a node that can change as changeable. -/
theorem not_fixed_assignMember (written : Value) (free : ¬ Fixed cfg part)
    (done : cfg.assignMember part value = some written) :
    ¬ Fixed written part ∧ isHolder written = true := by
  rcases assignMember_cases cfg written part value done with
    ⟨members, rfl, rfl⟩ | ⟨items, named, others, names, rfl, rfl⟩ | ⟨still, _⟩
  · exact ⟨by simp [Fixed, isHolder], rfl⟩
  · refine ⟨?_, rfl⟩
    rintro (⟨_, _, _, length⟩ | still)
    · exact free (.inl ⟨items, named, rfl, length⟩)
    · cases still
  · exact absurd (.inr still) free

/-- A write goes on in a truthy child, which is put back. -/
theorem setKey_truthy (next : String) (rest : List String) (truthy : cfg.truthy = true)
    (stays : Stays cfg part) (present : (setting cfg part).truthy = true) :
    setKey withPrototype cfg (part :: next :: rest) value =
      (setKey withPrototype (setting cfg part) (next :: rest) value).bind
        (write withPrototype cfg part) := by
  simp [setKey, read_of_stays cfg part stays, member_eq_setting cfg part truthy, present]

/-- A falsy child of a node that can change is replaced by an object. -/
theorem setKey_replaced (next : String) (rest : List String) (truthy : cfg.truthy = true)
    (stays : Stays cfg part) (free : ¬ Fixed cfg part)
    (falsy : ¬ (setting cfg part).truthy = true) :
    ∃ changed, changed.truthy = true ∧ ¬ Fixed changed part ∧ Stays changed part ∧ ∀ value,
      setKey withPrototype cfg (part :: next :: rest) value =
        (setKey withPrototype (.object []) (next :: rest) value).bind
          (write withPrototype changed part) := by
  obtain ⟨changed, wrote, put, staying, own⟩ := put_back withPrototype cfg (.object []) part truthy
    stays fun held => absurd held free
  obtain ⟨changeable, holder⟩ := not_fixed_assignMember cfg part _ changed free put
  have found : read cfg part = some (setting cfg part) :=
    (read_of_stays cfg part stays).trans (member_eq_setting cfg part truthy)
  refine ⟨changed, truthy_of_isHolder changed holder, changeable, staying, fun value => ?_⟩
  simp [setKey, found, falsy, wrote, own]

end Writing

section Keeping

variable (cfg : Value) (part : String)

/-- What can change is not fixed. -/
theorem changeable_iff : changeable cfg part = true ↔ ¬ Fixed cfg part := by
  cases cfg <;> simp [changeable, Fixed, isHolder]

/-- A write into an empty object comes to its last part. -/
theorem comes_empty (path : List String) : comes (.object []) path = true := by
  match path with
  | [] => rfl
  | [_] => rfl
  | _ :: _ :: _ => rfl

/-- What is falsy has no own `__proto__`. -/
theorem hasOwn_of_falsy (falsy : cfg.truthy = false) : hasOwn cfg "__proto__" = false := by
  cases cfg with
  | string text =>
    obtain rfl : text = "" := by simpa [Value.truthy] using falsy
    cases index : Value.arrayIndex "__proto__" <;> simp [hasOwn, index]
  | array items named => cases falsy
  | object members => cases falsy
  | error thrown => cases falsy
  | _ => rfl

/-- The last step keeps the value where the node can change and the accessor is
not come to. -/
theorem keeps_single_iff (truthy : cfg.truthy = true) :
    Keeps cfg [part] ↔ ¬ Fixed cfg part ∧ (part = "__proto__" → hasOwn cfg part = true) := by
  constructor
  · rintro ⟨holds, noLength, noAccessor⟩
    refine ⟨?_, ?_⟩
    · rintro (⟨items, named, rfl, rfl⟩ | still)
      · exact noLength items named rfl rfl
      · exact Bool.noConfusion ((holds truthy).symm.trans still)
    · rintro rfl
      exact (noAccessor rfl).resolve_right (by simp [comes])
  · rintro ⟨free, own⟩
    refine ⟨fun _ => ?_, fun items named array length => ?_, fun proto => .inl ?_⟩
    · by_contra still
      exact free (.inr (Bool.eq_false_iff.mpr still))
    · exact free (.inl ⟨items, named, array, Option.some.inj length⟩)
    · obtain rfl : part = "__proto__" := Option.some.inj proto
      exact own rfl

/-- The condition, past a truthy node on the way. -/
theorem keeps_cons_iff (next : String) (rest : List String)
    (present : (setting cfg part).truthy = true) :
    Keeps cfg (part :: next :: rest) ↔ Keeps (setting cfg part) (next :: rest) := by
  have reached : comes cfg (part :: next :: rest) = comes (setting cfg part) (next :: rest) :=
    if_pos present
  exact ⟨fun ⟨holds, noLength, noAccessor⟩ => ⟨holds, noLength, by rwa [← reached]⟩,
    fun ⟨holds, noLength, noAccessor⟩ => ⟨holds, noLength, by rwa [reached]⟩⟩

/-- Under a falsy node only the accessor can take what is set. -/
theorem keeps_of_falsy (path : List String) (falsy : (nodeAt cfg path.dropLast).truthy = false)
    (noAccessor : path.getLast? = some "__proto__" →
      hasOwn (nodeAt cfg path.dropLast) "__proto__" = true ∨ comes cfg path = false) :
    Keeps cfg path := by
  refine ⟨fun truthy => ?_, fun items named array => ?_, noAccessor⟩
  · rw [falsy] at truthy
    cases truthy
  · rw [array] at falsy
    cases falsy

/-- In an empty object everything is kept that does not come to the accessor. -/
theorem keeps_empty_iff (path : List String) :
    Keeps (.object []) path ↔ path.getLast? ≠ some "__proto__" := by
  have notOwn : hasOwn (nodeAt (.object []) path.dropLast) "__proto__" = false := by
    cases path.dropLast with
    | nil => rfl
    | cons part rest =>
      have missing : nodeAt (.object []) (part :: rest) = .undefined := nodeAt_undefined rest
      rw [missing]
      rfl
  constructor
  · intro keeps proto
    rcases keeps.noAccessor proto with own | thrown
    · exact Bool.noConfusion (own.symm.trans notOwn)
    · exact Bool.noConfusion ((comes_empty path).symm.trans thrown)
  · intro other
    cases front : path.dropLast with
    | nil =>
      refine ⟨fun _ => ?_, fun items named array => ?_, fun proto => absurd proto other⟩
      · rw [front]
        rfl
      · rw [front] at array
        cases array
    | cons part rest =>
      refine keeps_of_falsy _ path ?_ fun proto => absurd proto other
      have missing : nodeAt (.object []) (part :: rest) = .undefined := nodeAt_undefined rest
      rw [front, missing]
      rfl

/-- The condition, past a falsy node on the way: where that is replaced it is the
condition of an empty object, and elsewhere there is none. -/
theorem keeps_falsy_iff (next : String) (rest : List String)
    (falsy : (setting cfg part).truthy = false) :
    Keeps cfg (part :: next :: rest) ↔ (¬ Fixed cfg part → Keeps (.object []) (next :: rest)) := by
  have parent : (nodeAt cfg (part :: next :: rest).dropLast).truthy = false :=
    falsy_nodeAt (next :: rest).dropLast (setting cfg part) falsy
  have reached : comes cfg (part :: next :: rest) = changeable cfg part := if_neg (by simp [falsy])
  have last : (part :: next :: rest).getLast? = (next :: rest).getLast? :=
    List.getLast?_cons_cons
  rw [keeps_empty_iff, ← changeable_iff]
  constructor
  · intro keeps free proto
    rcases keeps.noAccessor (last.trans proto) with own | thrown
    · exact Bool.noConfusion (own.symm.trans (hasOwn_of_falsy _ parent))
    · exact Bool.noConfusion ((reached.trans free).symm.trans thrown)
  · intro other
    refine keeps_of_falsy cfg _ parent fun proto => .inr ?_
    rw [reached]
    by_contra free
    exact other (by simpa using free) (last.symm.trans proto)

end Keeping

section Outcomes

variable (withPrototype : Value → Value → Option Value)

/-- What is set under the last part reads back where it is kept, whether the node
inherits such a property or not. -/
theorem read_write (cfg : Value) (part : String) (value : Value) (truthy : cfg.truthy = true)
    (keeps : Keeps cfg [part]) :
    ∃ written, write withPrototype cfg part value = some written ∧
      read written part = some value := by
  obtain ⟨free, own⟩ := (keeps_single_iff cfg part truthy).mp keeps
  obtain ⟨written, put, member⟩ := member_put_back cfg value part truthy fun held =>
    absurd held free
  have holder : isHolder cfg = true := by
    by_contra still
    exact free (.inr (Bool.eq_false_iff.mpr still))
  have plain : write withPrototype cfg part value = cfg.assignMember part value := by
    refine if_neg ?_
    rintro ⟨proto, notOwn, _⟩
    subst proto
    exact Bool.noConfusion ((own rfl).symm.trans notOwn)
  refine ⟨written, plain.trans put, ?_⟩
  rw [read_of_stays written part (.inl (hasOwn_assignMember cfg part written value holder put)),
    member]

/-- What is set reads back where the node that gets it keeps it. -/
theorem findKey_setKey (path : List String) (part : String) (cfg written value : Value)
    (truthy : cfg.truthy = true) (plain : Json.Plain cfg) (inside : Inside cfg (part :: path))
    (keeps : Keeps cfg (part :: path))
    (done : setKey withPrototype cfg (part :: path) value = some written) :
    findKey written (part :: path) = some value := by
  induction path generalizing part cfg written with
  | nil =>
    obtain ⟨put, same, own⟩ := read_write withPrototype cfg part value truthy keeps
    obtain rfl : put = written := Option.some.inj (same.symm.trans done)
    exact findKey_single put value part own
  | cons next rest ih =>
    obtain ⟨stays, _, later⟩ := inside
    have member := member_eq_setting cfg part truthy
    by_cases present : (setting cfg part).truthy = true
    · rw [keeps_cons_iff cfg part next rest present] at keeps
      rw [setKey_truthy withPrototype cfg part value next rest truthy stays present] at done
      obtain ⟨child, below, put⟩ := Option.bind_eq_some_iff.mp done
      have plainNode : Json.Plain (setting cfg part) := by
        rcases Json.plain_member cfg _ part plain member with missing | plain
        · rw [missing] at present
          cases present
        · exact plain
      have found := ih next (setting cfg part) child present plainNode later keeps below
      obtain ⟨again, same, _, _, own⟩ := put_back withPrototype cfg child part truthy stays
        fun fixed => child_of_fixed withPrototype cfg child part value (next :: rest) fixed below
      obtain rfl : again = written := Option.some.inj (same.symm.trans put)
      exact findKey_below again child value part next rest own found
    · have falsy : (setting cfg part).truthy = false := by simpa using present
      by_cases fixed : Fixed cfg part
      · -- the replacement is refused, or dropped, and then there is nothing to write to
        have found : read cfg part = some (setting cfg part) :=
          (read_of_stays cfg part stays).trans member
        simp only [setKey, found, Option.bind_eq_bind, Option.bind_some, if_neg present,
          Option.bind_eq_some_iff] at done
        obtain ⟨changed, replaced, base, basis, child, below, _⟩ := done
        rcases fixed with ⟨items, named, rfl, rfl⟩ | still
        · simp [write, Value.assignMember, Value.arrayLength] at replaced
        · obtain rfl := write_of_not_holder withPrototype cfg changed part _ still replaced
          have missing := setting_of_not_holder changed part truthy plain still falsy
          obtain rfl : setting changed part = base := Option.some.inj (found.symm.trans basis)
          rw [missing, setKey_undefined] at below
          cases below
      · obtain ⟨changed, live, changeable, staying, opened⟩ := setKey_replaced withPrototype
          cfg part next rest truthy stays fixed present
        rw [opened value] at done
        obtain ⟨child, below, wrote⟩ := Option.bind_eq_some_iff.mp done
        have found := ih next (.object []) child rfl ⟨List.nodup_nil, trivial⟩
          (inside_of_falsy _ _ falsy later).2
          ((keeps_falsy_iff cfg part next rest falsy).mp keeps fixed) below
        obtain ⟨last, same, _, _, own⟩ := put_back withPrototype changed child part live staying
          fun held => absurd held changeable
        obtain rfl : last = written := Option.some.inj (same.symm.trans wrote)
        exact findKey_below last child value part next rest own found

/-- What is lost in a child is lost in the node that holds it. -/
theorem findKey_ne (written child value : Value) (part : String) (path : List String)
    (own : read written part = some child) (defined : value ≠ .undefined)
    (lost : findKey child path ≠ some value) : findKey written (part :: path) ≠ some value := by
  by_cases missing : child = .undefined
  · subst missing
    simpa [findKey, own] using defined.symm
  · rwa [findKey_of_read written child part path own missing]

/-- Where the last part is not kept, some value is lost without an exception. -/
theorem exists_unwritten (cfg : Value) (part : String) (truthy : cfg.truthy = true)
    (lossy : ¬ Keeps cfg [part]) :
    ∃ value, value ≠ .undefined ∧ ∃ written, write withPrototype cfg part value = some written ∧
      findKey written [part] ≠ some value := by
  by_cases fixed : Fixed cfg part
  · rcases fixed with ⟨items, named, rfl, rfl⟩ | still
    · refine ⟨.string "", by simp, .array (Value.resize items 0) named, ?_, ?_⟩
      · simp [write, Value.assignMember, Value.arrayLength]
      · simp [findKey, read, hasOwn, Value.member, Value.integer]
    · -- a primitive drops what is assigned
      obtain ⟨found, own, other⟩ := read_ne_boolean cfg part truthy still
      refine ⟨.boolean true, by simp, cfg, ?_, ?_⟩
      · rw [write, if_neg (by simp [still])]
        cases cfg with
        | undefined => cases truthy
        | null => cases truthy
        | object members => cases still
        | array items named => cases still
        | _ => rfl
      · rw [findKey_single cfg found part own]
        exact fun same => other (Option.some.inj same)
  · -- the accessor leaves the prototype as it is
    have holder : isHolder cfg = true := by
      by_contra still
      exact fixed (.inr (Bool.eq_false_iff.mpr still))
    rw [keeps_single_iff cfg part truthy, not_and] at lossy
    have inherits := lossy fixed
    rw [Classical.not_imp] at inherits
    obtain ⟨rfl, notOwn⟩ := inherits
    have notOwn := Bool.eq_false_iff.mpr notOwn
    refine ⟨.boolean true, by simp, cfg, by simp [write, notOwn, holder, isPrototype], ?_⟩
    have own : read cfg "__proto__" = some (.object []) := by
      simp [read, notOwn, accessor_of_isHolder cfg holder]
    rw [findKey_single cfg _ "__proto__" own]
    simp

/-- Where the node cannot keep it, some value is lost without an exception. -/
theorem exists_lost (path : List String) (part : String) (cfg : Value)
    (truthy : cfg.truthy = true) (inside : Inside cfg (part :: path))
    (lossy : ¬ Keeps cfg (part :: path)) :
    ∃ value, value ≠ .undefined ∧ ∃ written,
      setKey withPrototype cfg (part :: path) value = some written ∧
      findKey written (part :: path) ≠ some value := by
  induction path generalizing part cfg with
  | nil => exact exists_unwritten withPrototype cfg part truthy lossy
  | cons next rest ih =>
    obtain ⟨stays, _, later⟩ := inside
    by_cases present : (setting cfg part).truthy = true
    · rw [keeps_cons_iff cfg part next rest present] at lossy
      obtain ⟨value, defined, child, below, lost⟩ := ih next (setting cfg part) present later lossy
      obtain ⟨written, put, _, _, own⟩ := put_back withPrototype cfg child part truthy stays
        fun fixed => child_of_fixed withPrototype cfg child part value (next :: rest) fixed below
      refine ⟨value, defined, written, ?_,
        findKey_ne written child value part (next :: rest) own defined lost⟩
      rw [setKey_truthy withPrototype cfg part value next rest truthy stays present, below,
        Option.bind_some, put]
    · have falsy : (setting cfg part).truthy = false := by simpa using present
      rw [keeps_falsy_iff cfg part next rest falsy, Classical.not_imp] at lossy
      obtain ⟨free, lossy⟩ := lossy
      obtain ⟨changed, live, changeable, staying, opened⟩ := setKey_replaced withPrototype
        cfg part next rest truthy stays free present
      obtain ⟨value, defined, child, below, lost⟩ := ih next (.object []) rfl
        (inside_of_falsy _ _ falsy later).2 lossy
      obtain ⟨written, put, _, _, own⟩ := put_back withPrototype changed child part live staying
        fun held => absurd held changeable
      refine ⟨value, defined, written, ?_,
        findKey_ne written child value part (next :: rest) own defined lost⟩
      rw [opened, below, Option.bind_some, put]

end Outcomes

/-- A key whose way stays in the configuration is read and written reliably
exactly where no `null` is on its way and the node for its last part keeps what
is set. -/
theorem reliable_iff (withPrototype : Value → Value → Option Value) (members : Members)
    (plain : Json.Plain (.object members)) (key : String) (given : key ≠ "")
    (inside : Inside (.object members) (parts key)) :
    Reliable withPrototype (.object members) key ↔
      NoNull (.object members) (parts key) ∧ Keeps (.object members) (parts key) := by
  obtain ⟨part, path, split⟩ := List.exists_cons_of_ne_nil (parts_ne_nil key)
  have reading : ∀ config, get config key = findKey config (parts key) := fun config => if_neg given
  constructor
  · rintro ⟨answers, written⟩
    rw [reading, findKey_isSome_iff _ _ (by simp) inside] at answers
    refine ⟨answers, ?_⟩
    by_contra lossy
    rw [split] at lossy inside
    obtain ⟨value, defined, after, done, lost⟩ :=
      exists_lost withPrototype path part _ rfl inside lossy
    refine lost ?_
    rw [← split] at done ⊢
    rw [← reading]
    exact written value defined after done
  · rintro ⟨noNull, keeps⟩
    refine ⟨by rwa [reading, findKey_isSome_iff _ _ (by simp) inside], fun value _ after done => ?_⟩
    rw [reading, split]
    rw [split] at keeps inside
    rw [set, split] at done
    exact findKey_setKey withPrototype path part _ after value rfl plain inside keeps done

/-- Setting a prototype leaves the own members of an object. -/
def keepingMembers : Value → Value → Option Value := fun node _ => some node

/-- A name that every object inherits can be set in an empty configuration. -/
theorem inherited_name_reliable : Reliable keepingMembers (.object []) "toString" := by
  have single : parts "toString" = ["toString"] := rfl
  refine (reliable_iff keepingMembers [] ⟨List.nodup_nil, trivial⟩ "toString" (by decide)
    (by rw [single]; trivial)).mpr ?_
  rw [single]
  refine ⟨?_, (keeps_empty_iff _).mpr (by simp)⟩
  rw [NoNull, forall_strictPrefix_cons_iff]
  refine ⟨by simp [nodeAt], ?_⟩
  rintro front ⟨part, rest, split⟩
  simp at split

/-- A `null` on the way makes the look-up throw, and a number drops the write. -/
theorem null_and_number_unreliable :
    get (.object [("bittorrent", .null)]) "bittorrent.listenPort" = none ∧
    (set keepingMembers (.object [("bittorrent", .integer 5)]) "bittorrent.listenPort"
        (.integer 6881) = some (.object [("bittorrent", .integer 5)]) ∧
      get (.object [("bittorrent", .integer 5)]) "bittorrent.listenPort" = some .undefined) ∧
    ¬ Reliable keepingMembers (.object [("bittorrent", .null)]) "bittorrent.listenPort" ∧
    ¬ Reliable keepingMembers (.object [("bittorrent", .integer 5)]) "bittorrent.listenPort" := by
  refine ⟨rfl, ⟨rfl, rfl⟩, fun reliable => ?_, fun reliable => ?_⟩
  · have answers := reliable.answers
    cases answers
  · have kept := reliable.written (.integer 6881) (by simp [Value.integer]) _ rfl
    cases kept

section Ordinary

/-- A name that no prototype has is inherited by no node. -/
theorem stays_of_ordinary (node : Value) (part : String) (ordinary : part ∉ inheritedNames) :
    Stays node part := by
  refine .inr ?_
  have missing : ∀ names, names ⊆ inheritedNames →
      (functionsNamed names ++ Dispatch.objectPrototype).lookup part = none := by
    intro names known
    refine Option.not_isSome_iff_eq_none.mp fun found => ordinary ?_
    rw [lookup_isSome_iff, List.map_append] at found
    rcases List.mem_append.mp found with engine | object
    · refine known ?_
      simpa [functionsNamed] using engine
    · simp only [inheritedNames, List.mem_append]
      exact .inl (.inl (.inl object))
  cases node with
  | undefined => rfl
  | null => rfl
  | array items named => exact missing arrayNames fun name own => by simp [inheritedNames, own]
  | string text => exact missing stringNames fun name own => by simp [inheritedNames, own]
  | number value => exact missing numberNames fun name own => by simp [inheritedNames, own]
  | _ => exact missing [] (List.nil_subset _)

/-- Along ordinary names both walks of `get` are one. -/
theorem findKey_of_ordinary (path : List String) (config : Value)
    (ordinary : ∀ part ∈ path, part ∉ inheritedNames) :
    findKey config path = Config.findKey config path := by
  induction path generalizing config with
  | nil => rfl
  | cons part rest ih =>
    have own := read_of_stays config part (stays_of_ordinary config part (ordinary part (by simp)))
    have later := fun node => ih node fun other inside => ordinary other (List.mem_cons_of_mem _ inside)
    rw [findKey, Config.findKey, own]
    refine Option.bind_congr fun node _ => ?_
    cases node with
    | undefined => rfl
    | _ => exact later _

/-- Along ordinary names both walks of `set` are one. -/
theorem setKey_of_ordinary (withPrototype : Value → Value → Option Value) (path : List String)
    (config value : Value) (ordinary : ∀ part ∈ path, part ∉ inheritedNames) :
    setKey withPrototype config path value = Config.setKey config path value := by
  induction path generalizing config with
  | nil => rfl
  | cons part rest ih =>
    have stays := fun node => stays_of_ordinary node part (ordinary part (by simp))
    have written := fun node value => write_of_stays withPrototype node part (stays node) value
    have own := fun node => read_of_stays node part (stays node)
    have later := fun node => ih node fun other inside => ordinary other (List.mem_cons_of_mem _ inside)
    cases rest with
    | nil => exact written config value
    | cons next rest => simp only [setKey, Config.setKey, written, own, later]

/-- For keys without built-in names this is the configuration whose laws are those
of a lens. -/
theorem ordinary_key (withPrototype : Value → Value → Option Value) (key : Key) (config : Value) :
    get config key.text = ConfigLens.get config key.text ∧
      ∀ value, set withPrototype config key.text value = ConfigLens.set config key.text value := by
  refine ⟨?_, fun value => setKey_of_ordinary withPrototype _ config value key.ordinary⟩
  rw [get, ConfigLens.get, findKey_of_ordinary _ config key.ordinary]

end Ordinary

end Hadouken.ConfigFailures
