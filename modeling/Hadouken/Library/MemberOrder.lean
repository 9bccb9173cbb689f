import Hadouken.Library.Values

/-!
# Values up to the order of their members

Two values are alike when they differ in the order of the members of their
objects alone, at any depth. Members are observed by lookups, so that alike
objects are those with the same names, and alike values under each of them.

Names that are neither an index nor the length are members of arrays as they are
of objects.
-/

namespace Hadouken.Script

namespace Value

/-- A name that is neither the length nor an index. -/
def ordinary (name : String) : Bool := decide (name ≠ "length") && (arrayIndex name).isNone

/-- A name with a character that is no digit is no index. -/
theorem ordinary_of_lettered {name : String} (noLength : name ≠ "length")
    (lettered : (name.toList.any fun letter => !letter.isDigit) = true) : ordinary name = true := by
  have noIndex : arrayIndex name = none := by
    by_contra index
    obtain ⟨index, found⟩ := Option.ne_none_iff_exists'.mp index
    rw [arrayIndex, Option.filter_eq_some_iff] at found
    obtain ⟨letter, inside, noDigit⟩ := List.any_eq_true.mp lettered
    rw [← eq_of_beq found.2] at inside
    have among : letter ∈ Nat.toDigits 10 index := by simpa using inside
    have digit := Nat.isDigit_of_mem_toDigits (by decide) (by decide) among
    rw [digit] at noDigit
    cases noDigit
  simp [ordinary, noLength, noIndex]

/-- The named members of a value that holds some. -/
def named? : Value → Option Members
  | .object members => some members
  | .array _ named => some named
  | _ => none

/-- The value with other named members. -/
def withNamed (value : Value) (members : Members) : Value :=
  match value with
  | .object _ => .object members
  | .array items _ => .array items members
  | other => other

section Named

variable {value : Value} {members : Members} {name : String}

/-- A member is read among the named ones. -/
theorem member_named (held : value.named? = some members) (plain : ordinary name = true) :
    value.member name = some ((members.lookup name).getD .undefined) := by
  simp only [ordinary, Bool.and_eq_true, decide_eq_true_eq, Option.isNone_iff_eq_none] at plain
  cases value with
  | object own =>
    obtain rfl : own = members := Option.some.inj held
    rfl
  | array items own =>
    obtain rfl : own = members := Option.some.inj held
    simp [member, plain.1, plain.2]
  | _ => cases held

/-- A member is assigned among the named ones. -/
theorem assignMember_named (written : Value) (held : value.named? = some members)
    (plain : ordinary name = true) :
    value.assignMember name written = some (value.withNamed (assign name written members)) := by
  simp only [ordinary, Bool.and_eq_true, decide_eq_true_eq, Option.isNone_iff_eq_none] at plain
  cases value with
  | object own =>
    obtain rfl : own = members := Option.some.inj held
    rfl
  | array items own =>
    obtain rfl : own = members := Option.some.inj held
    simp [assignMember, plain.1, plain.2, withNamed]
  | _ => cases held

/-- The named members are those it was given. -/
theorem named?_withNamed (held : value.named? = some members) (others : Members) :
    (value.withNamed others).named? = some others := by
  cases value <;> first | rfl | cases held

/-- The later ones stay. -/
theorem withNamed_withNamed (others more : Members) :
    (value.withNamed others).withNamed more = value.withNamed more := by
  cases value <;> rfl

end Named

end Value

/-- The values are the same up to the order of members. -/
inductive Alike : Value → Value → Prop
  | refl (value : Value) : Alike value value
  | object {members others : Members}
      (names : ∀ name, (members.lookup name).isSome = (others.lookup name).isSome)
      (values : ∀ name own other, members.lookup name = some own →
        others.lookup name = some other → Alike own other) :
      Alike (.object members) (.object others)
  | array {items entries : List Value} {members others : Members}
      (length : items.length = entries.length)
      (each : ∀ (index : Nat) own other, items[index]? = some own → entries[index]? = some other →
        Alike own other)
      (names : ∀ name, (members.lookup name).isSome = (others.lookup name).isSome)
      (values : ∀ name own other, members.lookup name = some own →
        others.lookup name = some other → Alike own other) :
      Alike (.array items members) (.array entries others)

/-- The members are the same up to their order. -/
structure AlikeMembers (members others : Members) : Prop where
  names : ∀ name, (members.lookup name).isSome = (others.lookup name).isSome
  values : ∀ name own other, members.lookup name = some own → others.lookup name = some other →
    Alike own other

/-- What is alike is so both ways. -/
theorem Alike.symm {first second : Value} (alike : Alike first second) : Alike second first := by
  induction alike with
  | refl value => exact .refl value
  | object names _ ih =>
    exact .object (fun name => (names name).symm) fun name own other left right =>
      ih name other own right left
  | array length _ names _ ihEach ih =>
    exact .array length.symm (fun index own other left right => ihEach index other own right left)
      (fun name => (names name).symm) fun name own other left right => ih name other own right left

/-- Between members with the same names, what is under each of them is related by
way of what is under it in a third. -/
theorem exists_between {members others : Members} {name : String} {own : Value}
    (names : ∀ name, (members.lookup name).isSome = (others.lookup name).isSome)
    (found : members.lookup name = some own) : ∃ other, others.lookup name = some other := by
  refine Option.isSome_iff_exists.mp ?_
  rw [← names, found]
  rfl

/-- What is alike twice is alike. -/
theorem Alike.trans {first second third : Value} (earlier : Alike first second)
    (later : Alike second third) : Alike first third := by
  induction earlier generalizing third with
  | refl => exact later
  | object names values ih =>
    cases later with
    | refl => exact .object names values
    | object laterNames laterValues =>
      refine .object (fun name => (names name).trans (laterNames name)) ?_
      intro name own other left right
      obtain ⟨between, found⟩ := exists_between names left
      exact ih name own between left found (laterValues name between other found right)
  | array length each names values ihEach ih =>
    cases later with
    | refl => exact .array length each names values
    | array laterLength laterEach laterNames laterValues =>
      refine .array (length.trans laterLength) ?_
        (fun name => (names name).trans (laterNames name)) ?_
      · intro index own other left right
        have inside := (List.getElem?_eq_some_iff.mp left).1
        have found := List.getElem?_eq_getElem (length ▸ inside)
        exact ihEach index own _ left found (laterEach index _ other found right)
      · intro name own other left right
        obtain ⟨between, found⟩ := exists_between names left
        exact ih name own between left found (laterValues name between other found right)

/-- Members are alike to themselves. -/
theorem AlikeMembers.refl (members : Members) : AlikeMembers members members where
  names _ := rfl
  values name own other left right := by
    obtain rfl := Option.some.inj (left.symm.trans right)
    exact .refl own

/-- Members that are alike twice are alike. -/
theorem AlikeMembers.trans {first second third : Members} (earlier : AlikeMembers first second)
    (later : AlikeMembers second third) : AlikeMembers first third where
  names name := (earlier.names name).trans (later.names name)
  values name own other left right := by
    obtain ⟨between, found⟩ := exists_between earlier.names left
    exact (earlier.values name own between left found).trans
      (later.values name between other found right)

/-- Alike values hold alike members, or none. -/
theorem Alike.named {first second : Value} (alike : Alike first second) :
    Option.Rel AlikeMembers first.named? second.named? := by
  cases alike with
  | refl =>
    cases first.named? with
    | none => exact .none
    | some members => exact .some (.refl members)
  | object names values => exact .some ⟨names, values⟩
  | array _ _ names values => exact .some ⟨names, values⟩

/-- What is alike is truthy together. -/
theorem Alike.truthy {first second : Value} (alike : Alike first second) :
    first.truthy = second.truthy := by
  cases alike <;> rfl

/-- Values without named members are alike when they are the same. -/
theorem Alike.eq_of_unnamed {first second : Value} (alike : Alike first second)
    (other : first.named? = none) : second = first := by
  cases alike with
  | refl => rfl
  | object => cases other
  | array => cases other

/-- Alike values stay so with alike members. -/
theorem Alike.withNamed {first second : Value} {members others : Members}
    (alike : Alike first second) (related : AlikeMembers members others) :
    Alike (first.withNamed members) (second.withNamed others) := by
  cases alike with
  | refl =>
    cases first with
    | object own => exact .object related.names related.values
    | array items own =>
      refine .array rfl (fun index own other left right => ?_) related.names related.values
      obtain rfl := Option.some.inj (left.symm.trans right)
      exact .refl own
    | _ => exact .refl _
  | object => exact .object related.names related.values
  | array length each => exact .array length each related.names related.values

namespace AlikeMembers

variable {members others : Members}

/-- What a script reads under a name is alike. -/
theorem entry (related : AlikeMembers members others) (name : String) :
    Alike ((members.lookup name).getD .undefined) ((others.lookup name).getD .undefined) := by
  cases own : members.lookup name with
  | none =>
    have missing : others.lookup name = none := by
      rw [← Option.not_isSome_iff_eq_none, ← related.names, own]
      simp
    rw [missing]
    exact .refl _
  | some value =>
    obtain ⟨other, found⟩ := exists_between related.names own
    rw [found]
    exact related.values name value other own found

/-- Alike values are written under the same name. -/
theorem assign (related : AlikeMembers members others) (name : String) {value other : Value}
    (alike : Alike value other) :
    AlikeMembers (Hadouken.assign name value members) (Hadouken.assign name other others) where
  names tested := by
    rw [lookup_assign, lookup_assign]
    split
    · rfl
    · exact related.names tested
  values tested own found left right := by
    rw [lookup_assign] at left right
    by_cases same : tested = name
    · rw [if_pos same] at left right
      obtain rfl := Option.some.inj left
      obtain rfl := Option.some.inj right
      exact alike
    · rw [if_neg same] at left right
      exact related.values tested own found left right

/-- Writes under different names commute, up to the order of the members. -/
theorem assign_comm (members : Members) {first second : String} (distinct : first ≠ second)
    (value other : Value) :
    AlikeMembers (Hadouken.assign second other (Hadouken.assign first value members))
      (Hadouken.assign first value (Hadouken.assign second other members)) := by
  have same : ∀ name,
      (Hadouken.assign second other (Hadouken.assign first value members)).lookup name =
        (Hadouken.assign first value (Hadouken.assign second other members)).lookup name := by
    intro name
    simp only [lookup_assign]
    by_cases one : name = first
    · simp [one, distinct]
    · simp [one]
  constructor
  · intro name
    rw [same]
  · intro name own found left right
    obtain rfl := Option.some.inj (left.symm.trans ((same name).trans right))
    exact .refl own

end AlikeMembers

end Hadouken.Script
