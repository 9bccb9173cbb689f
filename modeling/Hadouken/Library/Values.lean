import Hadouken.Library.Members
import Mathlib.Data.Rat.Defs
import Mathlib.Algebra.Order.Ring.Unbundled.Rat

/-!
# Script values

The values a script and its native functions exchange: the language's
primitives, arrays, plain objects, functions named by identity, and error
objects. Numbers are exact rationals with the three special values; rounding is
outside the model. Inherited built-in properties are outside the model too,
except the length of strings and arrays.

An operation that throws has no result. Conversions whose text grammar is not
needed here are a parameter, with the cases the language fixes as its fields.
-/

namespace Hadouken.Script

/-- The numbers of the language. -/
inductive Number where
  | nan
  | infinite (negative : Bool)
  | finite (value : ℚ)
deriving DecidableEq

namespace Number

/-- The operator `<`, false as soon as an operand is not a number. -/
def less : Number → Number → Bool
  | .finite left, .finite right => decide (left < right)
  | .infinite true, .finite _ => true
  | .infinite true, .infinite false => true
  | .finite _, .infinite false => true
  | _, _ => false

/-- The operator `>=`: both operands are numbers and the left is not less. -/
def atLeast : Number → Number → Bool
  | .nan, _ => false
  | _, .nan => false
  | left, right => !less left right

/-- Finite numbers compare as rationals. -/
@[simp] theorem atLeast_finite (left right : ℚ) :
    atLeast (.finite left) (.finite right) = !decide (left < right) := rfl

/-- Zero and NaN are the falsy numbers. -/
def truthy : Number → Bool
  | .nan => false
  | .infinite _ => true
  | .finite value => decide (value ≠ 0)

end Number

/-- What a `throw` of these scripts, or a native function, carries. -/
structure ErrorObject where
  name : String
  message : String
deriving DecidableEq

/-- The error of a read or write of a property of `undefined` or `null`. -/
def typeError (message : String) : ErrorObject := ⟨"TypeError", message⟩

/-- The values of the language. -/
inductive Value where
  | undefined
  | null
  | boolean (value : Bool)
  | number (value : Number)
  | string (text : String)
  | array (items : List Value) (named : List (String × Value))
  | object (members : List (String × Value))
  | function (identity : Nat)
  | error (thrown : ErrorObject)

/-- The members of an object, in the order of their definition. -/
abbrev Members := List (String × Value)

namespace Value

/-- An integer as a script number. -/
def integer (value : Int) : Value := .number (.finite value)

/-- The boolean a condition makes of a value. -/
def truthy : Value → Bool
  | .undefined | .null => false
  | .boolean value => value
  | .number value => value.truthy
  | .string text => decide (text ≠ "")
  | .array _ _ | .object _ | .function _ | .error _ => true

/-- The operator `||`. -/
def orElse (first second : Value) : Value := if first.truthy then first else second

/-- A truthy first operand is the result. -/
theorem orElse_truthy {first : Value} (second : Value) (taken : first.truthy = true) :
    first.orElse second = first := if_pos taken

/-- A falsy first operand leaves the second. -/
theorem orElse_falsy {first : Value} (second : Value) (skipped : first.truthy = false) :
    first.orElse second = second := if_neg (by simp [skipped])

/-- Every object is truthy. -/
@[simp] theorem truthy_object (members : Members) : truthy (.object members) = true := rfl

/-- Zero is the one falsy integer. -/
@[simp] theorem truthy_integer (value : Int) : truthy (integer value) = decide (value ≠ 0) := by
  simp [truthy, integer, Number.truthy]

/-- The array index a property name stands for, if it is a canonical one. -/
def arrayIndex (key : String) : Option Nat :=
  key.toNat?.filter fun index => toString index == key

/-- Read a property. Reading one of `undefined` or `null` throws. -/
def member : Value → String → Option Value
  | .undefined, _ | .null, _ => none
  | .object members, key => some ((members.lookup key).getD .undefined)
  | .array items named, key =>
      if key = "length" then some (integer items.length)
      else match arrayIndex key with
        | some index => some (items[index]?.getD .undefined)
        | none => some ((named.lookup key).getD .undefined)
  | .string text, key =>
      if key = "length" then some (integer text.length)
      else match arrayIndex key with
        | some index => some ((text.toList[index]?.map fun c => .string c.toString).getD .undefined)
        | none => some .undefined
  | .error thrown, key =>
      if key = "name" then some (.string thrown.name)
      else if key = "message" then some (.string thrown.message)
      else some .undefined
  | .boolean _, _ | .number _, _ | .function _, _ => some .undefined

/-- A member an object does not have reads as `undefined`. -/
@[simp] theorem member_object (members : Members) (key : String) :
    member (.object members) key = some ((members.lookup key).getD .undefined) := rfl

/-- A property of anything but `undefined` and `null` can be read. -/
theorem isSome_member (value : Value) (key : String) (defined : value ≠ .undefined)
    (notNull : value ≠ .null) : (value.member key).isSome = true := by
  cases value with
  | undefined => exact absurd rfl defined
  | null => exact absurd rfl notNull
  | array items named =>
    simp only [member]
    split
    · rfl
    · split <;> rfl
  | string text =>
    simp only [member]
    split
    · rfl
    · split <;> rfl
  | error thrown =>
    simp only [member]
    split
    · rfl
    · split <;> rfl
  | _ => rfl

/-- A property of a truthy value can be read. -/
theorem member_of_truthy (value : Value) (key : String) (present : value.truthy = true) :
    ∃ read, value.member key = some read := by
  refine Option.isSome_iff_exists.mp (isSome_member value key ?_ ?_)
  · rintro rfl
    cases present
  · rintro rfl
    cases present

/-- The array length a value stands for, of the decimal texts among strings. -/
def arrayLength : Value → Option Nat
  | .number (.finite value) =>
      if value.den = 1 ∧ 0 ≤ value.num then some value.num.toNat else none
  | .boolean value => some value.toNat
  | .null => some 0
  | .string text => if text = "" then some 0 else text.toNat?
  | _ => none

/-- Keep or pad a list so that it has the given length. -/
def resize (items : List Value) (length : Nat) : List Value :=
  (items ++ List.replicate (length - items.length) Value.undefined).take length

/-- Write a property. Writing one of `undefined` or `null` throws; writing one
of another primitive has no effect. An array is extended up to a written index,
and its length is a property that throws on what is no length. -/
def assignMember : Value → String → Value → Option Value
  | .undefined, _, _ | .null, _, _ => none
  | .object members, key, value => some (.object (assign key value members))
  | .array items named, key, value =>
      if key = "length" then (arrayLength value).map fun length => .array (resize items length) named
      else match arrayIndex key with
        | some index => some (.array ((resize items (max items.length (index + 1))).set index value) named)
        | none => some (.array items (assign key value named))
  | target, _, _ => some target

/-- Every member of an object can be written. -/
@[simp] theorem assignMember_object (members : Members) (key : String) (value : Value) :
    assignMember (.object members) key value = some (.object (assign key value members)) := rfl

/-- The value has a JSON text: the encoder leaves out the others. -/
def encodable : Value → Bool
  | .undefined | .function _ => false
  | _ => true

mutual

/-- How deep the JSON encoder descends: objects and arrays around objects and
arrays. An error object is encoded as an object without members. -/
def depth : Value → Nat
  | .undefined | .null | .boolean _ | .number _ | .string _ | .function _ => 0
  | .error _ => 1
  | .array items _ => 1 + depthItems items
  | .object members => 1 + depthMembers members

/-- The deepest item of an array. -/
def depthItems : List Value → Nat
  | [] => 0
  | value :: rest => max (depth value) (depthItems rest)

/-- The deepest member of an object. -/
def depthMembers : List (String × Value) → Nat
  | [] => 0
  | (_, value) :: rest => max (depth value) (depthMembers rest)

end

mutual

/-- The value with every finite number replaced that has a place in its JSON text. -/
def mapNumbers (reread : ℚ → ℚ) : Value → Value
  | .number (.finite value) => .number (.finite (reread value))
  | .array items named => .array (mapItems reread items) named
  | .object members => .object (mapMembers reread members)
  | value => value

/-- The same for the items of an array. -/
def mapItems (reread : ℚ → ℚ) : List Value → List Value
  | [] => []
  | value :: rest => mapNumbers reread value :: mapItems reread rest

/-- The same for the members of an object. -/
def mapMembers (reread : ℚ → ℚ) : List (String × Value) → List (String × Value)
  | [] => []
  | (name, value) :: rest => (name, mapNumbers reread value) :: mapMembers reread rest

end

end Value

/-- A property of a value that is used as a table of settings. -/
def setting (source : Value) (key : String) : Value := (source.member key).getD .undefined

/-- The conversions of the language that parse or print text: to a number, to a
property name, and to an operand of `+` beside a string. Each has no result
where it throws, as for an object that has no primitive value. The text of an
integer is known up to 2⁵³, where the printed digits are those of the integer. -/
structure Conversions where
  toNumber : Value → Option Number
  parseFloat : Value → Option Number
  parseInt : Value → Option Number
  propertyKey : Value → Option String
  concatText : Value → Option String
  toNumber_number : ∀ value, toNumber (.number value) = some value
  parseFloat_integer : ∀ value : Int, value.natAbs ≤ 9007199254740992 →
    parseFloat (Value.integer value) = some (.finite value)
  parseInt_integer : ∀ value : Int, value.natAbs ≤ 9007199254740992 →
    parseInt (Value.integer value) = some (.finite value)
  propertyKey_string : ∀ text, propertyKey (.string text) = some text
  concatText_string : ∀ text, concatText (.string text) = some text

/-- Conversions of primitives that know decimal integers alone among texts, for
runs on fixed inputs. -/
def plainConversions : Conversions where
  toNumber
    | .number value => some value
    | .boolean value => some (.finite value.toNat)
    | .null => some (.finite 0)
    | .string text => some ((text.toInt?.map fun value => Number.finite value).getD .nan)
    | _ => some .nan
  parseFloat
    | .number value => some value
    | .string text => some ((text.toInt?.map fun value => Number.finite value).getD .nan)
    | _ => some .nan
  parseInt
    | .number value => some value
    | .string text => some ((text.toInt?.map fun value => Number.finite value).getD .nan)
    | _ => some .nan
  propertyKey
    | .string text => some text
    | .null => some "null"
    | .boolean value => some (toString value)
    | _ => some "undefined"
  concatText
    | .string text => some text
    | .null => some "null"
    | .boolean value => some (toString value)
    | _ => some "undefined"
  toNumber_number _ := rfl
  parseFloat_integer _ _ := rfl
  parseInt_integer _ _ := rfl
  propertyKey_string _ := rfl
  concatText_string _ := rfl

end Hadouken.Script
