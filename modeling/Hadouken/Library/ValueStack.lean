import Hadouken.Library.Programs
import Hadouken.Library.Values
import Mathlib.Data.List.TakeWhile

/-!
# The value stack between native code and scripts

Native code reaches a script engine through one stack of values, listed here
from the top. An error that a native program raises outside a protected call is
an error of the whole program. A protected call takes its function, `this` and
arguments off the stack and leaves one value: the result, or what was thrown.

The engine is observed through three functions: its global stash, a call of one
of its functions, and its conversion of any value to text.
-/

namespace Hadouken.ValueStack

open Script Program

/-- What is seen of an engine. -/
structure Engine where
  stash : Members
  call : Nat → Value → List Value → Except Value Value
  text : Value → String

/-- A native program over the stack. -/
abbrev Native := Program Value (List Value)

/-- The characters before the first NUL, which is where C ends a string. -/
def cString (text : String) : String :=
  .ofList (text.toList.takeWhile fun c => c.toNat ≠ 0)

/-- A C string holds no NUL. -/
theorem nul_not_mem_cString (text : String) : ∀ c ∈ (cString text).toList, c.toNat ≠ 0 := by
  intro c member
  rw [cString, String.toList_ofList] at member
  simpa using List.mem_takeWhile_imp member

/-- A text without NUL is its own C string. -/
theorem cString_ofList (text : List Char) (whole : ∀ c ∈ text, c.toNat ≠ 0) :
    cString (.ofList text) = .ofList text := by
  rw [cString, String.toList_ofList, List.takeWhile_eq_self_iff.mpr]
  simpa using whole

/-- A text is its own C string where it has no NUL. -/
theorem cString_eq_iff (text : String) :
    cString text = text ↔ ∀ c ∈ text.toList, c.toNat ≠ 0 := by
  constructor
  · intro whole c found
    rw [← whole] at found
    exact nul_not_mem_cString text c found
  · intro whole
    simpa using cString_ofList text.toList whole

/-- A C string is not cut again. -/
@[simp] theorem cString_cString (text : String) : cString (cString text) = cString text :=
  (cString_eq_iff (cString text)).mpr (nul_not_mem_cString text)

/-- A value goes on top. -/
def push (value : Value) : Native Unit := modify (value :: ·)

/-- The top value is dropped. -/
def pop : Native Unit := modify List.tail

/-- The value on top of the stack. -/
def top : Native Value := do return (← get).headD .undefined

/-- The stash goes on top. -/
def pushGlobalStash (engine : Engine) : Native Unit := push (.object engine.stash)

/-- A C string goes on top. -/
def pushString (text : String) : Native Unit := push (.string (cString text))

/-- The top value goes on top again. -/
def dup : Native Unit := do push (← top)

/-- Push a property of the top value, and tell whether there is one. -/
def getPropString (key : String) : Native Bool := do
  let target ← top
  match target.member key with
  | none => throw (.error (typeError ("invalid base reference for property read")))
  | some value =>
      push value
      match target with
      | .object members => return (members.lookup key).isSome
      | _ => return value.encodable

/-- The top value is a function. -/
def isCallable : Native Bool := do
  match ← top with
  | .function _ => return true
  | _ => return false

/-- Replace the top value by its text, and return the text. -/
def safeToString (engine : Engine) : Native String := do
  let text := engine.text (← top)
  pop
  push (.string text)
  return text

/-- Call in protected mode with the given number of arguments; tell whether the
call returned. -/
def pcallMethod (engine : Engine) (nargs : Nat) : Native Bool := do
  let stack ← get
  let arguments := (stack.take nargs).reverse
  match stack.drop nargs with
  | this :: .function identity :: rest =>
      match engine.call identity this arguments with
      | .ok value => set (value :: rest); return true
      | .error thrown => set (thrown :: rest); return false
  | rest =>
      set (Value.error (typeError "not callable") :: rest.drop 2)
      return false

section Evaluation

variable (engine : Engine) (value : Value) (stack : List Value)

/-- Running a push. -/
@[simp] theorem exec_push : exec (push value) stack = (.ok (), value :: stack) := rfl

/-- Running a pop. -/
@[simp] theorem exec_pop : exec pop stack = (.ok (), stack.tail) := rfl

/-- Reading the top. -/
@[simp] theorem exec_top : exec top (value :: stack) = (.ok value, value :: stack) := rfl

/-- Running the push of the stash. -/
@[simp] theorem exec_pushGlobalStash :
    exec (pushGlobalStash engine) stack = (.ok (), .object engine.stash :: stack) := rfl

/-- Running the push of a text. -/
@[simp] theorem exec_pushString (text : String) :
    exec (pushString text) stack = (.ok (), .string (cString text) :: stack) := rfl

/-- Running a duplication. -/
@[simp] theorem exec_dup :
    exec dup (value :: stack) = (.ok (), value :: value :: stack) := rfl

/-- A property read of an object cannot fail, and reports its presence. -/
@[simp] theorem exec_getPropString (members : Members) (key : String) :
    exec (getPropString key) (.object members :: stack) =
      (.ok (members.lookup key).isSome,
        (members.lookup key).getD .undefined :: .object members :: stack) := by
  simp [getPropString]

/-- A function on top is callable. -/
@[simp] theorem exec_isCallable_function (identity : Nat) :
    exec isCallable (.function identity :: stack) = (.ok true, .function identity :: stack) :=
  rfl

/-- Only functions are callable. -/
theorem exec_isCallable_of_ne (other : ∀ identity, value ≠ .function identity) :
    exec isCallable (value :: stack) = (.ok false, value :: stack) := by
  cases value with
  | function identity => exact absurd rfl (other identity)
  | _ => rfl

/-- Running the conversion to text. -/
@[simp] theorem exec_safeToString :
    exec (safeToString engine) (value :: stack) =
      (.ok (engine.text value), .string (engine.text value) :: stack) := rfl

/-- A protected call with one argument leaves exactly one value on the rest of
the stack, whether the function returns or throws. -/
@[simp] theorem exec_pcallMethod_one (this argument : Value) (identity : Nat) :
    exec (pcallMethod engine 1) (argument :: this :: .function identity :: stack) =
      match engine.call identity this [argument] with
      | .ok result => (.ok true, result :: stack)
      | .error thrown => (.ok false, thrown :: stack) := by
  simp only [pcallMethod, exec_bind, exec_get, List.take_succ_cons, List.take_zero,
    List.reverse_cons, List.reverse_nil, List.nil_append, List.drop_succ_cons, List.drop_zero]
  cases engine.call identity this [argument] <;> rfl

/-- The same with two arguments. -/
@[simp] theorem exec_pcallMethod_two (this first second : Value) (identity : Nat) :
    exec (pcallMethod engine 2) (second :: first :: this :: .function identity :: stack) =
      match engine.call identity this [first, second] with
      | .ok result => (.ok true, result :: stack)
      | .error thrown => (.ok false, thrown :: stack) := by
  simp only [pcallMethod, exec_bind, exec_get, List.take_succ_cons, List.take_zero,
    List.reverse_cons, List.reverse_nil, List.nil_append, List.drop_succ_cons, List.drop_zero,
    List.singleton_append]
  cases engine.call identity this [first, second] <;> rfl

end Evaluation

end Hadouken.ValueStack
