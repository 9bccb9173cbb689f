import Hadouken.Library.Patterns
import Mathlib.Data.List.Infix

/-!
# Searching a text

A matcher without look-behind is tried at every place of a text. There it sees
what follows, and of what is before no more than the character next to it.

Text put in front moves no place of the old text but gives new ones, and the old
beginning has something before it. Both texts are found, or neither, unless the
first of the old places decides.
-/

namespace Hadouken.Searches

open Patterns

universe u
variable {α : Type u}

/-- Whether a match begins between the character before and the rest. -/
abbrev Attempt (α : Type u) := Option α → List α → Bool

variable (attempt : Attempt α)

/-- A match begins somewhere in the text. -/
def searchFrom (before : Option α) : List α → Bool
  | [] => attempt before []
  | c :: rest => attempt before (c :: rest) || searchFrom (some c) rest

/-- The attempt succeeds somewhere. -/
def search (text : List α) : Bool := searchFrom attempt none text

/-- A match begins somewhere in the front part of a text. -/
def beginsIn (before : Option α) : List α → List α → Bool
  | [], _ => false
  | c :: front, text => attempt before (c :: (front ++ text)) || beginsIn (some c) front text

/-- A match begins behind the first character. -/
def beginsAfter : List α → Bool
  | [] => false
  | c :: rest => searchFrom attempt (some c) rest

/-- It succeeds here or further on. -/
theorem searchFrom_eq (before : Option α) (text : List α) :
    searchFrom attempt before text = (attempt before text || beginsAfter attempt text) := by
  cases text with
  | nil => simp [searchFrom, beginsAfter]
  | cons c rest => rfl

/-- A text in two parts is searched one after the other. -/
theorem searchFrom_append (before : Option α) (front text : List α) :
    searchFrom attempt before (front ++ text) =
      (beginsIn attempt before front text ||
        searchFrom attempt (front.getLast?.or before) text) := by
  induction front generalizing before with
  | nil => simp [beginsIn]
  | cons c front ih =>
    have last : (c :: front).getLast?.or before = front.getLast?.or (some c) := by
      cases front with
      | nil => rfl
      | cons d front => simp [List.getLast?_cons]
    rw [List.cons_append, searchFrom, ih, beginsIn, last, Bool.or_assoc]

/-- A text is found behind a front as it is alone exactly where a match begins
behind its first character, or its beginning alone says what the front and its
beginning there say. -/
theorem search_append_iff (front text : List α) (last : α) (ends : front.getLast? = some last) :
    (search attempt (front ++ text) = true ↔ search attempt text = true) ↔
      (beginsAfter attempt text = true ∨ (attempt none text = true ↔
        (beginsIn attempt none front text = true ∨ attempt (some last) text = true))) := by
  rw [search, search, searchFrom_append, ends, Option.some_or, searchFrom_eq, searchFrom_eq]
  cases beginsAfter attempt text <;> cases attempt none text <;>
    cases beginsIn attempt none front text <;> cases attempt (some last) text <;> simp

/-- A match runs to the end of the text. -/
def toEnd (pattern : Pattern α) : Attempt α := fun _ rest => isMatch pattern rest

/-- Searching for matches up to the end finds endings. -/
theorem search_toEnd_iff (pattern : Pattern α) (text : List α) :
    search (toEnd pattern) text = true ↔ ∃ ending, ending <:+ text ∧ ending ∈ language pattern := by
  have from_iff : ∀ before, searchFrom (toEnd pattern) before text = true ↔
      ∃ ending, ending <:+ text ∧ ending ∈ language pattern := by
    induction text with
    | nil => simp [searchFrom, toEnd, isMatch_iff]
    | cons c rest ih =>
      intro before
      rw [searchFrom, Bool.or_eq_true, ih, toEnd, isMatch_iff]
      simp only [List.suffix_cons_iff, or_and_right, exists_or, exists_eq_left]
  exact from_iff none

end Hadouken.Searches
