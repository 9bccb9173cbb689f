import Mathlib.Computability.Language

/-!
# Patterns that match a whole text

A pattern is a sequence of character classes, each of which is to be met once,
at most once, or any number of times. It is matched against a whole text, so
that anchors at its ends say nothing and are left out.

The texts a pattern matches are a language, the product of the languages of its
items; the rules below read it off one item at a time.
-/

namespace Hadouken.Patterns

universe u
variable {α : Type u}

/-- How often a class is to be met. -/
inductive Quantifier where
  | once
  | optional
  | many
deriving DecidableEq

/-- One item: characters, once or any number of times. -/
structure Item (α : Type u) where
  accepts : α → Bool
  quantifier : Quantifier

/-- Items one after the other. -/
abbrev Pattern (α : Type u) := List (Item α)

/-- The texts that one item alone stands for. -/
def Item.takes (item : Item α) (text : List α) : Bool :=
  text.all item.accepts &&
    match item.quantifier with
    | .once => text.length = 1
    | .optional => decide (text.length ≤ 1)
    | .many => true

/-- Match a whole text: some beginning of it is for the first item, and what is
left for the others. -/
def isMatch : Pattern α → List α → Bool
  | [], text => text.isEmpty
  | item :: rest, text =>
      (List.range (text.length + 1)).any fun i =>
        item.takes (text.take i) && isMatch rest (text.drop i)

/-- The texts of an item, as a language. -/
def Item.language (item : Item α) : Language α := {text | item.takes text = true}

/-- The texts a pattern matches. -/
def language (pattern : Pattern α) : Language α := (pattern.map Item.language).prod

/-- A text of a pattern is one of its first item and one of the rest. -/
theorem language_cons (item : Item α) (rest : Pattern α) :
    language (item :: rest) = item.language * language rest := List.prod_cons

/-- A text of an item is one it takes. -/
theorem mem_language_item (item : Item α) (text : List α) :
    text ∈ item.language ↔ item.takes text = true := Iff.rfl

/-- Matching decides the language. -/
theorem isMatch_iff (pattern : Pattern α) (text : List α) :
    isMatch pattern text = true ↔ text ∈ language pattern := by
  induction pattern generalizing text with
  | nil => simp [isMatch, language, Language.mem_one]
  | cons item rest ih =>
    rw [isMatch, List.any_eq_true, language_cons, Language.mem_mul]
    constructor
    · rintro ⟨i, _, both⟩
      rw [Bool.and_eq_true, ih] at both
      exact ⟨text.take i, both.1, text.drop i, both.2, List.take_append_drop i text⟩
    · rintro ⟨own, taken, others, matched, rfl⟩
      refine ⟨own.length, by simp only [List.mem_range, List.length_append]; omega, ?_⟩
      rw [List.take_left, List.drop_left, Bool.and_eq_true, ih]
      exact ⟨taken, matched⟩

/-- A fixed text. -/
def literal [DecidableEq α] (text : List α) : Pattern α :=
  text.map fun c => ⟨(· = c), .once⟩

section Rules

variable (pattern : Pattern α) (text : List α)

/-- A fixed text at the front is stripped. -/
theorem mem_literal_append [DecidableEq α] (fixed : List α) :
    text ∈ language (literal fixed ++ pattern) ↔
      ∃ rest, text = fixed ++ rest ∧ rest ∈ language pattern := by
  induction fixed generalizing text with
  | nil => simp [literal]
  | cons c fixed ih =>
    have one : ∀ own : List α, (⟨(· = c), .once⟩ : Item α).takes own = true ↔ own = [c] := by
      intro own
      match own with
      | [] => simp [Item.takes]
      | [d] => simp [Item.takes]
      | d :: e :: more => simp [Item.takes]
    rw [literal, List.map_cons, List.cons_append, language_cons, Language.mem_mul, ← literal]
    constructor
    · rintro ⟨own, taken, others, matched, rfl⟩
      obtain rfl := (one own).mp taken
      obtain ⟨rest, rfl, inside⟩ := (ih others).mp matched
      exact ⟨rest, rfl, inside⟩
    · rintro ⟨rest, rfl, inside⟩
      exact ⟨[c], (one [c]).mpr rfl, fixed ++ rest, (ih _).mpr ⟨rest, rfl, inside⟩, rfl⟩

/-- So it is for a single item. -/
theorem mem_single (item : Item α) : text ∈ language [item] ↔ item.takes text = true := by
  rw [language, List.map_singleton, List.prod_singleton, mem_language_item]

/-- One class that may be left out, at the end. -/
theorem mem_optional (accepts : α → Bool) :
    text ∈ language [⟨accepts, .optional⟩] ↔ text = [] ∨ ∃ c, text = [c] ∧ accepts c = true := by
  rw [mem_single]
  match text with
  | [] => simp [Item.takes]
  | [c] => simp [Item.takes]
  | c :: d :: more => simp [Item.takes]

/-- One class any number of times, at the end. -/
theorem mem_many (accepts : α → Bool) :
    text ∈ language [⟨accepts, .many⟩] ↔ ∀ c ∈ text, accepts c = true := by
  rw [mem_single]
  simp [Item.takes]

end Rules

end Hadouken.Patterns
