import Hadouken.Library.Digits
import Mathlib.Algebra.Order.Field.Power
import Mathlib.Algebra.Order.Field.Rat
import Mathlib.Tactic.Positivity

/-!
# Decimal numerals

The numerals of JSON: a sign, digits without a zero in front unless it is the only
one, digits behind a point, and an exponent. A reader may take no more than the
first digits for significant, from the first that is no zero on; the others then
count as zeros.
-/

namespace Hadouken.Numerals

open Digits

/-- The character of a digit. -/
def character (d : Nat) : UInt8 := UInt8.ofNat (0x30 + d)

/-- A numeral. Without a fraction there is no point, and an exponent has a sign. -/
structure Numeral where
  negative : Bool
  whole : List Nat
  fraction : List Nat
  exponent : Option (Bool × List Nat)
  decimal : ∀ d ∈ whole ++ fraction, d < 10
  nonempty : whole ≠ []
  settled : ∀ rest, whole = 0 :: rest → rest = []
  places : ∀ sign digits, exponent = some (sign, digits) → digits ≠ [] ∧ ∀ d ∈ digits, d < 10

/-- The texts of an exponent: the sign of a positive one may be missing. -/
inductive ExponentText : Option (Bool × List Nat) → List UInt8 → Prop
  | none : ExponentText none []
  | plain {mark : UInt8} (digits : List Nat) (marks : mark = 0x65 ∨ mark = 0x45) :
      ExponentText (some (false, digits)) (mark :: digits.map character)
  | plus {mark : UInt8} (digits : List Nat) (marks : mark = 0x65 ∨ mark = 0x45) :
      ExponentText (some (false, digits)) (mark :: 0x2b :: digits.map character)
  | minus {mark : UInt8} (digits : List Nat) (marks : mark = 0x65 ∨ mark = 0x45) :
      ExponentText (some (true, digits)) (mark :: 0x2d :: digits.map character)

/-- The sign is written for a negative number only. -/
def signText (negative : Bool) : List UInt8 := if negative then [0x2d] else []

/-- The point is written in front of the digits behind it. -/
def fractionText (fraction : List Nat) : List UInt8 :=
  if fraction = [] then [] else 0x2e :: fraction.map character

/-- The text spells the numeral. -/
def Spells (numeral : Numeral) (text : List UInt8) : Prop :=
  ∃ tail, ExponentText numeral.exponent tail ∧
    text = signText numeral.negative ++ (numeral.whole.map character ++
      (fractionText numeral.fraction ++ tail))

/-- The digits from the first that is no zero on. -/
def significant (digits : List Nat) : List Nat := digits.dropWhile (· == 0)

/-- The number of the digits where only the first so many are significant. -/
def leading (limit : Nat) (digits : List Nat) : Nat :=
  number 10 ((significant digits).take limit) * 10 ^ ((significant digits).length - limit)

/-- The size of an exponent. -/
def size : Option (Bool × List Nat) → Nat
  | none => 0
  | some (_, digits) => number 10 digits

/-- The value of an exponent. -/
def exponentValue : Option (Bool × List Nat) → ℤ
  | none => 0
  | some (false, digits) => number 10 digits
  | some (true, digits) => -number 10 digits

/-- How many digits an exponent has. -/
def exponentLength : Option (Bool × List Nat) → Nat
  | none => 0
  | some (_, digits) => digits.length

/-- The absolute value of a numeral, as far as its digits are significant. -/
def Numeral.absolute (limit : Nat) (numeral : Numeral) : ℚ :=
  leading limit (numeral.whole ++ numeral.fraction) *
    10 ^ (exponentValue numeral.exponent - numeral.fraction.length)

/-- The absolute value, with all digits. -/
def Numeral.value (numeral : Numeral) : ℚ :=
  number 10 (numeral.whole ++ numeral.fraction) *
    10 ^ (exponentValue numeral.exponent - numeral.fraction.length)

/-- Every digit takes a byte of the text. -/
theorem Spells.count {numeral : Numeral} {text : List UInt8} (spelled : Spells numeral text) :
    numeral.whole.length + numeral.fraction.length + exponentLength numeral.exponent ≤
      text.length := by
  obtain ⟨tail, exponent, rfl⟩ := spelled
  have behind : exponentLength numeral.exponent ≤ tail.length := by
    generalize numeral.exponent = shown at *
    cases exponent with
    | none => exact Nat.le_refl 0
    | plain digits | plus digits | minus digits =>
      simp only [exponentLength, List.length_cons, List.length_map]
      omega
  have fraction : numeral.fraction.length ≤ (fractionText numeral.fraction).length := by
    rw [fractionText]
    split
    · rename_i none
      exact le_of_eq (congrArg List.length none)
    · rw [List.length_cons, List.length_map]
      omega
  simp only [List.length_append, List.length_map]
  omega

/-- An exponent is between its size and the negative of it. -/
theorem exponentValue_bounds (exponent : Option (Bool × List Nat)) :
    -(size exponent : ℤ) ≤ exponentValue exponent ∧ exponentValue exponent ≤ size exponent := by
  match exponent with
  | none => exact ⟨Int.le_refl 0, Int.le_refl 0⟩
  | some (false, digits) | some (true, digits) =>
    rw [size, exponentValue]
    omega

/-- Zeros in front are not significant. -/
theorem significant_zeros_append (count : Nat) (digits : List Nat) :
    significant (List.replicate count 0 ++ digits) = significant digits := by
  induction count with
  | zero => rfl
  | succ count ih => rw [List.replicate_succ, List.cons_append, significant,
      List.dropWhile_cons_of_pos (by rfl), ← significant, ih]

/-- A zero behind zeros is not significant either. -/
theorem significant_concat_zero {digits : List Nat} (none : significant digits = []) :
    significant (digits ++ [0]) = [] := by
  induction digits with
  | nil => rfl
  | cons e rest ih =>
    cases e with
    | zero => exact ih none
    | succ e => exact absurd none (List.cons_ne_nil _ _)

/-- Any other digit is. -/
theorem significant_concat {digits : List Nat} {d : Nat}
    (counts : significant digits ≠ [] ∨ d ≠ 0) :
    significant (digits ++ [d]) = significant digits ++ [d] := by
  induction digits with
  | nil =>
    have nonzero : d ≠ 0 := counts.resolve_left fun some => some rfl
    rw [List.nil_append, significant, List.dropWhile_cons_of_neg (by simpa using nonzero)]
    rfl
  | cons e rest ih =>
    cases e with
    | zero => exact ih counts
    | succ e => rfl

/-- The first significant digit is no zero. -/
theorem number_significant_positive {digits : List Nat} (some : significant digits ≠ [])
    {limit : Nat} (positive : 0 < limit) :
    10 ^ (min (significant digits).length limit - 1) ≤
      number 10 ((significant digits).take limit) := by
  obtain ⟨d, rest, shape⟩ := List.exists_cons_of_ne_nil some
  obtain ⟨limit, rfl⟩ := Nat.exists_eq_succ_of_ne_zero positive.ne'
  have nonzero : d ≠ 0 := by
    have := List.head?_dropWhile_not (fun e => e == 0) digits
    rw [← significant, shape] at this
    simpa using this
  rw [shape, List.take_succ_cons, number_cons, List.length_cons, Nat.add_min_add_right,
    Nat.add_sub_cancel, List.length_take, Nat.min_comm]
  calc 10 ^ min limit rest.length ≤ d * 10 ^ min limit rest.length :=
        Nat.le_mul_of_pos_left _ (Nat.pos_of_ne_zero nonzero)
    _ ≤ _ := Nat.le_add_right _ _

/-- Zeros in front do not change the number. -/
theorem leading_zeros_append (limit count : Nat) (digits : List Nat) :
    leading limit (List.replicate count 0 ++ digits) = leading limit digits := by
  rw [leading, significant_zeros_append, leading]

/-- With few enough digits, and zeros behind them, all of them are significant. -/
theorem leading_eq {limit zeros d : Nat} {rest : List Nat} (nonzero : d ≠ 0)
    (short : rest.length < limit) :
    leading limit (d :: rest ++ List.replicate zeros 0) = number 10 (d :: rest) * 10 ^ zeros := by
  have all : significant (d :: rest ++ List.replicate zeros 0) =
      d :: rest ++ List.replicate zeros 0 := by
    rw [List.cons_append, significant, List.dropWhile_cons_of_neg (by simpa using nonzero)]
  have length : (d :: rest ++ List.replicate zeros 0).length = rest.length + 1 + zeros := by
    rw [List.length_append, List.length_cons, List.length_replicate]
  rw [leading, all, length, List.take_append, List.take_of_length_le short,
    List.take_replicate, List.length_cons, number_append_zeros, Nat.mul_assoc, ← pow_add]
  congr 2
  omega

/-- The significant digits spell the number. -/
theorem number_significant (digits : List Nat) :
    number 10 (significant digits) = number 10 digits := by
  induction digits with
  | nil => rfl
  | cons d rest ih =>
    cases d with
    | zero =>
      rw [number_cons, Nat.zero_mul, Nat.zero_add, ← ih]
      rfl
    | succ d => rfl

/-- With few enough digits all of them count. -/
theorem leading_of_short {limit : Nat} {digits : List Nat}
    (short : (significant digits).length ≤ limit) : leading limit digits = number 10 digits := by
  rw [leading, List.take_of_length_le short, Nat.sub_eq_zero_of_le short, pow_zero, Nat.mul_one,
    number_significant]

/-- The digits that do not count are less than a unit of the last that does. -/
theorem leading_bounds {limit : Nat} (positive : 0 < limit) {digits : List Nat}
    (small : ∀ d ∈ digits, d < 10) :
    leading limit digits ≤ number 10 digits ∧
      number 10 digits * 10 ^ (limit - 1) ≤ leading limit digits * (10 ^ (limit - 1) + 1) := by
  rcases Nat.le_total (significant digits).length limit with short | long
  · rw [leading_of_short short]
    exact ⟨Nat.le_refl _, Nat.mul_le_mul_left _ (Nat.le_succ _)⟩
  · have some : significant digits ≠ [] := by
      apply List.ne_nil_of_length_pos
      omega
    have first := number_significant_positive some positive
    have taken : number 10 ((significant digits).take limit) =
        number 10 (significant digits) / 10 ^ ((significant digits).length - limit) :=
      number_take (fun d member => small d (List.dropWhile_subset _ member)) limit
    rw [Nat.min_eq_right long] at first
    rw [number_significant] at taken
    have unit : 0 < 10 ^ ((significant digits).length - limit) := by positivity
    have below := Nat.div_mul_le_self (number 10 digits)
      (10 ^ ((significant digits).length - limit))
    have above := Nat.lt_div_mul_add unit (a := number 10 digits)
    rw [← taken] at below above
    refine ⟨below, ?_⟩
    rw [leading]
    generalize number 10 ((significant digits).take limit) = lead at first below above ⊢
    generalize 10 ^ ((significant digits).length - limit) = last at below above unit ⊢
    calc number 10 digits * 10 ^ (limit - 1)
        ≤ (lead * last + last) * 10 ^ (limit - 1) := Nat.mul_le_mul_right _ above.le
      _ = lead * last * 10 ^ (limit - 1) + last * 10 ^ (limit - 1) := Nat.add_mul _ _ _
      _ ≤ lead * last * 10 ^ (limit - 1) + last * lead :=
        Nat.add_le_add_left (Nat.mul_le_mul_left _ first) _
      _ = lead * last * (10 ^ (limit - 1) + 1) := by rw [Nat.mul_comm last lead, ← Nat.mul_succ]

/-- Where all digits count, the absolute value is that of the whole numeral. -/
theorem Numeral.absolute_of_short {limit : Nat} {numeral : Numeral}
    (short : (significant (numeral.whole ++ numeral.fraction)).length ≤ limit) :
    numeral.absolute limit = numeral.value := by
  rw [Numeral.absolute, leading_of_short short, Numeral.value]

/-- Digits that do not count make the number smaller by less than one unit of the last
one that does. -/
theorem Numeral.absolute_bounds {limit : Nat} (positive : 0 < limit) (numeral : Numeral) :
    numeral.absolute limit ≤ numeral.value ∧
      numeral.value * 10 ^ (limit - 1) ≤ numeral.absolute limit * (10 ^ (limit - 1) + 1) := by
  obtain ⟨below, above⟩ := leading_bounds positive numeral.decimal
  have power : (0 : ℚ) ≤ 10 ^ (exponentValue numeral.exponent - numeral.fraction.length) := by
    positivity
  rw [Numeral.absolute, Numeral.value]
  constructor
  · exact mul_le_mul_of_nonneg_right (by exact_mod_cast below) power
  · have ordered : (number 10 (numeral.whole ++ numeral.fraction) : ℚ) * 10 ^ (limit - 1) ≤
        leading limit (numeral.whole ++ numeral.fraction) * (10 ^ (limit - 1) + 1) := by
      exact_mod_cast above
    have scaled := mul_le_mul_of_nonneg_right ordered power
    rwa [mul_right_comm, mul_right_comm (leading limit (numeral.whole ++ numeral.fraction) : ℚ)]
      at scaled

end Hadouken.Numerals
