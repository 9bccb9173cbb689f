import Hadouken.NumberParsing
import Mathlib.Data.Nat.Cast.Field

/-!
# Numbers that are printed and read again

What is printed is a numeral, and its digits are within the gaps of the double, so
that it is read back unless it is the middle to the next double, which rounding
takes for the next, or belongs to a power of two whose gap below was taken for too
wide. Below 2^53 the digits never reach the middle.
-/

namespace Hadouken.NumberRoundTrip

open Digits Dragon4 PackedFloats NumberPrinting Numerals NumberParsing JsonEncoding

section Texts

/-- The digits are printed as the characters that are read. -/
theorem lcDigit_eq : ∀ d < 10, lcDigit d = character d := by decide

/-- So are digits in a row. -/
theorem map_lcDigit {digits : List Nat} (small : ∀ d ∈ digits, d < 10) :
    digits.map lcDigit = digits.map character :=
  List.map_congr_left fun d member => lcDigit_eq d (small d member)

/-- An unsigned integer is written with its digits, the first of which is no zero
unless it is the only one. -/
theorem formatUint32_spec (places x : Nat) (buf : List Nat) (fits : x < 10 ^ (places + 1)) :
    ∃ d rest, formatUint32 10 (places + 1) x buf = (d :: rest) ++ buf ∧
      number 10 (d :: rest) = x ∧ (∀ e ∈ d :: rest, e < 10) ∧ (d = 0 → rest = []) := by
  induction places generalizing x buf with
  | zero =>
    have none : x / 10 = 0 := Nat.div_eq_of_lt fits
    refine ⟨x, [], ?_, number_singleton x, ?_, fun _ => rfl⟩
    · rw [formatUint32]
      simp [none]
    · intro e member
      rw [List.mem_singleton.mp member]
      exact fits
  | succ places ih =>
    rw [formatUint32]
    split
    · rename_i none
      refine ⟨x, [], ?_, number_singleton x, ?_, fun _ => rfl⟩
      · simp [none]
      · intro e member
        rw [List.mem_singleton.mp member]
        omega
    · rename_i some
      have shorter : x / 10 < 10 ^ (places + 1) := by
        rw [pow_succ] at fits
        exact Nat.div_lt_of_lt_mul (by rwa [Nat.mul_comm])
      obtain ⟨d, rest, written, spelled, small, first⟩ :=
        ih (x / 10) ((x - x / 10 * 10) :: buf) shorter
      refine ⟨d, rest ++ [x - x / 10 * 10], ?_, ?_, ?_, fun zero => ?_⟩
      · rw [written]
        simp
      · rw [← List.cons_append, number_concat, spelled]
        omega
      · rw [← List.cons_append, List.forall_mem_append, List.forall_mem_singleton]
        exact ⟨small, by omega⟩
      · rw [zero, first zero, number_singleton] at spelled
        exact absurd spelled.symm some

/-- The digit at a place. -/
def digitAt (k : Int) (digits : List Nat) (pos : Int) : Nat :=
  if k < pos then 0 else if pos ≤ k - digits.length then 0 else digits.getD (k - pos).toNat 0

/-- The digits of so many places. -/
def shown (k : Int) (digits : List Nat) : Nat → Int → List Nat
  | 0, _ => []
  | more + 1, pos => digitAt k digits pos :: shown k digits more (pos - 1)

variable {k : Int} {digits : List Nat}

/-- There are so many places. -/
theorem length_shown (count : Nat) (pos : Int) : (shown k digits count pos).length = count := by
  induction count generalizing pos with
  | zero => rfl
  | succ count ih => rw [shown, List.length_cons, ih]

/-- Places in two parts. -/
theorem shown_append (count more : Nat) (pos : Int) : shown k digits (count + more) pos =
    shown k digits count pos ++ shown k digits more (pos - count) := by
  induction count generalizing pos with
  | zero => simp [shown]
  | succ count ih =>
    rw [Nat.add_right_comm, shown, shown, ih, List.cons_append]
    congr 3
    omega

/-- Every place has a decimal digit. -/
theorem digitAt_small (small : ∀ d ∈ digits, d < 10) (pos : Int) : digitAt k digits pos < 10 := by
  rw [digitAt]
  split
  · decide
  · split
    · decide
    · rw [List.getD_eq_getElem?_getD]
      cases found : digits[(k - pos).toNat]? with
      | none => decide
      | some d => exact small d (List.mem_of_getElem? found)

/-- All of them are decimal digits. -/
theorem shown_small (small : ∀ d ∈ digits, d < 10) (count : Nat) (pos : Int) :
    ∀ d ∈ shown k digits count pos, d < 10 := by
  induction count generalizing pos with
  | zero => exact List.forall_mem_nil _
  | succ count ih =>
    rw [shown, List.forall_mem_cons]
    exact ⟨digitAt_small small pos, ih _⟩

/-- A place is its digit, with the point before it at the first place below one. -/
theorem placeText_eq (pos : Int) : placeText k digits pos =
    (if pos = 0 then [0x2e] else []) ++ [lcDigit (digitAt k digits pos)] := by
  rw [placeText, digitAt]
  split <;> split <;> (try split) <;> rfl

/-- Places on one side of the point. -/
theorem placeTexts_apart (count : Nat) (pos : Int) (apart : pos < 0 ∨ count ≤ pos) :
    placeTexts k digits count pos = (shown k digits count pos).map lcDigit := by
  induction count generalizing pos with
  | zero => rfl
  | succ count ih =>
    rw [placeTexts, shown, placeText_eq, if_neg (by omega), ih (pos - 1) (by omega)]
    rfl

/-- The texts of places in two parts. -/
theorem placeTexts_append (count more : Nat) (pos : Int) : placeTexts k digits (count + more) pos =
    placeTexts k digits count pos ++ placeTexts k digits more (pos - count) := by
  induction count generalizing pos with
  | zero => simp [placeTexts]
  | succ count ih =>
    rw [Nat.add_right_comm, placeTexts, placeTexts, ih, List.append_assoc]
    congr 3
    omega

/-- The places from the point on. -/
theorem placeTexts_point (small : ∀ d ∈ digits, d < 10) (count : Nat) :
    placeTexts k digits count 0 = fractionText (shown k digits count 0) := by
  cases count with
  | zero => rfl
  | succ count =>
    rw [placeTexts, placeText_eq, if_pos rfl, placeTexts_apart _ _ (.inl (by decide)), fractionText,
      if_neg (by rw [shown]; exact List.cons_ne_nil _ _), ← map_lcDigit (shown_small small _ _),
      shown]
    rfl

/-- How many digits stand before the point. -/
def wholeCount (k : Int) : Nat := (max k 1).toNat

/-- How many digits stand behind it. -/
def fractionCount (k : Int) (digits : List Nat) : Nat := (digits.length - k).toNat

/-- The text is that of the digits before the point and of those behind it. -/
theorem mantissa_eq (small : ∀ d ∈ digits, d < 10) : mantissa k digits =
    (shown k digits (wholeCount k) (wholeCount k)).map character ++
      fractionText (shown k digits (fractionCount k digits) 0) := by
  have count : (max k 1 - min (k - digits.length) 0).toNat =
      wholeCount k + fractionCount k digits := by
    rw [wholeCount, fractionCount]
    omega
  have pos : max k 1 = wholeCount k := by
    rw [wholeCount]
    omega
  rw [mantissa, count, pos, placeTexts_append, placeTexts_apart _ _ (.inr (Int.le_refl _)),
    sub_self, placeTexts_point small, map_lcDigit (shown_small small _ _)]

/-- Above the first digit and below the last there are zeros. -/
theorem shown_zeros (count : Nat) (pos : Int)
    (outside : k < pos - count + 1 ∨ pos ≤ k - digits.length) :
    shown k digits count pos = List.replicate count 0 := by
  induction count generalizing pos with
  | zero => rfl
  | succ count ih =>
    rw [shown, ih (pos - 1) (by omega), List.replicate_succ, digitAt]
    split
    · rfl
    · rw [if_pos (by omega)]

/-- From the place of a digit on there are the digits themselves. -/
theorem shown_digits (front behind : List Nat) (split : digits = front ++ behind) :
    shown k digits behind.length (k - front.length) = behind := by
  induction behind generalizing front with
  | nil => rfl
  | cons d behind ih =>
    have own : digitAt k digits (k - front.length) = d := by
      have place : (k - (k - front.length)).toNat = front.length := by omega
      have length : digits.length = front.length + (behind.length + 1) := by
        rw [split, List.length_append, List.length_cons]
      rw [digitAt, if_neg (by omega), if_neg (by omega), place, split, List.getD_eq_getElem?_getD]
      simp
    have more := ih (front ++ [d]) (by rw [split]; simp)
    have next : k - front.length - 1 = k - (front ++ [d]).length := by
      rw [List.length_append, List.length_singleton]
      omega
    rw [List.length_cons, shown, own, next, more]

/-- The digits with zeros in front of them and behind. -/
theorem shown_all (some : digits ≠ []) :
    shown k digits (wholeCount k) (wholeCount k) ++ shown k digits (fractionCount k digits) 0 =
      List.replicate (1 - k).toNat 0 ++ (digits ++ List.replicate (k - digits.length).toNat 0) := by
  have length := List.length_pos_of_ne_nil some
  have count : wholeCount k + fractionCount k digits =
      (1 - k).toNat + (digits.length + (k - digits.length).toNat) := by
    rw [wholeCount, fractionCount]
    omega
  have joined : shown k digits (wholeCount k + fractionCount k digits) (wholeCount k) =
      shown k digits (wholeCount k) (wholeCount k) ++
        shown k digits (fractionCount k digits) (wholeCount k - wholeCount k) :=
    shown_append _ _ _
  rw [sub_self] at joined
  rw [← joined, count, shown_append, shown_append]
  have first : (wholeCount k : Int) - (1 - k).toNat = k - ([] : List Nat).length := by
    rw [wholeCount, List.length_nil]
    omega
  rw [first, shown_digits [] digits (List.nil_append digits).symm,
    shown_zeros _ (wholeCount k) (.inl ?_), shown_zeros _ _ (.inr ?_)]
  · rw [List.length_nil]
    omega
  · rw [wholeCount]
    omega

/-- There is no zero in front unless it is the only digit before the point. -/
theorem head_shown {d : Nat} {rest : List Nat} (shape : digits = d :: rest) (positive : 0 < d)
    {more : List Nat} (zero : shown k digits (wholeCount k) (wholeCount k) = 0 :: more) :
    more = [] := by
  have length : (shown k digits (wholeCount k) (wholeCount k)).length = wholeCount k :=
    length_shown _ _
  rw [zero, List.length_cons] at length
  rcases le_or_gt k 0 with small | large
  · apply List.eq_nil_of_length_eq_zero
    rw [wholeCount] at length
    omega
  · -- The first place is that of the first digit.
    obtain ⟨count, whole⟩ := Nat.exists_eq_succ_of_ne_zero (show wholeCount k ≠ 0 by omega)
    have pos : (wholeCount k : Int) = k := by
      rw [wholeCount]
      omega
    rw [pos, whole, shown] at zero
    have first : digitAt k digits k = d := by
      have behind : ¬k ≤ k - digits.length := by
        rw [shape, List.length_cons]
        omega
      rw [digitAt, if_neg (by omega), if_neg behind, sub_self, shape]
      rfl
    rw [first] at zero
    exact absurd (List.cons.inj zero).1 positive.ne'

/-- The digits with their point are a numeral, to which an exponent may be added. -/
theorem mantissa_numeral (k : Int) {d : Nat} {rest : List Nat} (small : ∀ e ∈ d :: rest, e < 10)
    (positive : 0 < d) (short : rest.length < 20) (negative : Bool)
    (exponent : Option (Bool × List Nat)) (places : ∀ sign digits,
      exponent = some (sign, digits) → digits ≠ [] ∧ ∀ e ∈ digits, e < 10) :
    ∃ numeral : Numeral, numeral.negative = negative ∧ numeral.exponent = exponent ∧
      mantissa k (d :: rest) =
        numeral.whole.map character ++ fractionText numeral.fraction ∧
      numeral.absolute 20 = decimal 10 k (d :: rest) * 10 ^ exponentValue exponent := by
  have all := shown_all (k := k) (List.cons_ne_nil d rest)
  have whole : shown k (d :: rest) (wholeCount k) (wholeCount k) ≠ [] := by
    apply List.ne_nil_of_length_pos
    rw [length_shown, wholeCount]
    omega
  have decimals : ∀ e ∈ shown k (d :: rest) (wholeCount k) (wholeCount k) ++
      shown k (d :: rest) (fractionCount k (d :: rest)) 0, e < 10 :=
    List.forall_mem_append.mpr ⟨shown_small small _ _, shown_small small _ _⟩
  refine ⟨⟨negative, shown k (d :: rest) (wholeCount k) (wholeCount k),
    shown k (d :: rest) (fractionCount k (d :: rest)) 0, exponent, decimals, whole,
    fun more zero => head_shown rfl positive zero, places⟩, rfl, rfl, mantissa_eq small, ?_⟩
  have nonzero : (10 : ℚ) ≠ 0 := by norm_num
  rw [Numeral.absolute]
  dsimp only
  rw [all, leading_zeros_append, leading_eq positive.ne' short, length_shown, decimal, mul_assoc,
    Nat.cast_mul, Nat.cast_pow, Nat.cast_ofNat, mul_assoc, ← zpow_natCast, ← zpow_add₀ nonzero,
    ← zpow_add₀ nonzero]
  congr 2
  rw [fractionCount]
  omega

/-- An integer of 32 bits is printed as a numeral for it. -/
theorem uint32_numeral {x : Nat} (small : x < 2 ^ 32) (negative : Bool) :
    ∃ numeral : Numeral,
      Spells numeral (signText negative ++ (formatUint32 10 32 x []).map lcDigit) ∧
      numeral.negative = negative ∧ numeral.exponent = none ∧ numeral.absolute 20 = x := by
  obtain ⟨d, rest, written, spelled, digits, first⟩ := formatUint32_spec 31 x []
    (lt_of_lt_of_le small (by norm_num))
  have value : leading 20 (d :: rest ++ []) = x := by
    rcases Nat.eq_zero_or_pos d with zero | positive
    · rw [zero, first zero, number_singleton] at spelled
      rw [zero, first zero, ← spelled]
      rfl
    · have few : rest.length < 20 := by
        have least : 10 ^ rest.length ≤ x := by
          rw [← spelled, number_cons]
          exact le_trans (Nat.le_mul_of_pos_left _ positive) (Nat.le_add_right _ _)
        by_contra many
        have power : 10 ^ 20 ≤ 10 ^ rest.length := Nat.pow_le_pow_right (by decide) (by omega)
        omega
      have whole : leading 20 (d :: rest ++ List.replicate 0 0) = number 10 (d :: rest) * 10 ^ 0 :=
        leading_eq positive.ne' few
      rwa [spelled, pow_zero, Nat.mul_one] at whole
  refine ⟨⟨negative, d :: rest, [], none, by simpa using digits, List.cons_ne_nil d rest, ?_,
    nofun⟩, ⟨[], .none, ?_⟩, rfl, rfl, ?_⟩
  · intro more shape
    rw [← (List.cons.inj shape).2]
    exact first (List.cons.inj shape).1
  · rw [List.append_nil] at written
    change signText negative ++ (formatUint32 10 (31 + 1) x []).map lcDigit =
      signText negative ++ ((d :: rest).map character ++ (fractionText [] ++ []))
    rw [written, map_lcDigit digits]
    simp [fractionText]
  · rw [Numeral.absolute]
    dsimp only
    rw [value, exponentValue]
    simp

/-- The other numbers are printed as numerals for their digits. -/
theorem convertAndPush_numeral {d : Nat} {rest : List Nat} (small : ∀ e ∈ d :: rest, e < 10)
    (positive : 0 < d) (short : rest.length < 20) (neg : Bool)
    (bounded : (k - 1).natAbs ≤ 1000000000) :
    ∃ numeral : Numeral, Spells numeral (convertAndPush k (d :: rest) neg) ∧
      numeral.negative = neg ∧ size numeral.exponent ≤ 1000000000 ∧
      numeral.absolute 20 = decimal 10 k (d :: rest) := by
  by_cases marked : 21 < k ∨ k ≤ -6
  · obtain ⟨e, more, written, spelled, digits, -⟩ := formatUint32_spec 31 (k - 1).natAbs []
      (lt_of_le_of_lt bounded (by norm_num))
    rw [List.append_nil] at written
    have written : formatUint32 10 32 (k - 1).natAbs [] = e :: more := written
    obtain ⟨numeral, sign, exponent, text, absolute⟩ := mantissa_numeral 1 small positive short neg
      (some (decide (k - 1 < 0), e :: more)) (by
        intro negative places same
        obtain ⟨-, rfl⟩ := Prod.mk.inj (Option.some.inj same)
        exact ⟨List.cons_ne_nil e more, digits⟩)
    refine ⟨numeral,
      ⟨[0x65, if 0 ≤ k - 1 then 0x2b else 0x2d] ++ (e :: more).map character, ?_, ?_⟩,
      sign, ?_, ?_⟩
    · rw [exponent]
      rcases lt_or_ge (k - 1) 0 with below | above
      · rw [decide_eq_true below, if_neg (not_le_of_gt below)]
        exact .minus _ (.inl rfl)
      · rw [decide_eq_false (not_lt_of_ge above), if_pos above]
        exact .plus _ (.inl rfl)
    · rw [convertAndPush, if_pos marked, sign, signText]
      dsimp only
      rw [text, written, map_lcDigit digits]
      simp
    · rw [exponent, size, spelled]
      exact bounded
    · have value : exponentValue (some (decide (k - 1 < 0), e :: more)) = k - 1 := by
        rcases lt_or_ge (k - 1) 0 with below | above
        · rw [decide_eq_true below, exponentValue, spelled]
          omega
        · rw [decide_eq_false (not_lt_of_ge above), exponentValue, spelled]
          omega
      rw [absolute, value, decimal, decimal, mul_assoc, Nat.cast_ofNat, ← zpow_add₀ (by norm_num)]
      congr 2
      omega
  · obtain ⟨numeral, sign, exponent, text, absolute⟩ :=
      mantissa_numeral k small positive short neg none (fun _ _ same => by cases same)
    refine ⟨numeral, ⟨[], ?_, ?_⟩, sign, ?_, ?_⟩
    · rw [exponent]
      exact .none
    · rw [convertAndPush, if_neg marked, text, sign, signText, List.append_nil]
    · rw [exponent]
      exact Nat.zero_le _
    · rw [absolute, exponentValue, zpow_zero, mul_one]

/-- An integer takes no more characters than there are places. -/
theorem length_formatUint32 (places x : Nat) (buf : List Nat) :
    (formatUint32 10 places x buf).length ≤ places + buf.length := by
  induction places generalizing x buf with
  | zero => exact Nat.le_add_left _ _
  | succ places ih =>
    rw [formatUint32]
    split
    · rw [List.length_cons]
      omega
    · have := ih (x / 10) ((x - x / 10 * 10) :: buf)
      rw [List.length_cons] at this
      omega

/-- A place is written with at most two characters. -/
theorem length_placeTexts (count : Nat) (pos : Int) :
    (placeTexts k digits count pos).length ≤ 2 * count := by
  induction count generalizing pos with
  | zero => exact Nat.le_refl 0
  | succ count ih =>
    have rest := ih (pos - 1)
    have own : (placeText k digits pos).length ≤ 2 := by
      rw [placeText_eq]
      split <;> simp
    rw [placeTexts, List.length_append]
    omega

/-- Few digits are printed with few characters: an exponent replaces long rows of
zeros. -/
theorem length_convertAndPush (few : digits.length ≤ 17) (neg : Bool) :
    (convertAndPush k digits neg).length ≤ 200 := by
  have sign : (if neg then ([0x2d] : List UInt8) else []).length ≤ 1 := by
    cases neg <;> decide
  have places (k : Int) : (mantissa k digits).length ≤
      2 * (max k 1 - min (k - digits.length) 0).toNat := length_placeTexts _ _
  by_cases marked : 21 < k ∨ k ≤ -6
  · have single := places 1
    have exponent := length_formatUint32 32 (k - 1).natAbs []
    rw [List.length_nil] at exponent
    rw [convertAndPush, if_pos marked]
    simp only [List.length_append, List.length_cons, List.length_nil, List.length_map]
    omega
  · have own := places k
    rw [convertAndPush, if_neg marked, List.length_append]
    omega

end Texts

section Doubles

variable {n : Nat} {k : Int} {digits : List Nat}

/-- An integer that takes the shorter way is exact. -/
theorem uval_spec {u : Nat} (fast : uval n = some u) : u < 2 ^ 32 ∧ value 52 (-1074) n = u := by
  rw [uval, doubleToCtx_eq] at fast
  dsimp only at fast
  rcases le_or_gt 0 (place 52 (-1074) n) with nonnegative | negative
  · rw [if_pos nonnegative] at fast
    split at fast
    · rename_i whole
      obtain rfl := Option.some.inj fast
      refine ⟨whole.1, ?_⟩
      rw [value, Nat.cast_mul, cast_pow_toNat 2 nonnegative, Nat.cast_ofNat]
    · cases fast
  · rw [if_neg (not_le_of_gt negative)] at fast
    split at fast
    · rename_i whole
      obtain rfl := Option.some.inj fast
      refine ⟨whole.1, ?_⟩
      have divides := Nat.dvd_of_mod_eq_zero (whole.2.resolve_left (not_le_of_gt negative))
      have power : ((2 ^ (-place 52 (-1074) n).toNat : ℕ) : ℚ) = 2 ^ (-place 52 (-1074) n) := by
        rw [cast_pow_toNat 2 (by omega), Nat.cast_ofNat]
      rw [Nat.cast_div divides (by positivity), power, value, zpow_neg, div_inv_eq_mul]
    · cases fast

/-- The place of the first digit is limited by that of the largest double and that of
the smallest. -/
theorem places_bounded (positive : 0 < n) (finite : n < infinity) (printed : Printed n k digits) :
    (k - 1).natAbs ≤ 1000000000 := by
  obtain ⟨d, rest, shape, nonzero⟩ := printed.head
  have ten : (1 : ℚ) < 10 := by norm_num
  have whole : decimal 10 k digits * (10 : ℕ) ^ digits.length = number 10 digits * (10 : ℕ) ^ k :=
    decimal_mul (by decide) k digits
  have power : (0 : ℚ) < 10 ^ digits.length := by positivity
  have unit : (0 : ℚ) < 10 ^ k := by positivity
  push_cast at whole
  have below : decimal 10 k digits < 10 ^ k := by
    have bound : (number 10 digits : ℚ) < 10 ^ digits.length := by
      exact_mod_cast number_lt printed.small
    refine lt_of_mul_lt_mul_right ?_ power.le
    rw [whole, mul_comm]
    exact mul_lt_mul_of_pos_left bound unit
  have above : (10 : ℚ) ^ (k - 1) ≤ decimal 10 k digits := by
    have bound : (10 : ℚ) ^ rest.length ≤ number 10 digits := by
      have : 10 ^ rest.length ≤ number 10 digits := by
        rw [shape, number_cons]
        exact le_trans (Nat.le_mul_of_pos_left _ nonzero) (Nat.le_add_right _ _)
      exact_mod_cast this
    have longer : (10 : ℚ) ^ digits.length = 10 ^ rest.length * 10 := by
      rw [shape, List.length_cons, pow_succ]
    have split : (10 : ℚ) ^ k = 10 ^ (k - 1) * 10 := by
      rw [← zpow_add_one₀ (by norm_num), Int.sub_add_cancel]
    refine le_of_mul_le_mul_right ?_ power
    rw [whole, longer, split]
    have least : (0 : ℚ) < 10 ^ (k - 1) := by positivity
    have := mul_le_mul_of_nonneg_right bound (mul_pos least (by norm_num : (0 : ℚ) < 10)).le
    linarith
  have least : (10 : ℚ) ^ (-1075 : ℤ) ≤ decimal 10 k digits := by
    have one : (1 : ℚ) ≤ significand 52 n := by exact_mod_cast (significand_bounds n positive).1
    have gap := gap_positive 52 (-1074) n
    have own : 2 ^ place 52 (-1074) n ≤ value 52 (-1074) n := le_mul_of_one_le_left gap.le one
    have less := gapBelow_le n
    have half : (2 : ℚ) ^ (-1075 : ℤ) * 2 ≤ 2 ^ place 52 (-1074) n := by
      rw [← zpow_add_one₀ two_ne_zero]
      apply zpow_le_zpow_right₀ one_le_two
      rw [place]
      omega
    have base : (10 : ℚ) ^ (-1075 : ℤ) ≤ 2 ^ (-1075 : ℤ) := by
      rw [zpow_neg, zpow_neg]
      apply inv_anti₀ (by positivity)
      exact zpow_le_zpow_left₀ (by decide) (by norm_num) (by norm_num)
    have reached := printed.below
    linarith
  have most : decimal 10 k digits ≤ 10 ^ (1024 : ℤ) := by
    have top : value 52 (-1074) infinity = (2 ^ 53 : ℕ) * 2 ^ ((971 : ℕ) : ℤ) :=
      value_grid 52 (-1074) 2045 (2 ^ 53) (.inr (by decide)) (by decide)
    have ordered := (value_strictMono 52 (-1074)).monotone (Nat.succ_le_of_lt finite)
    have middle : upper 52 (-1074) n ≤ value 52 (-1074) (n + 1) := by
      have gap := gap_positive 52 (-1074) n
      rw [upper, value_succ]
      linarith
    have power : ((2 ^ 53 : ℕ) : ℚ) * 2 ^ ((971 : ℕ) : ℤ) = 2 ^ (1024 : ℤ) := by
      rw [Nat.cast_pow, Nat.cast_ofNat, ← zpow_natCast, ← zpow_add₀ two_ne_zero]
      rfl
    have base : (2 : ℚ) ^ (1024 : ℤ) ≤ 10 ^ (1024 : ℤ) :=
      zpow_le_zpow_left₀ (by decide) (by norm_num) (by norm_num)
    rw [top, power] at ordered
    exact le_trans printed.above (le_trans middle (le_trans ordered base))
  have low : -1075 < k := (zpow_lt_zpow_iff_right₀ ten).mp (lt_of_le_of_lt least below)
  have high : k - 1 ≤ 1024 := (zpow_le_zpow_iff_right₀ ten).mp (le_trans above most)
  omega

/-- Below 2^53 the digits are never the middle to the next double, which has more
places than the double itself. -/
theorem decimal_ne_upper (printed : Printed n k digits) (fine : place 52 (-1074) n ≤ 0) :
    decimal 10 k digits ≠ upper 52 (-1074) n := by
  intro same
  obtain ⟨m, negated⟩ := Int.eq_ofNat_of_zero_le (Int.neg_nonneg_of_nonpos fine)
  have exponent : place 52 (-1074) n = -(m : ℤ) := by omega
  have short := printed.ending fine
  obtain ⟨spare, left⟩ := Int.eq_ofNat_of_zero_le (show 0 ≤ k - digits.length + m by omega)
  have scaled : decimal 10 k digits * 10 ^ m = (number 10 digits * 10 ^ spare : ℕ) := by
    rw [decimal, mul_assoc, Nat.cast_mul, Nat.cast_pow, Nat.cast_ofNat, ← zpow_natCast,
      ← zpow_add₀ (by norm_num), left, zpow_natCast]
  have middle : upper 52 (-1074) n * 10 ^ m = (2 * significand 52 n + 1) * 5 ^ m / 2 := by
    have ten : (10 : ℚ) ^ m = 2 ^ m * 5 ^ m := by
      rw [← mul_pow]
      norm_num
    rw [upper, value, exponent, zpow_neg, zpow_natCast, ten]
    field_simp
  rw [same, middle] at scaled
  have parity : (2 * significand 52 n + 1) * 5 ^ m = 2 * (number 10 digits * 10 ^ spare) := by
    have : ((2 * significand 52 n + 1) * 5 ^ m : ℚ) = 2 * (number 10 digits * 10 ^ spare : ℕ) := by
      linarith
    exact_mod_cast this
  have odd : 5 ^ m % 2 = 1 := by rw [Nat.pow_mod, Nat.one_pow]
  have left : (2 * significand 52 n + 1) * 5 ^ m % 2 = 1 := by
    rw [Nat.mul_mod, odd]
    omega
  omega

/-- Below 2^53 the last bit is no more than one. -/
theorem fine_of_small (small : value 52 (-1074) n < 2 ^ 53) : place 52 (-1074) n ≤ 0 := by
  by_contra coarse
  have wide : n / 2 ^ 52 ≠ 0 := by
    rw [place] at coarse
    omega
  have hidden : (2 ^ 52 : ℚ) ≤ significand 52 n := by
    rw [significand, if_neg wide]
    exact_mod_cast Nat.le_add_right _ _
  have unit : (2 : ℚ) ^ (1 : ℤ) ≤ 2 ^ place 52 (-1074) n :=
    zpow_le_zpow_right₀ one_le_two (by omega)
  rw [zpow_one] at unit
  have product : (2 ^ 52 * 2 : ℚ) ≤ value 52 (-1074) n :=
    mul_le_mul hidden unit (by norm_num) (by positivity)
  linarith

/-- What remains of a double: there is no negative zero among the texts. -/
def settled (x : Double) : Double := { x with negative := x.negative && x.magnitude != 0 }

/-- The numbers that stand for a double in print: its exact value where it takes the
shorter way, else what its digits spell. -/
def StandsIn (n : Nat) (absolute : ℚ) : Prop :=
  (uval n ≠ none ∧ absolute = value 52 (-1074) n) ∨
    ∃ k digits, uval n = none ∧ generated n = some (k, digits) ∧ Printed n k digits ∧
      absolute = decimal 10 k digits

/-- A finite double is printed as a numeral, for its exact value or for its digits. -/
theorem stringify_numeral (x : Double) (finite : x.magnitude < infinity) :
    ∃ text numeral, NumberPrinting.stringify x = some text ∧ Spells numeral text ∧
      numeral.negative = (settled x).negative ∧ size numeral.exponent ≤ 1000000000 ∧
      StandsIn x.magnitude (numeral.absolute 20) := by
  unfold StandsIn
  cases fast : uval x.magnitude with
  | some u =>
    obtain ⟨small, exact⟩ := uval_spec fast
    have zero : u = 0 ↔ x.magnitude = 0 := by
      constructor
      · rintro rfl
        by_contra nonzero
        have := value_positive 52 (-1074) (Nat.pos_of_ne_zero nonzero)
        rw [exact, Nat.cast_zero] at this
        exact lt_irrefl _ this
      · intro nothing
        rw [nothing, uval_zero] at fast
        exact (Option.some.inj fast).symm
    have sign : (if x.negative ∧ u ≠ 0 then ([0x2d] : List UInt8) else []) =
        signText (settled x).negative := by
      rw [signText, settled]
      congr 1
      simp [zero]
    obtain ⟨numeral, spelled, negative, exponent, absolute⟩ :=
      uint32_numeral small (settled x).negative
    refine ⟨_, numeral, ?_, spelled, negative, ?_, .inl ⟨Option.some_ne_none u, ?_⟩⟩
    · rw [stringify_finite finite, fast]
      dsimp only
      rw [sign]
    · rw [exponent]
      exact Nat.zero_le _
    · rw [absolute, exact]
  | none =>
    have positive := positive_of_uval fast
    obtain ⟨k, digits, generates, printed⟩ := generated_spec positive
    obtain ⟨d, rest, rfl, first⟩ := printed.head
    have short : rest.length < 20 := by
      have := printed.short
      rw [List.length_cons] at this
      omega
    obtain ⟨numeral, spelled, negative, exponent, absolute⟩ := convertAndPush_numeral printed.small
      first short x.negative (places_bounded positive finite printed)
    refine ⟨_, numeral, ?_, spelled, ?_, exponent,
      .inr ⟨k, d :: rest, rfl, generates, printed, absolute⟩⟩
    · rw [stringify_finite finite, fast]
      dsimp only
      rw [generates, Option.map_some]
    · rw [negative, settled]
      simp [positive.ne']

/-- No finite double takes more than 200 characters. -/
theorem length_stringify {x : Double} (finite : x.magnitude < infinity) {text : List UInt8}
    (prints : NumberPrinting.stringify x = some text) : text.length ≤ 200 := by
  rw [stringify_finite finite] at prints
  cases fast : uval x.magnitude with
  | some u =>
    rw [fast] at prints
    obtain rfl := Option.some.inj prints
    have whole := length_formatUint32 32 u []
    have sign : (if x.negative ∧ u ≠ 0 then ([0x2d] : List UInt8) else []).length ≤ 1 := by
      split <;> decide
    rw [List.length_append, List.length_map]
    rw [List.length_nil] at whole
    omega
  | none =>
    obtain ⟨k, digits, generates, printed⟩ := generated_spec (positive_of_uval fast)
    rw [fast] at prints
    dsimp only at prints
    rw [generates, Option.map_some] at prints
    obtain rfl := Option.some.inj prints
    exact length_convertAndPush printed.short x.negative

/-- The middle to the double before is not above the digits, unless the gap below
was taken for too wide. -/
theorem middle_le_decimal (printed : Printed n k digits) (judged : ¬Misjudged n) :
    ∀ m, m + 1 = n → upper 52 (-1074) m ≤ decimal 10 k digits := by
  rintro m rfl
  rw [← gapBelow_eq judged]
  exact printed.below

/-- What is printed is read back exactly where the numeral is rounded to the double. -/
theorem read_iff_rounded (x : Double) (finite : x.magnitude < infinity) :
    ∃ text numeral, NumberPrinting.stringify x = some text ∧ Spells numeral text ∧
      (numconvParse text = some (settled x) ↔
        HalfUp 52 (-1074) infinity (numeral.absolute 20) x.magnitude) ∧
      StandsIn x.magnitude (numeral.absolute 20) := by
  obtain ⟨text, numeral, prints, spelled, negative, exponent, exact⟩ := stringify_numeral x finite
  have short := length_stringify finite prints
  obtain ⟨n, reads, rounded⟩ := reads_numeral numeral spelled exponent (by omega)
  refine ⟨text, numeral, prints, spelled, ?_, exact⟩
  rw [reads, negative, Option.some.injEq]
  constructor
  · intro equal
    rwa [show n = x.magnitude from congrArg Double.magnitude equal] at rounded
  · intro own
    rw [rounded.unique own]
    rfl

/-- Below 2^53 every double is read back, but for the misjudged powers of two. -/
theorem rounded_of_small {absolute : ℚ} (finite : n < infinity)
    (small : value 52 (-1074) n < 2 ^ 53) (judged : ¬Misjudged n) (exact : StandsIn n absolute) :
    HalfUp 52 (-1074) infinity absolute n := by
  rcases exact with ⟨-, rfl⟩ | ⟨k, digits, -, -, printed, rfl⟩
  · exact halfUp_value finite.le
  · rw [halfUp_iff finite]
    exact ⟨middle_le_decimal printed judged,
      lt_of_le_of_ne printed.above (decimal_ne_upper printed (fine_of_small small))⟩

/-- A text that is printed is read as the double from which it came exactly where
the digits are below the middle to the next double, and not below the middle to the
one before. They are never below that middle but for a misjudged power of two, and
below 2^53 they never reach the other. -/
theorem number_read_back (x : Double) (finite : x.magnitude < infinity) :
    ∃ text, NumberPrinting.stringify x = some text ∧
      (numconvParse text = some (settled x) ↔ ∀ k digits, uval x.magnitude = none →
        generated x.magnitude = some (k, digits) →
          decimal 10 k digits < upper 52 (-1074) x.magnitude ∧
          (Misjudged x.magnitude → ∀ m, m + 1 = x.magnitude →
            upper 52 (-1074) m ≤ decimal 10 k digits)) ∧
      (value 52 (-1074) x.magnitude < 2 ^ 53 → ¬Misjudged x.magnitude →
        numconvParse text = some (settled x)) := by
  obtain ⟨text, numeral, prints, -, back, exact⟩ := read_iff_rounded x finite
  refine ⟨text, prints, ?_, fun small judged =>
    back.mpr (rounded_of_small finite small judged exact)⟩
  rw [back]
  rcases exact with ⟨fast, absolute⟩ | ⟨k, digits, slow, generates, printed, absolute⟩
  · have own : HalfUp 52 (-1074) infinity (value 52 (-1074) x.magnitude) x.magnitude :=
      halfUp_value finite.le
    rw [absolute]
    exact ⟨fun _ _ _ slow => absurd slow fast, fun _ => own⟩
  · rw [absolute, halfUp_iff finite]
    constructor
    · rintro ⟨above, below⟩ other others - same
      rw [generates] at same
      obtain ⟨rfl, rfl⟩ := Prod.mk.inj (Option.some.inj same)
      exact ⟨below, fun _ => above⟩
    · intro within
      obtain ⟨below, above⟩ := within k digits slow generates
      refine ⟨?_, below⟩
      by_cases misjudged : Misjudged x.magnitude
      · exact above misjudged
      · exact middle_le_decimal printed misjudged

/-- One half, with the sign. -/
theorem number_read_back_witness :
    ∃ text, NumberPrinting.stringify ⟨true, 1022 * 2 ^ 52⟩ = some text ∧
      numconvParse text = some ⟨true, 1022 * 2 ^ 52⟩ := by
  obtain ⟨text, prints, -, back⟩ := number_read_back ⟨true, 1022 * 2 ^ 52⟩ (by norm_num)
  refine ⟨text, prints, back ?_ ?_⟩
  · norm_num [value, significand, place]
  · norm_num [Misjudged]

-- The double next below 10^23 is printed as that power, the middle to the next
-- double, and the power is read as the next double.
example : (NumberPrinting.stringify ⟨false, 4950912855330343670⟩).bind numconvParse =
    some ⟨false, 4950912855330343671⟩ := by decide +kernel

-- A misjudged power of two: its digits are nearer to the double before.
example : (NumberPrinting.stringify ⟨false, 4 * 2 ^ 52⟩).bind numconvParse =
    some ⟨false, 4 * 2 ^ 52 - 1⟩ := by decide +kernel

end Doubles

section Json

/-- The doubles that are read back for sure: those below 2^53, apart from the misjudged
powers of two and from the negative zero. -/
def Exact (x : Double) : Prop :=
  x.magnitude < 1076 * 2 ^ 52 ∧ ¬Misjudged x.magnitude ∧ settled x = x

/-- Membership is computed. -/
instance decidableExact (x : Double) : Decidable (Exact x) := by
  unfold Exact
  infer_instance

/-- What the encoder writes for a finite number. -/
def encNumber (x : Double) : List UInt8 := (NumberPrinting.stringify x).getD []

/-- The packed bound is that of the value. -/
theorem value_lt_of_magnitude {n : Nat} (small : n < 1076 * 2 ^ 52) :
    value 52 (-1074) n < 2 ^ 53 := by
  have top : value 52 (-1074) (1076 * 2 ^ 52) = (2 ^ 52 : ℕ) * 2 ^ (-1074 + (1075 : ℕ) : ℤ) :=
    value_grid 52 (-1074) 1075 (2 ^ 52) (.inr (Nat.le_refl _)) (by decide)
  have ordered := value_strictMono 52 (-1074) small
  rw [top] at ordered
  norm_num at ordered
  linarith

/-- The characters of a numeral. -/
theorem numeral_of_spelled {numeral : Numeral} {text : List UInt8} (spelled : Spells numeral text) :
    ∃ first rest, text = first :: rest ∧ (JsonTexts.digit first = true ∨ first = 0x2d) ∧
      ∀ byte ∈ rest, JsonTexts.numeral byte = true := by
  have one : ∀ d < 10, JsonTexts.digit (character d) = true := by decide
  have characters {digits : List Nat} (small : ∀ d ∈ digits, d < 10) :
      ∀ byte ∈ digits.map character, JsonTexts.numeral byte = true := by
    rw [List.forall_mem_map]
    intro d member
    simp [JsonTexts.numeral, one d (small d member)]
  obtain ⟨tail, exponent, rfl⟩ := spelled
  obtain ⟨whole, fraction⟩ := List.forall_mem_append.mp numeral.decimal
  obtain ⟨d, more, shape⟩ := List.exists_cons_of_ne_nil numeral.nonempty
  have behind : ∀ byte ∈ tail, JsonTexts.numeral byte = true := by
    have places := numeral.places
    cases shown : numeral.exponent with
    | none =>
      rw [shown] at exponent
      cases exponent
      exact List.forall_mem_nil _
    | some value =>
      obtain ⟨-, small⟩ := places value.1 value.2 shown
      rw [shown] at exponent
      cases exponent with
      | plain digits marks | plus digits marks | minus digits marks =>
        rcases marks with rfl | rfl <;>
          simpa [JsonTexts.numeral] using characters small
  have point : ∀ byte ∈ fractionText numeral.fraction, JsonTexts.numeral byte = true := by
    rw [fractionText]
    split
    · exact List.forall_mem_nil _
    · exact List.forall_mem_cons.mpr ⟨rfl, characters fraction⟩
  have text : ∀ byte ∈ numeral.whole.map character ++ (fractionText numeral.fraction ++ tail),
      JsonTexts.numeral byte = true :=
    List.forall_mem_append.mpr ⟨characters whole, List.forall_mem_append.mpr ⟨point, behind⟩⟩
  cases negative : numeral.negative with
  | true => exact ⟨0x2d, _, rfl, .inr rfl, text⟩
  | false =>
    refine ⟨character d, _, by rw [shape]; rfl, .inl (one d ?_), fun byte member => text byte ?_⟩
    · exact whole d (by simp [shape])
    · rw [shape]
      exact List.mem_cons_of_mem _ member

/-- These doubles are kept by the conversions of the encoder and of the decoder. -/
theorem kept_of_exact {x : Double} (exact : Exact x) :
    JsonEncoding.Kept numconvParse encNumber x := by
  obtain ⟨small, judged, same⟩ := exact
  have finite : x.magnitude < infinity := lt_trans small (by decide)
  obtain ⟨text, numeral, prints, spelled, back, exact⟩ := read_iff_rounded x finite
  have written : encNumber x = text := by rw [encNumber, prints, Option.getD_some]
  rw [same] at back
  constructor
  · rw [written]
    exact numeral_of_spelled spelled
  · rw [written]
    exact back.mpr (rounded_of_small finite (value_lt_of_magnitude small) judged exact)

variable (gap : List UInt8) (recursionLimit : Nat) (disk : BoundaryData.Disk) (path : String)

/-- Documents whose numbers are such doubles are loaded as they were saved. -/
theorem doubles_saved_loaded (blank : JsonTexts.White gap) (document : JsonTexts.Document Double)
    (textual : ∀ own ∈ document.strings, JsonEncoding.Textual own)
    (exact : ∀ x ∈ document.numbers, Exact x) :
    ((saveJson encNumber gap recursionLimit disk path document).isSome = true ↔
        document.depth ≤ recursionLimit) ∧
      ∀ saved, saveJson encNumber gap recursionLimit disk path document = some saved →
        loadJson numconvParse recursionLimit saved path = some document ∧
          ∀ other ≠ path, saved other = disk other := by
  have kept : ∀ x ∈ document.numbers, JsonEncoding.Kept numconvParse encNumber x :=
    fun x member => kept_of_exact (exact x member)
  refine ⟨isSome_saveJson encNumber gap recursionLimit disk path document, fun saved written => ?_⟩
  exact ⟨loadJson_saveJson blank textual kept written, fun other => saveJson_frame written⟩

/-- An array with minus one half. -/
theorem doubles_saved_loaded_witness :
    ∃ saved, saveJson encNumber [0x20] 1 (fun _ => none) "a"
        (.array [.number ⟨true, 1022 * 2 ^ 52⟩]) = some saved ∧
      loadJson numconvParse 1 saved "a" = some (.array [.number ⟨true, 1022 * 2 ^ 52⟩]) := by
  have exact : ∀ x ∈ (JsonTexts.Document.array [.number (⟨true, 1022 * 2 ^ 52⟩ : Double)]).numbers,
      Exact x := by
    intro x member
    obtain rfl : x = ⟨true, 1022 * 2 ^ 52⟩ := by
      simpa [JsonTexts.Document.numbers, JsonTexts.Document.numbersItems] using member
    decide
  obtain ⟨saves, loads⟩ := doubles_saved_loaded [0x20] 1 (fun _ => none) "a"
    (by simp [JsonTexts.White, JsonTexts.white]) (.array [.number ⟨true, 1022 * 2 ^ 52⟩])
    (by simp [JsonTexts.Document.strings, JsonTexts.Document.stringsItems]) exact
  obtain ⟨saved, written⟩ := Option.isSome_iff_exists.mp
    (saves.mpr (by simp [JsonTexts.Document.depth, JsonTexts.Document.depthItems]))
  exact ⟨saved, written, (loads saved written).1⟩

end Json

end Hadouken.NumberRoundTrip
