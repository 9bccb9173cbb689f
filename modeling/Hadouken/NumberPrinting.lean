import Hadouken.Dragon4
import Hadouken.JsonEncoding
import Hadouken.Library.PackedFloats
import Mathlib.Tactic.FieldSimp

/-!
# Printing numbers

`duk_numconv_stringify` writes a double with the fewest digits that are within the
gaps to its neighbours. Integers of 32 bits take a shorter way. Numbers that are
very large or very small are written with an exponent.
-/

namespace Hadouken.NumberPrinting

open Digits Dragon4 PackedFloats JsonEncoding

/-- The packed infinity: the largest exponent, without a fraction. -/
abbrev infinity : Nat := 2047 * 2 ^ 52

/-- The bits of a double, the sign apart. What is above infinity is a NaN. -/
structure Double where
  negative : Bool
  magnitude : Nat
deriving DecidableEq

section Source

/-- `duk__dragon4_double_to_ctx`: the fraction `f` and its exponent `e`. -/
def doubleToCtx (magnitude : Nat) : Nat × Int :=
  let fraction := magnitude % 2 ^ 52
  let expt := magnitude / 2 ^ 52
  if expt = 0 then (fraction, -1022 - 52) else (2 ^ 52 + fraction, Int.ofNat expt - 1023 - 52)

/-- `uval`, where the conversion to an unsigned integer and back gives the number. -/
def uval (magnitude : Nat) : Option Nat :=
  let (f, e) := doubleToCtx magnitude
  let truncated := if 0 ≤ e then f * 2 ^ e.toNat else f / 2 ^ (-e).toNat
  if truncated < 2 ^ 32 ∧ (0 ≤ e ∨ f % 2 ^ (-e).toNat = 0) then some truncated else none

/-- `duk__dragon4_format_uint32`: digits are written backwards in a buffer, which
has so many places left. -/
def formatUint32 (radix : Nat) : Nat → Nat → List Nat → List Nat
  | 0, _, buf => buf
  | places + 1, x, buf =>
      let t := x / radix
      let dig := x - t * radix
      if t = 0 then dig :: buf else formatUint32 radix places t (dig :: buf)

/-- One place of `duk__dragon4_convert_and_push`. -/
def placeText (k : Int) (digits : List Nat) (pos : Int) : List UInt8 :=
  (if pos = 0 then [0x2e] else []) ++
    [if k < pos then 0x30
      else if pos ≤ k - digits.length then 0x30
      else lcDigit (digits.getD (k - pos).toNat 0)]

/-- The loop over so many places. -/
def placeTexts (k : Int) (digits : List Nat) : Nat → Int → List UInt8
  | 0, _ => []
  | more + 1, pos => placeText k digits pos ++ placeTexts k digits more (pos - 1)

/-- The places down to the last digit, but no further up than the dot. -/
def mantissa (k : Int) (digits : List Nat) : List UInt8 :=
  let pos := max k 1
  let posEnd := min (k - digits.length) 0
  placeTexts k digits (pos - posEnd).toNat pos

/-- `duk__dragon4_convert_and_push`, for `toString` in base ten. -/
def convertAndPush (k : Int) (digits : List Nat) (neg : Bool) : List UInt8 :=
  (if neg then [0x2d] else []) ++
    if 21 < k ∨ k ≤ -6 then
      let expt := k - 1
      mantissa 1 digits ++ [0x65, if 0 ≤ expt then 0x2b else 0x2d] ++
        (formatUint32 10 32 expt.natAbs []).map lcDigit
    else mantissa k digits

/-- The digits that `duk_numconv_stringify` generates on its slow path, and the
place of the first. -/
def generated (magnitude : Nat) : Option (Int × List Nat) :=
  let (f, e) := doubleToCtx magnitude
  (scale 10 (prepare false 2 f e)).bind fun ctx =>
    (generate 10 1040 ctx).map fun digits => (ctx.k, digits)

/-- The text of a NaN. -/
def nanText : List UInt8 := [0x4e, 0x61, 0x4e]

/-- The text of an infinity, the sign apart. -/
def infinityText : List UInt8 := [0x49, 0x6e, 0x66, 0x69, 0x6e, 0x69, 0x74, 0x79]

/-- `duk_numconv_stringify` for `toString`. -/
def stringify (x : Double) : Option (List UInt8) :=
  if infinity < x.magnitude then some nanText
  else if x.magnitude = infinity then some ((if x.negative then [0x2d] else []) ++ infinityText)
  else
    match uval x.magnitude with
    | some uval =>
        some ((if x.negative ∧ uval ≠ 0 then [0x2d] else []) ++
          (formatUint32 10 32 uval []).map lcDigit)
    | none =>
        (generated x.magnitude).map fun (k, digits) => convertAndPush k digits x.negative

end Source

section Powers

/-- The odd part of a number is its own. -/
theorem odd_parts {x y a c : Nat} (oddX : x % 2 = 1) (oddY : y % 2 = 1)
    (same : x * 2 ^ a = y * 2 ^ c) : x = y := by
  have zero (d : Nat) {u w : Nat} (odd : u % 2 = 1) (equal : u = w * 2 ^ d) : u = w := by
    cases d with
    | zero => rwa [pow_zero, Nat.mul_one] at equal
    | succ d =>
      rw [pow_succ, ← Nat.mul_assoc] at equal
      omega
  rcases Nat.le_total a c with less | less
  · obtain ⟨d, rfl⟩ := Nat.exists_eq_add_of_le less
    rw [Nat.add_comm, pow_add, ← Nat.mul_assoc] at same
    exact zero d oddX (Nat.mul_right_cancel (by positivity) same)
  · obtain ⟨d, rfl⟩ := Nat.exists_eq_add_of_le less
    rw [Nat.add_comm, pow_add, ← Nat.mul_assoc] at same
    exact (zero d oddY (Nat.mul_right_cancel (by positivity) same).symm).symm

/-- A power of an integer exponent as a quotient of two natural ones. -/
theorem zpow_eq_div (b : ℚ) (nonzero : b ≠ 0) (e : ℤ) : b ^ e = b ^ e.toNat / b ^ (-e).toNat := by
  rw [← zpow_natCast, ← zpow_natCast, ← zpow_sub₀ nonzero]
  congr 1
  omega

/-- The middle between an odd number of units and the next is no power of ten. -/
theorem middle_ne_power {f : Nat} (odd : f % 2 = 1) (e k : Int) :
    (f + 1 / 2 : ℚ) * 2 ^ e ≠ 10 ^ k := by
  intro same
  rw [zpow_eq_div 2 two_ne_zero, zpow_eq_div 10 (by norm_num), mul_div_assoc', div_eq_div_iff
    (by positivity) (by positivity)] at same
  have whole : (2 * f + 1) * 2 ^ e.toNat * 10 ^ (-k).toNat = 2 * 10 ^ k.toNat * 2 ^ (-e).toNat := by
    have : (2 * f + 1) * 2 ^ e.toNat * 10 ^ (-k).toNat =
        (2 : ℚ) * 10 ^ k.toNat * 2 ^ (-e).toNat := by
      linarith
    exact_mod_cast this
  have ten (m : Nat) : 10 ^ m = 5 ^ m * 2 ^ m := by rw [← Nat.mul_pow]
  have five (m : Nat) : 5 ^ m % 4 = 1 := by rw [Nat.pow_mod, Nat.one_pow]
  rw [ten, ten] at whole
  have parts : (2 * f + 1) * 5 ^ (-k).toNat = 5 ^ k.toNat := by
    apply odd_parts (a := e.toNat + (-k).toNat) (c := k.toNat + (-e).toNat + 1)
    · have := five (-k).toNat
      rw [Nat.mul_mod]
      have : 5 ^ (-k).toNat % 2 = 1 := by omega
      rw [this]
      omega
    · have := five k.toNat
      omega
    · rw [pow_add, pow_succ, pow_add]
      linarith
  have left : (2 * f + 1) * 5 ^ (-k).toNat % 4 = 3 := by
    rw [Nat.mul_mod, five]
    omega
  rw [parts, five] at left
  exact absurd left (by decide)

end Powers

section Decimals

/-- Half of the gap below a double, as it is taken. -/
def gapBelow (n : Nat) : ℚ :=
  if significand 52 n = 2 ^ 52 ∧ -1022 < place 52 (-1074) n then
    2 ^ place 52 (-1074) n / 4
  else 2 ^ place 52 (-1074) n / 2

/-- A power of two for which the gap below is taken for as wide as the one above:
the test for the smallest exponent does not count the bits of the fraction. -/
def Misjudged (n : Nat) : Prop := n % 2 ^ 52 = 0 ∧ 2 ≤ n / 2 ^ 52 ∧ n / 2 ^ 52 ≤ 53

/-- The test is computed. -/
instance decidableMisjudged (n : Nat) : Decidable (Misjudged n) := by
  unfold Misjudged
  infer_instance

/-- The fraction and the exponent are those of the packed number. -/
theorem doubleToCtx_eq (n : Nat) :
    doubleToCtx n = (significand 52 n, place 52 (-1074) n) := by
  rw [doubleToCtx, significand, place]
  split
  · rename_i smallest
    have small : n < 2 ^ 52 := by omega
    rw [smallest, Nat.mod_eq_of_lt small]
    rfl
  · rw [Prod.mk.injEq]
    refine ⟨rfl, ?_⟩
    rw [Int.ofNat_eq_natCast]
    omega

/-- Apart from those powers of two the gap is that to the number before. -/
theorem gapBelow_eq {n : Nat} (judged : ¬Misjudged (n + 1)) :
    value 52 (-1074) (n + 1) - gapBelow (n + 1) = upper 52 (-1074) n := by
  have gap : gapBelow (n + 1) = 2 ^ place 52 (-1074) n / 2 := by
    rw [Misjudged] at judged
    rw [gapBelow, significand, place]
    by_cases first : (n + 1) % 2 ^ 52 = 0 ∧ 2 ≤ (n + 1) / 2 ^ 52
    · have further : (n + 1) / 2 ^ 52 - 1 = (n / 2 ^ 52 - 1) + 1 := by omega
      have finer : (2 : ℚ) ^ (-1074 + ((n + 1) / 2 ^ 52 - 1 : ℕ) : ℤ) =
          2 ^ place 52 (-1074) n * 2 := by
        rw [further, Nat.cast_succ, ← add_assoc, zpow_add_one₀ two_ne_zero, place]
      rw [if_pos, finer]
      · ring
      · constructor
        · rw [if_neg (by omega), first.1, Nat.add_zero]
        · omega
    · have same : (n + 1) / 2 ^ 52 - 1 = n / 2 ^ 52 - 1 := by omega
      rw [if_neg, same, place]
      rintro ⟨hidden, large⟩
      split at hidden <;> omega
  rw [gap, value_succ, upper]
  ring

/-- The gap below is no wider than the one above. -/
theorem gapBelow_le (n : Nat) : gapBelow n ≤ 2 ^ place 52 (-1074) n / 2 := by
  have := gap_positive 52 (-1074) n
  rw [gapBelow]
  split <;> linarith

/-- There is a gap below. -/
theorem gapBelow_positive (n : Nat) : 0 < gapBelow n := by
  have := gap_positive 52 (-1074) n
  rw [gapBelow]
  split <;> linarith

/-- The significand has 53 bits. -/
theorem significand_bounds (n : Nat) (positive : 0 < n) :
    0 < significand 52 n ∧ significand 52 n < 2 ^ 53 := by
  rw [significand]
  split <;> omega

end Decimals

section Digits

/-- What the digits of a double are: within its gaps, the fewest that are, and no more
than the double itself has. -/
structure Printed (n : Nat) (k : Int) (digits : List Nat) : Prop where
  small : ∀ d ∈ digits, d < 10
  head : ∃ d rest, digits = d :: rest ∧ 0 < d
  short : digits.length ≤ 17
  above : decimal 10 k digits ≤ upper 52 (-1074) n
  below : value 52 (-1074) n - gapBelow n ≤ decimal 10 k digits
  strict : significand 52 n % 2 = 1 → value 52 (-1074) n - gapBelow n < decimal 10 k digits
  shortest : ∀ x : ℤ, x * (10 : ℚ) ^ (k - digits.length + 1) ≤ value 52 (-1074) n - gapBelow n ∨
    upper 52 (-1074) n ≤ x * (10 : ℚ) ^ (k - digits.length + 1)
  ending : place 52 (-1074) n ≤ 0 → digits.length ≤ k - place 52 (-1074) n

/-- The scaled context of a double. -/
abbrev ScaledFor (n : Nat) (ctx : Context) : Prop :=
  Scaled 10 (value 52 (-1074) n) (2 ^ place 52 (-1074) n / 2) (gapBelow n) ctx

/-- A double is scaled. -/
theorem scaledFor (n : Nat) : ∃ ctx,
    scale 10 (prepare false 2 (significand 52 n) (place 52 (-1074) n)) = some ctx ∧
      ScaledFor n ctx ∧ ctx.ok = (significand 52 n % 2 == 0) := by
  have stands := standsFor_prepare (b := 2) 10 (significand 52 n) (place 52 (-1074) n) false
    (by decide) fun _ => rfl
  have start : (prepare false 2 (significand 52 n) (place 52 (-1074) n)).k = 0 ∧
      (prepare false 2 (significand 52 n) (place 52 (-1074) n)).ok =
        (significand 52 n % 2 == 0) := by
    simp only [prepare]
    split <;> split <;> exact ⟨rfl, rfl⟩
  obtain ⟨ctx, scales, scaled, same⟩ := scale_spec (by decide) stands start.1
  refine ⟨ctx, scales, ?_, same.trans start.2⟩
  simpa [ScaledFor, value, gapBelow] using scaled

variable {n : Nat} {ctx : Context} {digits : List Nat}

/-- With the gap above, a double is less than the power of ten. -/
theorem value_lt (scaled : ScaledFor n ctx) : value 52 (-1074) n < 10 ^ ctx.k := by
  have bound := scaled.le_power (by decide)
  have gap := gap_positive 52 (-1074) n
  push_cast at bound
  linarith

/-- The number and its upper gap are below the scale. -/
theorem margins (scaled : ScaledFor n ctx) (even : ctx.ok = (significand 52 n % 2 == 0)) :
    ctx.r + ctx.mp < ctx.s := by
  have reached := tooLow_eq_false.mp scaled.notTooLow
  cases ok : ctx.ok with
  | true =>
    rw [ok, Bool.toNat_true] at reached
    omega
  | false =>
    rw [ok, Bool.toNat_false] at reached
    apply lt_of_le_of_ne (by omega)
    intro same
    have odd : significand 52 n % 2 = 1 := by
      rw [ok] at even
      have := beq_eq_false_iff_ne.mp even.symm
      omega
    obtain ⟨unit, positive, s, r, mp, -⟩ := scaled.units (by decide)
    have equal : (ctx.r + ctx.mp : ℚ) = ctx.s := by exact_mod_cast same
    rw [s, r, mp, ← add_mul] at equal
    have power := mul_right_cancel₀ positive.ne' equal
    apply middle_ne_power odd (place 52 (-1074) n) ctx.k
    rw [value] at power
    push_cast at power
    linarith

/-- After 17 digits the gaps are wider than a step of the last digit. -/
theorem wide (positive : 0 < n) (scaled : ScaledFor n ctx) :
    ctx.s ≤ (ctx.mm + ctx.mp) * 10 ^ 17 := by
  obtain ⟨unit, some, s, r, mp, mm⟩ := scaled.units (by decide)
  have bound := scaled.power_le (by decide)
  have gap := gap_positive 52 (-1074) n
  obtain ⟨-, small⟩ := significand_bounds n positive
  have fraction : (significand 52 n : ℚ) + 1 ≤ 2 ^ 53 := by exact_mod_cast small
  have gaps : value 52 (-1074) n + 2 ^ place 52 (-1074) n / 2 ≤
      (gapBelow n + 2 ^ place 52 (-1074) n / 2) * 10 ^ 16 := by
    rw [value, gapBelow]
    split
    · rename_i lowest
      rw [lowest.1]
      push_cast
      linarith
    · have := mul_le_mul_of_nonneg_right fraction gap.le
      linarith
  have power : (10 : ℚ) ^ ctx.k ≤ (gapBelow n + 2 ^ place 52 (-1074) n / 2) * 10 ^ 17 := by
    push_cast at bound
    linarith
  have enough : (ctx.s : ℚ) ≤ (ctx.mm + ctx.mp) * 10 ^ 17 := by
    rw [s, mm, mp]
    push_cast
    have := mul_le_mul_of_nonneg_right power some.le
    linarith
  exact_mod_cast enough

/-- A double is a multiple of the power of ten with the exponent of its last bit. -/
theorem ending (scaled : ScaledFor n ctx) (positive : 0 < n) (fine : place 52 (-1074) n ≤ 0) :
    ∃ places : Nat, (places + 1 : ℤ) = ctx.k - place 52 (-1074) n ∧
      ctx.s ∣ ctx.r * 10 ^ (places + 1) := by
  obtain ⟨m, negated⟩ := Int.eq_ofNat_of_zero_le (Int.neg_nonneg_of_nonpos fine)
  have exponent : place 52 (-1074) n = -(m : ℤ) := by omega
  have exact : value 52 (-1074) n = significand 52 n / 2 ^ m := by
    rw [value, exponent, zpow_neg, zpow_natCast, div_eq_mul_inv]
  have one : (1 : ℚ) ≤ significand 52 n := by exact_mod_cast (significand_bounds n positive).1
  have least : (10 : ℚ) ^ (-(m : ℤ)) ≤ value 52 (-1074) n := by
    rw [exact, zpow_neg, zpow_natCast, ← one_div]
    apply div_le_div₀ (by linarith) one (by positivity)
    exact pow_le_pow_left₀ (by norm_num) (by norm_num) m
  have ordered : -(m : ℤ) < ctx.k := by
    have below := lt_of_le_of_lt least (value_lt scaled)
    exact (zpow_lt_zpow_iff_right₀ (by norm_num)).mp below
  obtain ⟨places, length⟩ := Int.eq_ofNat_of_zero_le (show 0 ≤ ctx.k + m - 1 by omega)
  refine ⟨places, by omega, significand 52 n * 5 ^ m, ?_⟩
  obtain ⟨unit, -, s, r, -, -⟩ := scaled.units (by decide)
  have power : (10 : ℚ) ^ (places + 1) = 10 ^ ctx.k * (2 ^ m * 5 ^ m) := by
    rw [← mul_pow, ← zpow_natCast, show (2 * 5 : ℚ) = 10 by norm_num, ← zpow_natCast,
      ← zpow_add₀ (by norm_num)]
    congr 1
    omega
  have whole : (ctx.r * 10 ^ (places + 1) : ℚ) = ctx.s * (significand 52 n * 5 ^ m) := by
    rw [r, s, power, exact]
    push_cast
    field_simp
  exact_mod_cast whole

/-- A double is printed with the fewest digits that are within its gaps. -/
theorem generated_spec (positive : 0 < n) :
    ∃ k digits, generated n = some (k, digits) ∧ Printed n k digits := by
  obtain ⟨ctx, scales, scaled, even⟩ := scaledFor n
  obtain ⟨digits, generates, short⟩ :
      ∃ digits, generate 10 1040 ctx = some digits ∧ digits.length ≤ 17 :=
    generate_total (wide positive scaled) (by decide)
  obtain ⟨above, below, strict⟩ := decimal_within (by decide) scaled generates
  have one : (1 : ℚ) ≤ significand 52 n := by exact_mod_cast (significand_bounds n positive).1
  have gap := gap_positive 52 (-1074) n
  have least : 2 ^ place 52 (-1074) n ≤ value 52 (-1074) n := le_mul_of_one_le_left gap.le one
  have less := gapBelow_le n
  refine ⟨ctx.k, digits, ?_, ?_, ?_, short, above, below, ?_, ?_, ?_⟩
  · rw [NumberPrinting.generated, doubleToCtx_eq]
    simp only [scales, Option.bind_some, generates, Option.map_some]
  · exact generate_small (by decide) (margins scaled even) generates
  · apply generate_head (by decide) ?_ ?_ generates
    · obtain ⟨unit, some, s, r, mp, mm⟩ := scaled.units (by decide)
      have smaller : (ctx.mm : ℚ) < ctx.r := by
        rw [mm, r]
        exact mul_lt_mul_of_pos_right (by linarith) some
      exact_mod_cast smaller
    · have reached := tooHigh_eq_false.mp scaled.notTooHigh
      have bit := Bool.toNat_le ctx.ok
      omega
  · intro odd
    apply strict
    rw [even, odd]
    rfl
  · exact decimal_shortest (by decide) scaled (by linarith) generates
  · intro fine
    obtain ⟨places, length, divides⟩ := ending scaled positive fine
    have margin : 0 < ctx.mm := by
      obtain ⟨unit, some, -, -, -, mm⟩ := scaled.units (by decide)
      have : (0 : ℚ) < ctx.mm := by
        rw [mm]
        exact mul_pos (gapBelow_positive n) some
      exact_mod_cast this
    have := generate_length_of_dvd scaled.positive (by decide) margin divides generates
    omega

/-- Zero takes the shorter way. -/
theorem uval_zero : uval 0 = some 0 := by
  simp only [uval, doubleToCtx, Nat.zero_mod, Nat.zero_div, if_pos]
  rw [if_pos (by decide)]
  rfl

/-- What takes the longer way is not zero. -/
theorem positive_of_uval (slow : uval n = none) : 0 < n := by
  apply Nat.pos_of_ne_zero
  rintro rfl
  rw [uval_zero] at slow
  cases slow

/-- Finite doubles are neither of the two special cases. -/
theorem stringify_finite {x : Double} (finite : x.magnitude < infinity) : stringify x =
    match uval x.magnitude with
    | some uval =>
        some ((if x.negative ∧ uval ≠ 0 then [0x2d] else []) ++
          (formatUint32 10 32 uval []).map lcDigit)
    | none =>
        (generated x.magnitude).map fun (k, digits) => convertAndPush k digits x.negative := by
  rw [stringify, if_neg (Nat.not_lt_of_lt finite), if_neg finite.ne]

/-- A finite number that is no integer of 32 bits is printed with such digits. -/
theorem shortest_digits_printed (x : Double) (finite : x.magnitude < infinity)
    (slow : uval x.magnitude = none) :
    ∃ k digits, stringify x = some (convertAndPush k digits x.negative) ∧
      Printed x.magnitude k digits := by
  obtain ⟨k, digits, generates, printed⟩ := generated_spec (positive_of_uval slow)
  refine ⟨k, digits, ?_, printed⟩
  rw [stringify_finite finite, slow]
  dsimp only
  rw [generates, Option.map_some]

/-- One tenth. -/
theorem shortest_digits_printed_witness :
    ∃ k digits, stringify ⟨false, 4591870180066957722⟩ = some (convertAndPush k digits false) ∧
      Printed 4591870180066957722 k digits :=
  shortest_digits_printed ⟨false, 4591870180066957722⟩ (by decide) (by decide +kernel)

example : stringify ⟨false, 4591870180066957722⟩ = some [0x30, 0x2e, 0x31] := by decide +kernel

end Digits

end Hadouken.NumberPrinting
