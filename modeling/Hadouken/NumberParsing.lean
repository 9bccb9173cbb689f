import Hadouken.Library.Numerals
import Hadouken.NumberPrinting

/-!
# Reading numbers

`duk_numconv_parse` scans a numeral into an integer of at most 20 digits and an
exponent. A 32-bit integer is converted at once; any other number gets its binary
digits from the digit generation, which are then rounded to a double, halves going
up. The counters of the scan have 32 bits; within 10^9 bytes none of them overflows.
-/

namespace Hadouken.NumberParsing

open Digits Dragon4 PackedFloats NumberPrinting Numerals

section Conversion

/-- `duk__dragon4_fixed_format_round`: the digits are rounded at an index, and it is
told whether the carry went over the first, which then gets a 1 before it. -/
def fixedFormatRound (base : Nat) (digits : List Nat) (roundIdx : Int) : List Nat × Bool :=
  if digits.length ≤ roundIdx then (digits, false)
  else if roundIdx < 0 then (digits, false)
  else
    let roundupLimit := (base + 1) / 2
    let i := roundIdx.toNat
    if roundupLimit ≤ digits.getD i 0 then
      let (front, carried) := increment base (digits.take i)
      ((if carried then 1 :: front else front) ++ 0 :: digits.drop (i + 1), carried)
    else (digits, false)

/-- The exponent field and the place of the first bit of the fraction. -/
def layout (k : Int) : Nat × Int :=
  let expt := k - 1
  if 1023 < expt then (2047, -255)
  else if -1022 ≤ expt then ((expt + 1023).toNat, 1)
  else (0, 1023 + expt)

/-- A bit of the fraction; places without a digit are zero. -/
def fractionBit (digits : List Nat) (bitidx : Int) : Nat :=
  if digits.length ≤ bitidx then 0 else if bitidx < 0 then 0 else digits.getD bitidx.toNat 0

/-- `duk__dragon4_ctx_to_double`. After a carry over the first digit the exponent is
looked at again. -/
def ctxToDouble (k : Int) (digits : List Nat) : Nat :=
  let (_, bitstart) := layout k
  let (rounded, carried) := fixedFormatRound 2 digits (bitstart + 52)
  let (expt, bitstart) := layout (if carried then k + 1 else k)
  expt * 2 ^ 52 + ∑ i ∈ Finset.range 52, fractionBit rounded (bitstart + 52 - 1 - i) * 2 ^ i

/-- An unsigned integer as a double. -/
def ofUint32 (x : Nat) : Nat :=
  if x = 0 then 0 else (x.log2 + 1022) * 2 ^ 52 + x * 2 ^ (52 - x.log2)

/-- What a counter of 32 bits holds. -/
def int32 (n : Int) : Int := n.bmod (2 ^ 32)

/-- Zeros behind the digits, so that there are 20. -/
def pad : Nat → Nat × Int → Nat × Int
  | 0, scanned => scanned
  | missing + 1, (f, expt) => pad missing (f * 10, int32 (expt - 1))

/-- From the scanned digits to the number. -/
def convert (f digPrec : Nat) (expt : Int) : Option Nat :=
  if f < 2 ^ 32 ∧ expt = 0 then some (ofUint32 f)
  else
    let (f, expt) := pad (20 - digPrec) (f, expt)
    if f = 0 then some 0
    else if 291 < expt then some infinity
    else if expt < -346 then some 0
    else (scale 2 (prepare true 10 f expt)).map fun ctx =>
      ctxToDouble ctx.k (generateFixed 2 (53 + 1) ctx)

end Conversion

section Scanning

/-- The state of the scan. Without a point or an exponent its count is -1. -/
structure Scan where
  f : Nat
  digPrec : Nat
  digLzero : Int
  digWhole : Int
  digFrac : Int
  digExpt : Int
  expt : Int
  exptAdj : Int
  exptNeg : Bool
deriving DecidableEq

/-- What a digit adds to the significand. Zeros in front are counted in the whole
part only. -/
def significandDigit (state : Scan) (dig : Nat) : Scan :=
  if state.digPrec < 20 then
    if state.f = 0 ∧ dig = 0 then
      if state.digFrac < 0 then { state with digLzero := int32 (state.digLzero + 1) } else state
    else { state with f := state.f * 10 + dig, digPrec := state.digPrec + 1 }
  else { state with exptAdj := int32 (state.exptAdj + 1) }

/-- A digit in front of the exponent. -/
def mantissaDigit (state : Scan) (dig : Nat) : Scan :=
  let state := significandDigit state dig
  if 0 ≤ state.digFrac then
    { state with digFrac := int32 (state.digFrac + 1), exptAdj := int32 (state.exptAdj - 1) }
  else { state with digWhole := int32 (state.digWhole + 1) }

/-- A digit of the exponent, which has a limit. -/
def exponentDigit (state : Scan) (dig : Nat) : Option Scan :=
  let expt := int32 (state.expt * 10 + dig)
  if 1000000000 < expt then none
  else some { state with expt, digExpt := int32 (state.digExpt + 1) }

/-- The value of a character in bases up to 36. -/
def digitValue (ch : UInt8) : Nat :=
  if 0x30 ≤ ch ∧ ch ≤ 0x39 then ch.toNat - 0x30
  else if 0x61 ≤ ch ∧ ch ≤ 0x7a then ch.toNat - 0x61 + 0x0a
  else if 0x41 ≤ ch ∧ ch ≤ 0x5a then ch.toNat - 0x41 + 0x0a
  else 255

/-- The loop of `duk_numconv_parse` in base ten, where an exponent and a fraction
are allowed and garbage is not. A zero byte ends the numeral. -/
def scan (state : Scan) : List UInt8 → Option Scan
  | [] => some state
  | ch :: rest =>
      if ch = 0x2e then
        if 0 ≤ state.digFrac ∨ 0 ≤ state.digExpt then none
        else scan { state with digFrac := 0 } rest
      else if ch = 0 then some state
      else if state.digExpt < 0 ∧ (ch = 0x65 ∨ ch = 0x45) then
        match rest with
        | 0x2d :: rest => scan { state with exptNeg := true, digExpt := 0 } rest
        | 0x2b :: rest => scan { state with digExpt := 0 } rest
        | rest => scan { state with digExpt := 0 } rest
      else
        let dig := digitValue ch
        if 10 ≤ dig then none
        else if state.digExpt < 0 then scan (mantissaDigit state dig) rest
        else
          match exponentDigit state dig with
          | some state => scan state rest
          | none => none

/-- Before the first character. -/
def start : Scan := ⟨0, 0, 0, 0, -1, -1, 0, 0, false⟩

/-- The checks behind the loop: no zeros in front, digits on both sides of a point
and behind the mark of an exponent. -/
def complete (state : Scan) : Bool :=
  !(decide (0 < state.digLzero) && decide (1 < state.digWhole)) &&
    state.digWhole != 0 && state.digFrac != 0 && state.digExpt != 0

/-- The exponent of the last digit that was taken. -/
def netExponent (state : Scan) : Int :=
  let expt := if state.exptNeg then int32 (-state.expt) else state.expt
  int32 (expt + state.exptAdj)

/-- The sign and what is behind it. -/
def leadingSign : List UInt8 → Bool × List UInt8
  | 0x2d :: rest => (true, rest)
  | digits => (false, digits)

/-- `duk_numconv_parse` with the flags of the JSON decoder. There is no number where
the result is a NaN or an error is thrown; the decoder throws in both cases. -/
def numconvParse (text : List UInt8) : Option Double :=
  let (negative, digits) := leadingSign text
  (scan start digits).bind fun state =>
    if complete state then
      (convert state.f state.digPrec (netExponent state)).map fun magnitude =>
        { negative, magnitude }
    else none

end Scanning

section Rounding

variable {digits : List Nat}

/-- Rounding adds the digit at the index to the digits before. -/
theorem fixedFormatRound_spec (small : ∀ d ∈ digits, d < 2) {i : Nat} (inside : i < digits.length) :
    ∃ rounded carried, fixedFormatRound 2 digits i = (rounded, carried) ∧
      (∀ d ∈ rounded, d < 2) ∧ i + carried.toNat ≤ rounded.length ∧
      number 2 (rounded.take (i + carried.toNat)) = number 2 (digits.take i) + digits[i] ∧
      (carried = true → number 2 (digits.take i) + digits[i] = 2 ^ i) := by
  have within : ¬(digits.length : Int) ≤ i := by omega
  have positive : ¬(i : Int) < 0 := by omega
  have front : ∀ d ∈ digits.take i, d < 2 := fun d member => small d (List.mem_of_mem_take member)
  have length : (digits.take i).length = i := by
    rw [List.length_take, Nat.min_eq_left inside.le]
  have found : digits.getD i 0 = digits[i] := by
    rw [List.getD_eq_getElem?_getD, List.getElem?_eq_getElem inside, Option.getD_some]
  have own := small _ (List.getElem_mem inside)
  have behind : ∀ d ∈ 0 :: digits.drop (i + 1), d < 2 := by
    rw [List.forall_mem_cons]
    exact ⟨by decide, fun d member => small d (List.mem_of_mem_drop member)⟩
  rw [fixedFormatRound, if_neg within, if_neg positive, Int.toNat_natCast]
  dsimp only
  rw [found]
  split
  · have one : digits[i] = 1 := by omega
    have added := number_increment front
    have bits := increment_small (by decide) front
    have same : (increment 2 (digits.take i)).1.length = (digits.take i).length :=
      length_increment _
    have zeros := increment_zeros front
    rw [length] at added same
    rw [one, added]
    cases carry : increment 2 (digits.take i) with
    | mk result carried =>
      rw [carry] at bits same zeros
      dsimp only at bits same zeros ⊢
      cases carried with
      | false =>
        refine ⟨result ++ 0 :: digits.drop (i + 1), false, rfl, ?_, ?_, ?_, nofun⟩
        · exact List.forall_mem_append.mpr ⟨bits, behind⟩
        · simp [same]
        · rw [Bool.toNat_false, Nat.add_zero, ← same, List.take_left]
          simp
      | true =>
        refine ⟨(1 :: result) ++ 0 :: digits.drop (i + 1), true, rfl, ?_, ?_, ?_, fun _ => ?_⟩
        · rw [List.forall_mem_append, List.forall_mem_cons]
          exact ⟨⟨by decide, bits⟩, behind⟩
        · simp [same]
        · have whole : (1 :: result).length = i + Bool.toNat true := by
            rw [List.length_cons, same, Bool.toNat_true]
          rw [← whole, List.take_left, number_cons, same, if_pos rfl]
          omega
        · rw [zeros rfl, if_pos rfl, Nat.zero_add]
  · refine ⟨digits, false, rfl, small, ?_, ?_, nofun⟩
    · rw [Bool.toNat_false]
      omega
    · have zero : digits[i] = 0 := by omega
      rw [zero, Bool.toNat_false, Nat.add_zero, Nat.add_zero]

/-- The fraction is what the first digits spell, without the bits above. -/
theorem fraction_eq (small : ∀ d ∈ digits, d < 2) {places : Nat} (inside : places ≤ digits.length) :
    ∑ i ∈ Finset.range 52, fractionBit digits (places - 1 - i) * 2 ^ i =
      number 2 (digits.take places) % 2 ^ 52 := by
  rw [← sum_digits]
  apply Finset.sum_congr rfl
  intro i _
  congr 1
  have front : ∀ d ∈ digits.take places, d < 2 :=
    fun d member => small d (List.mem_of_mem_take member)
  have length : (digits.take places).length = places := by
    rw [List.length_take, Nat.min_eq_left inside]
  rw [fractionBit, if_neg (by omega)]
  split
  · have bound := number_lt front
    rw [length] at bound
    have power : 2 ^ places ≤ 2 ^ i := Nat.pow_le_pow_right (by decide) (by omega)
    rw [Nat.div_eq_of_lt (Nat.lt_of_lt_of_le bound power)]
  · have place : ((places : Int) - 1 - i).toNat = places - 1 - i := by omega
    have before : places - 1 - i < digits.length := by omega
    have bit := getElem_eq front (places - 1 - i) (by omega)
    simp only [List.getElem_take, length] at bit
    rw [place, List.getD_eq_getElem?_getD, List.getElem?_eq_getElem before, Option.getD_some, bit]
    congr 3
    omega

/-- A double with a hidden bit. -/
theorem layout_normal {k : Int} (low : -1021 ≤ k) (high : k ≤ 1024) :
    layout k = ((k + 1022).toNat, 1) := by
  rw [layout, if_neg (by omega), if_pos (by omega)]
  congr 2
  omega

/-- A double without a hidden bit. -/
theorem layout_denormal {k : Int} (low : k ≤ -1022) : layout k = (0, k + 1022) := by
  rw [layout, if_neg (by omega), if_neg (by omega)]
  congr 1
  omega

/-- Above the largest exponent. -/
theorem layout_infinite {k : Int} (high : 1025 ≤ k) : layout k = (2047, -255) := by
  rw [layout, if_pos (by omega)]

/-- Places far in front of the digits are zero. -/
theorem fraction_none {start : Int} (before : start < -52) :
    ∑ i ∈ Finset.range 52, fractionBit digits (start + 52 - 1 - i) * 2 ^ i = 0 := by
  apply Finset.sum_eq_zero
  intro i _
  rw [fractionBit, if_neg (by omega), if_pos (by omega), Nat.zero_mul]

/-- The rounded digits, the exponent above them. -/
theorem ctxToDouble_eq (small : ∀ d ∈ digits, d < 2) {k : Int} (high : k ≤ 1024) {i : Nat}
    (inside : i < digits.length) (round : (layout k).2 + 52 = i)
    (normal : k ≤ -1022 ∨ 2 ^ 52 ≤ number 2 (digits.take i) + digits[i]) :
    ctxToDouble k digits =
      2 ^ 52 * (k + 1021).toNat + (number 2 (digits.take i) + digits[i]) := by
  obtain ⟨rounded, carried, rounds, bits, reach, sum, full⟩ := fixedFormatRound_spec small inside
  rw [← sum] at normal full ⊢
  have bound : number 2 (rounded.take (i + carried.toNat)) < 2 ^ (i + carried.toNat) := by
    have whole : number 2 (rounded.take (i + carried.toNat)) <
        2 ^ (rounded.take (i + carried.toNat)).length :=
      number_lt fun d member => bits d (List.mem_of_mem_take member)
    rwa [List.length_take, Nat.min_eq_left reach] at whole
  have fraction := fraction_eq bits reach
  rw [ctxToDouble]
  simp only [round, rounds]
  rcases le_or_gt k (-1022) with denormal | above
  · rw [layout_denormal denormal] at round
    dsimp only at round
    have none : (k + 1021).toNat = 0 := by omega
    rw [none, Nat.mul_zero, Nat.zero_add]
    cases carried with
    | false =>
      rw [Bool.toNat_false, Nat.add_zero] at fraction bound ⊢
      rw [if_neg Bool.false_ne_true, layout_denormal denormal]
      dsimp only
      have power : 2 ^ i ≤ 2 ^ 52 := Nat.pow_le_pow_right (by decide) (by omega)
      rw [round, fraction, Nat.mod_eq_of_lt (Nat.lt_of_lt_of_le bound power), Nat.zero_mul,
        Nat.zero_add]
    | true =>
      rw [if_pos rfl, full rfl]
      rw [full rfl, Bool.toNat_true] at fraction
      rcases lt_or_eq_of_le denormal with further | rfl
      · have next : k + 1 + 1022 + 52 = (i + 1 : ℕ) := by omega
        have power : 2 ^ i < 2 ^ 52 := Nat.pow_lt_pow_right (by decide) (by omega)
        rw [layout_denormal (by omega)]
        dsimp only
        rw [next, fraction, Nat.mod_eq_of_lt power, Nat.zero_mul, Nat.zero_add]
      · obtain rfl : i = 52 := by omega
        have next : (1 : Int) + 52 = (52 + 1 : ℕ) := rfl
        rw [layout_normal (by omega) (by omega)]
        dsimp only
        rw [next, fraction, Nat.mod_self]
        rfl
  · rw [layout_normal (by omega) high] at round
    obtain rfl : i = 53 := by
      dsimp only at round
      omega
    have large := normal.resolve_left (by omega)
    cases carried with
    | false =>
      rw [Bool.toNat_false, Nat.add_zero] at fraction bound large ⊢
      rw [if_neg Bool.false_ne_true, layout_normal (by omega) high]
      dsimp only
      rw [show (1 : Int) + 52 = (53 : ℕ) from rfl, fraction]
      omega
    | true =>
      rw [if_pos rfl, full rfl]
      rw [full rfl, Bool.toNat_true] at fraction
      rcases lt_or_eq_of_le high with further | rfl
      · have half : number 2 (rounded.take 53) = 2 ^ 52 := by
          have front : ∀ d ∈ rounded.take 54, d < 2 := fun d member =>
            bits d (List.mem_of_mem_take member)
          have whole : number 2 (rounded.take 54) = 2 ^ 53 := full rfl
          have length : (rounded.take 54).length = 54 := by
            rw [List.length_take]
            exact Nat.min_eq_left reach
          have taken := number_take front 53
          rw [List.take_take, length, whole] at taken
          exact taken
        rw [layout_normal (by omega) (by omega)]
        dsimp only
        rw [show (1 : Int) + 52 = (53 : ℕ) from rfl, fraction_eq bits (by omega), half]
        omega
      · rw [layout_infinite (by omega)]
        dsimp only
        rw [fraction_none (by omega)]
        rfl

/-- So many digits of the number are known to the last place. -/
structure Leads (number : ℚ) (k : Int) (digits : List Nat) : Prop where
  small : ∀ d ∈ digits, d < 2
  length : digits.length = 54
  low : Digits.number 2 digits * (2 : ℚ) ^ (k - 54) ≤ number
  high : number < (Digits.number 2 digits + 1) * (2 : ℚ) ^ (k - 54)
  below : number < 2 ^ k
  above : (2 ^ 52 - 1 / 4) * (2 : ℚ) ^ (k - 53) ≤ number

/-- Cutting digits off and rounding at the next. -/
theorem leads_round {exact : ℚ} {k : Int} (leads : Leads exact k digits) {i : Nat}
    (inside : i < digits.length) :
    ((number 2 (digits.take i) + digits[i] : ℕ) - 1 / 2) * (2 : ℚ) ^ (k - i) ≤ exact ∧
      exact < ((number 2 (digits.take i) + digits[i] : ℕ) + 1 / 2) * (2 : ℚ) ^ (k - i) := by
  have own := leads.small _ (List.getElem_mem inside)
  have further : number 2 (digits.take (i + 1)) = number 2 (digits.take i) * 2 + digits[i] := by
    rw [← number_concat, List.take_append_getElem]
  have quotient := number_take leads.small (i + 1)
  have length := leads.length
  obtain ⟨rest, split⟩ := Nat.exists_eq_add_of_le (show i + 1 ≤ 54 by omega)
  have places : digits.length - (i + 1) = rest := by omega
  rw [places, further] at quotient
  have parts := Nat.div_add_mod (number 2 digits) (2 ^ rest)
  have remainder := Nat.mod_lt (number 2 digits) (show 0 < 2 ^ rest by positivity)
  have unit : (0 : ℚ) < 2 ^ (k - 54) := by positivity
  have wide : (2 : ℚ) ^ (k - i) = 2 * 2 ^ rest * 2 ^ (k - 54) := by
    rw [← pow_succ', ← zpow_natCast, ← zpow_add₀ two_ne_zero]
    congr 1
    omega
  rw [← quotient] at parts
  have lower : ((number 2 (digits.take i) * 2 + digits[i] : ℕ) : ℚ) * 2 ^ rest ≤
      number 2 digits := by
    have : (number 2 (digits.take i) * 2 + digits[i]) * 2 ^ rest ≤ number 2 digits := by
      rw [Nat.mul_comm]
      omega
    exact_mod_cast this
  have upper : (number 2 digits : ℚ) + 1 ≤
      ((number 2 (digits.take i) * 2 + digits[i] : ℕ) + 1) * 2 ^ rest := by
    have : number 2 digits + 1 ≤ (number 2 (digits.take i) * 2 + digits[i] + 1) * 2 ^ rest := by
      rw [Nat.mul_comm, Nat.mul_add]
      omega
    exact_mod_cast this
  have bit : (digits[i] : ℚ) ≤ 1 := by exact_mod_cast (by omega : digits[i] ≤ 1)
  have none : (0 : ℚ) ≤ digits[i] := Nat.cast_nonneg _
  have positive : (0 : ℚ) < 2 ^ rest := by positivity
  push_cast at lower upper ⊢
  rw [wide]
  constructor
  · calc _ ≤ ((number 2 (digits.take i) : ℚ) * 2 + digits[i]) * 2 ^ rest * 2 ^ (k - 54) := by
          have := mul_nonneg (sub_nonneg.mpr bit) (mul_pos positive unit).le
          linarith
      _ ≤ number 2 digits * 2 ^ (k - 54) := mul_le_mul_of_nonneg_right lower unit.le
      _ ≤ exact := leads.low
  · calc exact < (number 2 digits + 1) * 2 ^ (k - 54) := leads.high
      _ ≤ ((number 2 (digits.take i) : ℚ) * 2 + digits[i] + 1) * 2 ^ rest * 2 ^ (k - 54) :=
          mul_le_mul_of_nonneg_right upper unit.le
      _ ≤ _ := by
          have := mul_nonneg none (mul_pos positive unit).le
          linarith

/-- Nothing is rounded in front of the digits. -/
theorem fixedFormatRound_before (digits : List Nat) {roundIdx : Int} (before : roundIdx < 0) :
    fixedFormatRound 2 digits roundIdx = (digits, false) := by
  rw [fixedFormatRound, if_neg (by omega), if_pos before]

/-- Far below the smallest double. -/
theorem ctxToDouble_tiny {exact : ℚ} {k : Int} (leads : Leads exact k digits) (tiny : k < -1074) :
    HalfUp 52 (-1074) infinity exact (ctxToDouble k digits) := by
  have zero : ctxToDouble k digits = 0 := by
    simp only [ctxToDouble, layout_denormal (show k ≤ -1022 by omega),
      fixedFormatRound_before digits (show k + 1022 + 52 < 0 by omega)]
    rw [if_neg Bool.false_ne_true, layout_denormal (show k ≤ -1022 by omega)]
    dsimp only
    rw [fraction_none (by omega), Nat.zero_mul]
  rw [zero, halfUp_iff (by decide)]
  refine ⟨fun m next => absurd next (Nat.succ_ne_zero m), ?_⟩
  have place : place 52 (-1074) 0 = -1074 := rfl
  have half : (2 : ℚ) ^ (-1074 : ℤ) = 2 ^ (-1075 : ℤ) * 2 := by
    rw [← zpow_add_one₀ two_ne_zero]
    rfl
  have least : (2 : ℚ) ^ k ≤ 2 ^ (-1075 : ℤ) := zpow_le_zpow_right₀ one_le_two (by omega)
  have below := leads.below
  rw [upper, value_zero, place, half]
  linarith

/-- Above the largest double. -/
theorem ctxToDouble_infinite {exact : ℚ} {k : Int} (leads : Leads exact k digits)
    (large : 1025 ≤ k) : HalfUp 52 (-1074) infinity exact (ctxToDouble k digits) := by
  have top : ctxToDouble k digits = infinity := by
    simp only [ctxToDouble, layout_infinite large,
      fixedFormatRound_before digits (show (-255 : Int) + 52 < 0 by decide)]
    rw [if_neg Bool.false_ne_true, layout_infinite large]
    dsimp only
    rw [fraction_none (by decide), Nat.add_zero]
  rw [top]
  apply HalfUp.of_between (Nat.le_refl _)
  · intro m next
    obtain rfl : m = 2 ^ 52 * 2045 + (2 ^ 53 - 1) := Nat.succ.inj next
    have last := value_grid 52 (-1074) 2045 (2 ^ 53 - 1) (.inr (by decide)) (by decide)
    have full := value_grid 52 (-1074) 2045 (2 ^ 53) (.inr (by decide)) (by decide)
    have same : 2 ^ 52 * 2045 + (2 ^ 53 - 1) + 1 = 2 ^ 52 * 2045 + 2 ^ 53 := rfl
    have finer : (2 : ℚ) ^ (972 : ℤ) = 2 * 2 ^ (971 : ℤ) := by
      rw [mul_comm, ← zpow_add_one₀ two_ne_zero]
      rfl
    have least : (2 : ℚ) ^ (972 : ℤ) ≤ 2 ^ (k - 53) := zpow_le_zpow_right₀ one_le_two (by omega)
    have above := leads.above
    have unit : (-1074 + (2045 : ℕ) : ℤ) = 971 := rfl
    have reached : (2 ^ 52 - 1 / 4 : ℚ) * (2 * 2 ^ (971 : ℤ)) ≤ exact := by
      rw [← finer]
      exact le_trans (mul_le_mul_of_nonneg_left least (by norm_num)) above
    rw [upper_eq, same, last, full, unit]
    generalize (2 : ℚ) ^ (971 : ℤ) = step at reached ⊢
    push_cast
    linarith
  · exact fun impossible => absurd impossible (Nat.lt_irrefl _)

/-- The binary digits are rounded to a double, halves going up. -/
theorem ctxToDouble_spec {exact : ℚ} {k : Int} (leads : Leads exact k digits) :
    HalfUp 52 (-1074) infinity exact (ctxToDouble k digits) := by
  have length := leads.length
  rcases lt_or_ge k (-1074) with tiny | large
  · exact ctxToDouble_tiny leads tiny
  rcases lt_or_ge 1024 k with infinite | finite
  · exact ctxToDouble_infinite leads infinite
  obtain ⟨i, round, within, exponent, least⟩ : ∃ i : Nat, (layout k).2 + 52 = i ∧ i < 54 ∧
      (-1074 + (k + 1021).toNat : ℤ) = k - i ∧ (k ≤ -1022 ∨ i = 53) := by
    rcases le_or_gt k (-1022) with denormal | normal
    · rw [layout_denormal denormal]
      refine ⟨(k + 1074).toNat, ?_, by omega, by omega, .inl denormal⟩
      dsimp only
      omega
    · rw [layout_normal (by omega) finite]
      exact ⟨53, rfl, by decide, by omega, .inr rfl⟩
  have inside : i < digits.length := by omega
  obtain ⟨low, high⟩ := leads_round leads inside
  have unit : (0 : ℚ) < 2 ^ (k - i) := by positivity
  have normal : k ≤ -1022 ∨ 2 ^ 52 ≤ number 2 (digits.take i) + digits[i] := by
    refine least.imp_right fun wide => ?_
    have above := leads.above
    rw [show k - 53 = k - i by omega] at above
    have compared := lt_of_mul_lt_mul_right (lt_of_le_of_lt above high) unit.le
    have close : (2 ^ 52 : ℚ) < (number 2 (digits.take i) + digits[i] : ℕ) + 1 := by linarith
    exact Nat.le_of_lt_succ (by exact_mod_cast close)
  have small : number 2 (digits.take i) + digits[i] ≤ 2 ^ 53 := by
    have bound : number 2 (digits.take i) < 2 ^ (digits.take i).length :=
      number_lt fun d member => leads.small d (List.mem_of_mem_take member)
    rw [List.length_take, Nat.min_eq_left inside.le] at bound
    have power : 2 ^ i ≤ 2 ^ 53 := Nat.pow_le_pow_right (by decide) (by omega)
    have own := leads.small _ (List.getElem_mem inside)
    omega
  rw [ctxToDouble_eq leads.small finite inside round normal]
  apply halfUp_grid
  · exact small
  · rw [exponent]
    rcases least with denormal | rfl
    · exact .inl (by omega)
    · exact .inr leads.above
  · rw [exponent]
    exact low
  · rw [exponent]
    exact high
  · have : (k + 1021).toNat ≤ 2045 := by omega
    dsimp only [infinity]
    omega

end Rounding

section Converting

/-- A counter of 32 bits holds what fits. -/
theorem int32_eq {n : Int} (low : -2 ^ 31 ≤ n) (high : n < 2 ^ 31) : int32 n = n :=
  Int.bmod_eq_of_le_mul_two (by omega) (by omega)

/-- The zeros behind the digits make up for the smaller exponent. -/
theorem pad_eq (missing f : Nat) {expt : Int} (low : -2 ^ 31 ≤ expt - missing)
    (high : expt < 2 ^ 31) : pad missing (f, expt) = (f * 10 ^ missing, expt - missing) := by
  induction missing generalizing f expt with
  | zero => simp [pad]
  | succ missing ih =>
    rw [pad, int32_eq (by omega) (by omega), ih (f * 10) (by omega) (by omega), Nat.mul_assoc,
      ← pow_succ']
    congr 1
    omega

/-- An unsigned integer is a double without rounding. -/
theorem value_ofUint32 {x : Nat} (small : x < 2 ^ 32) :
    value 52 (-1074) (ofUint32 x) = x ∧ ofUint32 x ≤ infinity := by
  rw [ofUint32]
  split
  · rename_i none
    rw [none, value_zero]
    exact ⟨Nat.cast_zero.symm, Nat.zero_le _⟩
  · rename_i some
    have least := Nat.log2_self_le some
    have most := Nat.lt_log2_self (n := x)
    have bits : x.log2 < 32 := (Nat.log2_lt some).mpr small
    have whole : 2 ^ x.log2 * 2 ^ (52 - x.log2) = 2 ^ 52 := by
      rw [← pow_add, Nat.add_sub_cancel' (by omega)]
    have normal : 2 ^ 52 ≤ x * 2 ^ (52 - x.log2) := by
      rw [← whole]
      exact Nat.mul_le_mul_right _ least
    have fits : x * 2 ^ (52 - x.log2) ≤ 2 ^ 53 := by
      calc x * 2 ^ (52 - x.log2) ≤ 2 ^ (x.log2 + 1) * 2 ^ (52 - x.log2) :=
            Nat.mul_le_mul_right _ most.le
        _ = 2 ^ 53 := by rw [pow_succ, Nat.mul_right_comm, whole, ← pow_succ]
    constructor
    · rw [Nat.mul_comm, value_grid 52 (-1074) _ _ (.inr normal) fits, Nat.cast_mul, Nat.cast_pow,
        mul_assoc, Nat.cast_ofNat, ← zpow_natCast, ← zpow_add₀ two_ne_zero]
      have none : ((52 - x.log2 : ℕ) : ℤ) + (-1074 + (x.log2 + 1022 : ℕ)) = 0 := by omega
      rw [none, zpow_zero, mul_one]
    · dsimp only [infinity]
      omega

/-- The power of ten next above the large powers of two. -/
theorem two_pow_le : (2 : ℚ) ^ 1023 ≤ 10 ^ 308 := by
  calc (2 : ℚ) ^ 1023 = (2 ^ 93) ^ 11 := pow_mul 2 93 11
    _ ≤ (10 ^ 28) ^ 11 := pow_le_pow_left₀ (by positivity) (by norm_num) 11
    _ = 10 ^ 308 := (pow_mul 10 28 11).symm

/-- Too large for a double. -/
theorem halfUp_large {exact : ℚ} (large : 10 ^ 311 ≤ exact) :
    HalfUp 52 (-1074) infinity exact infinity := by
  have full : value 52 (-1074) infinity = (2 ^ 53 : ℕ) * 2 ^ ((971 : ℕ) : ℤ) :=
    value_grid 52 (-1074) 2045 (2 ^ 53) (.inr (by decide)) (by decide)
  have power : (2 : ℚ) ^ 53 * 2 ^ 971 = 2 ^ 1023 * 2 := by rw [← pow_add, ← pow_succ]
  have split : (10 : ℚ) ^ 311 = 10 ^ 308 * 10 ^ 3 := pow_add 10 308 3
  have top : value 52 (-1074) infinity ≤ exact := by
    have bound := two_pow_le
    rw [full, zpow_natCast, Nat.cast_pow, Nat.cast_ofNat, power]
    rw [split] at large
    generalize (2 : ℚ) ^ 1023 = big at bound ⊢
    have positive : (0 : ℚ) < 10 ^ 308 := by positivity
    generalize (10 : ℚ) ^ 308 = huge at bound large positive
    linarith
  apply HalfUp.of_between (Nat.le_refl _)
  · rintro m next
    have rounded : HalfUp 52 (-1074) infinity (value 52 (-1074) infinity) infinity :=
      halfUp_value (Nat.le_refl infinity)
    exact le_trans ((rounded.2 m (by omega)).mp (by omega)) top
  · exact fun impossible => absurd impossible (Nat.lt_irrefl _)

/-- Too small for a double. -/
theorem halfUp_small {exact : ℚ} (small : exact < 10 ^ (-327 : ℤ)) :
    HalfUp 52 (-1074) infinity exact 0 := by
  rw [halfUp_iff (by decide)]
  refine ⟨fun m next => absurd next (Nat.succ_ne_zero m), lt_of_lt_of_le small ?_⟩
  have half : upper 52 (-1074) 0 = ((2 : ℚ) ^ 1075)⁻¹ := by
    have exponent : place 52 (-1074) 0 = -((1074 : ℕ) : ℤ) := rfl
    rw [upper, value_zero, exponent, zpow_neg, zpow_natCast, zero_add, div_eq_mul_inv, ← mul_inv,
      ← pow_succ]
  have small : (10 : ℚ) ^ (-327 : ℤ) = (10 ^ 327)⁻¹ := by
    rw [zpow_neg]
    exact congrArg Inv.inv (zpow_natCast 10 327)
  have first : (2 : ℚ) ^ 1075 = 2 ^ 1023 * 2 ^ 52 := pow_add 2 1023 52
  have second : (10 : ℚ) ^ 327 = 10 ^ 308 * 10 ^ 19 := pow_add 10 308 19
  rw [half, small]
  apply inv_anti₀ (pow_pos two_pos 1075)
  rw [first, second]
  exact mul_le_mul two_pow_le (by norm_num) (by positivity) (by positivity)

/-- A power is split at an exponent. -/
theorem zpow_split {b : ℚ} (nonzero : b ≠ 0) (k : ℤ) (places : ℕ) :
    b ^ k = b ^ (k - places) * b ^ places := by
  rw [← zpow_natCast, ← zpow_add₀ nonzero, Int.sub_add_cancel]

/-- The digit generation gives the binary digits of a number of 20 decimal digits. -/
theorem leads_of_scaled {f : Nat} {expt : Int} (digits : 10 ^ 19 ≤ f) {ctx : Context}
    (scaled : Scaled 2 (f * (10 : ℚ) ^ expt) ((10 : ℚ) ^ expt / 2) ((10 : ℚ) ^ expt / 2) ctx) :
    Leads (f * (10 : ℚ) ^ expt) ctx.k (generateFixed 2 (53 + 1) ctx) := by
  have step : (0 : ℚ) < 10 ^ expt := by positivity
  have reached := tooLow_eq_false.mp scaled.notTooLow
  have margin := scaled.margin
  have below : ctx.r < ctx.s := by omega
  have most := scaled.le_power (by decide)
  have least := scaled.power_le (by decide)
  obtain ⟨unit, positive, s, r, -, -⟩ := scaled.units (by decide)
  have whole : number 2 (generateFixed 2 (53 + 1) ctx) = ctx.r * 2 ^ (53 + 1) / ctx.s :=
    number_generateFixed below (53 + 1)
  have parts := Nat.div_add_mod (ctx.r * 2 ^ (53 + 1)) ctx.s
  have rest := Nat.mod_lt (ctx.r * 2 ^ (53 + 1)) scaled.positive
  rw [← whole] at parts
  push_cast at s most least
  have power : (2 : ℚ) ^ ctx.k = 2 ^ (ctx.k - 54) * 2 ^ 54 :=
    zpow_split two_ne_zero ctx.k 54
  refine ⟨generateFixed_small (by decide) below _, length_generateFixed _, ?_, ?_, ?_, ?_⟩
  · have bound : (ctx.s * number 2 (generateFixed 2 (53 + 1) ctx) : ℚ) ≤ ctx.r * 2 ^ 54 := by
      exact_mod_cast (by omega : ctx.s * number 2 (generateFixed 2 (53 + 1) ctx) ≤ ctx.r * 2 ^ 54)
    rw [s, r, power] at bound
    have bound : number 2 (generateFixed 2 (53 + 1) ctx) * 2 ^ (ctx.k - 54) * (2 ^ 54 * unit) ≤
        f * (10 : ℚ) ^ expt * (2 ^ 54 * unit) := by linarith
    exact le_of_mul_le_mul_right bound (by positivity)
  · have bound : (ctx.r * 2 ^ 54 : ℚ) < ctx.s * (number 2 (generateFixed 2 (53 + 1) ctx) + 1) := by
      have : ctx.r * 2 ^ 54 < ctx.s * (number 2 (generateFixed 2 (53 + 1) ctx) + 1) := by
        rw [Nat.mul_add]
        omega
      exact_mod_cast this
    rw [s, r, power] at bound
    have bound : f * (10 : ℚ) ^ expt * (2 ^ 54 * unit) <
        (number 2 (generateFixed 2 (53 + 1) ctx) + 1) * 2 ^ (ctx.k - 54) * (2 ^ 54 * unit) := by
      linarith
    exact lt_of_mul_lt_mul_right bound (by positivity)
  · linarith
  · have split : (2 : ℚ) ^ ctx.k = 2 ^ (ctx.k - 53) * 2 ^ 53 :=
      zpow_split two_ne_zero ctx.k 53
    have many : (10 ^ 19 : ℚ) ≤ f := by exact_mod_cast digits
    have scaledStep := mul_le_mul_of_nonneg_right many step.le
    rw [split] at most least
    linarith

/-- A scanned number is rounded to a double, halves going up. -/
theorem convert_spec {f digPrec : Nat} {expt : Int} (below : f < 10 ^ digPrec)
    (above : f = 0 ∨ 10 ^ (digPrec - 1) ≤ f) (limited : digPrec ≤ 20)
    (low : -2 ^ 31 + 20 ≤ expt) (high : expt < 2 ^ 31) :
    ∃ n, convert f digPrec expt = some n ∧
      HalfUp 52 (-1074) infinity (f * (10 : ℚ) ^ expt) n := by
  rw [convert]
  split
  · rename_i fast
    obtain ⟨exact, inside⟩ := value_ofUint32 fast.1
    refine ⟨_, rfl, ?_⟩
    rw [fast.2, zpow_zero, mul_one, ← exact]
    exact halfUp_value inside
  · rw [pad_eq (20 - digPrec) f (by omega) high]
    dsimp only
    have same : ((f * 10 ^ (20 - digPrec) : ℕ) : ℚ) * 10 ^ (expt - (20 - digPrec : ℕ)) =
        f * 10 ^ expt := by
      rw [zpow_split (by norm_num) expt (20 - digPrec), Nat.cast_mul, Nat.cast_pow, Nat.cast_ofNat]
      ring
    split
    · rename_i none
      refine ⟨_, rfl, ?_⟩
      rw [← same, none, Nat.cast_zero, zero_mul, ← value_zero 52 (-1074)]
      exact halfUp_value (Nat.zero_le _)
    · rename_i some
      have positive : f ≠ 0 := fun none => some (by rw [none, Nat.zero_mul])
      have some : digPrec ≠ 0 := by
        rintro rfl
        rw [pow_zero] at below
        omega
      have many : 10 ^ 19 ≤ f * 10 ^ (20 - digPrec) := by
        calc 10 ^ 19 = 10 ^ (digPrec - 1) * 10 ^ (20 - digPrec) := by
              rw [← pow_add]
              congr 1
              omega
          _ ≤ f * 10 ^ (20 - digPrec) := Nat.mul_le_mul_right _ (above.resolve_left positive)
      have few : f * 10 ^ (20 - digPrec) < 10 ^ 20 := by
        calc f * 10 ^ (20 - digPrec) < 10 ^ digPrec * 10 ^ (20 - digPrec) :=
              Nat.mul_lt_mul_of_pos_right below (by positivity)
          _ = 10 ^ 20 := by rw [← pow_add, Nat.add_sub_cancel' limited]
      rw [← same]
      generalize f * 10 ^ (20 - digPrec) = f at many few
      generalize expt - (20 - digPrec : ℕ) = expt
      have step : (0 : ℚ) < 10 ^ expt := by positivity
      split
      · rename_i large
        refine ⟨_, rfl, halfUp_large ?_⟩
        have least : (10 : ℚ) ^ ((292 : ℕ) : ℤ) ≤ 10 ^ expt :=
          zpow_le_zpow_right₀ (by norm_num) (by omega)
        have digits : (10 ^ 19 : ℚ) ≤ f := by exact_mod_cast many
        rw [zpow_natCast] at least
        calc (10 : ℚ) ^ 311 = 10 ^ 19 * 10 ^ 292 := pow_add 10 19 292
          _ ≤ f * 10 ^ expt := mul_le_mul digits least (by positivity) (by positivity)
      · split
        · rename_i small
          refine ⟨_, rfl, halfUp_small ?_⟩
          have most : (10 : ℚ) ^ expt ≤ 10 ^ (-347 : ℤ) :=
            zpow_le_zpow_right₀ (by norm_num) (by omega)
          have digits : (f : ℚ) < 10 ^ ((20 : ℕ) : ℤ) := by
            rw [zpow_natCast]
            exact_mod_cast few
          calc f * (10 : ℚ) ^ expt < 10 ^ ((20 : ℕ) : ℤ) * 10 ^ expt :=
                mul_lt_mul_of_pos_right digits step
            _ ≤ 10 ^ ((20 : ℕ) : ℤ) * 10 ^ (-347 : ℤ) :=
              mul_le_mul_of_nonneg_left most (by positivity)
            _ = 10 ^ (-327 : ℤ) := by
              rw [← zpow_add₀ (by norm_num)]
              rfl
        · have stands := standsFor_prepare (b := 10) 2 f expt true (by decide) nofun
          have start : (prepare true 10 f expt).k = 0 := by
            simp only [prepare]
            split <;> split <;> rfl
          obtain ⟨ctx, scales, scaled, -⟩ := scale_spec (by decide) stands start
          refine ⟨ctxToDouble ctx.k (generateFixed 2 (53 + 1) ctx),
            by rw [scales, Option.map_some], ?_⟩
          apply ctxToDouble_spec
          exact leads_of_scaled many (by simpa using scaled)

end Converting

section Digitwise

/-- The characters of the digits have their values and are no marks. -/
theorem digitValue_character : ∀ d < 10, digitValue (character d) = d ∧ character d ≠ 0x2e ∧
    character d ≠ 0 ∧ character d ≠ 0x65 ∧ character d ≠ 0x45 ∧ character d ≠ 0x2d ∧
      character d ≠ 0x2b := by decide

/-- A digit is taken in front of the exponent or for the exponent. -/
theorem scan_character {state : Scan} {d : Nat} (small : d < 10) (rest : List UInt8) :
    scan state (character d :: rest) =
      if state.digExpt < 0 then scan (mantissaDigit state d) rest
      else (exponentDigit state d).bind fun state => scan state rest := by
  obtain ⟨digit, point, zero, first, second, -⟩ := digitValue_character d small
  rw [scan.eq_def]
  dsimp only
  rw [if_neg point, if_neg zero, if_neg (by simp [first, second]), digit, if_neg (by omega)]
  split
  · rfl
  · cases exponentDigit state d <;> rfl

/-- What the significand leaves alone. -/
theorem significandDigit_others (state : Scan) (d : Nat) :
    (significandDigit state d).digWhole = state.digWhole ∧
      (significandDigit state d).digFrac = state.digFrac ∧
      (significandDigit state d).digExpt = state.digExpt ∧
      (significandDigit state d).expt = state.expt ∧
      (significandDigit state d).exptNeg = state.exptNeg := by
  rw [significandDigit]
  split
  · split
    · split <;> exact ⟨rfl, rfl, rfl, rfl, rfl⟩
    · exact ⟨rfl, rfl, rfl, rfl, rfl⟩
  · exact ⟨rfl, rfl, rfl, rfl, rfl⟩

/-- What the digits in front of the exponent leave alone. -/
theorem mantissaDigit_expt (state : Scan) (d : Nat) :
    (mantissaDigit state d).digExpt = state.digExpt ∧ (mantissaDigit state d).expt = state.expt ∧
      (mantissaDigit state d).exptNeg = state.exptNeg := by
  obtain ⟨-, -, same⟩ := significandDigit_others state d
  rw [mantissaDigit]
  split <;> exact same

/-- Digits in front of the exponent are taken one after the other. -/
theorem scan_digits {digits : List Nat} (small : ∀ d ∈ digits, d < 10) {state : Scan}
    (before : state.digExpt < 0) (rest : List UInt8) :
    scan state (digits.map character ++ rest) = scan (digits.foldl mantissaDigit state) rest := by
  induction digits generalizing state with
  | nil => rfl
  | cons d more ih =>
    rw [List.forall_mem_cons] at small
    rw [List.map_cons, List.cons_append, scan_character small.1, if_pos before, ih small.2,
      List.foldl_cons]
    rwa [(mantissaDigit_expt state d).1]

/-- What the scan knows of the digits in front of the exponent. -/
structure Tracks (whole fraction : List Nat) (point : Bool) (state : Scan) : Prop where
  f : state.f = number 10 ((significant (whole ++ fraction)).take 20)
  digPrec : state.digPrec = min (significant (whole ++ fraction)).length 20
  exptAdj : state.exptAdj =
    ((significant (whole ++ fraction)).length - 20 : ℕ) - (fraction.length : ℤ)
  digLzero : state.digLzero + (significant whole).length = whole.length
  digWhole : state.digWhole = whole.length
  digFrac : state.digFrac = if point then (fraction.length : ℤ) else -1
  pointed : point = false → fraction = []
  digExpt : state.digExpt = -1
  expt : state.expt = 0
  exptNeg : state.exptNeg = false

variable {whole fraction : List Nat} {point : Bool} {state : Scan}

/-- The significand is zero before the first significant digit. -/
theorem Tracks.zero_iff (tracks : Tracks whole fraction point state) :
    state.f = 0 ↔ significant (whole ++ fraction) = [] := by
  rw [tracks.f]
  constructor
  · intro zero
    by_contra some
    have positive := number_significant_positive some (show 0 < 20 by decide)
    have power : 0 < 10 ^ (min (significant (whole ++ fraction)).length 20 - 1) := by positivity
    omega
  · intro none
    rw [none]
    rfl

/-- Nothing is counted before the first digit. -/
theorem tracks_start : Tracks [] [] false start :=
  ⟨rfl, rfl, rfl, rfl, rfl, rfl, fun _ => rfl, rfl, rfl, rfl⟩

/-- No more digits are significant than there are. -/
theorem length_significant (digits : List Nat) : (significant digits).length ≤ digits.length :=
  (List.dropWhile_sublist _).length_le

/-- How a digit changes what is counted, where the counters have room. -/
theorem significandDigit_spec {state : Scan} {digits : List Nat} (d : Nat)
    (low : -2 ^ 31 ≤ state.exptAdj) (high : state.exptAdj + 1 < 2 ^ 31)
    (some : 0 ≤ state.digLzero) (room : state.digLzero + 1 < 2 ^ 31)
    (f : state.f = number 10 ((significant digits).take 20))
    (digPrec : state.digPrec = min (significant digits).length 20)
    (zero : state.f = 0 ↔ significant digits = []) :
    (significandDigit state d).f = number 10 ((significant (digits ++ [d])).take 20) ∧
      (significandDigit state d).digPrec = min (significant (digits ++ [d])).length 20 ∧
      (significandDigit state d).exptAdj + ((significant digits).length - 20 : ℕ) =
        state.exptAdj + ((significant (digits ++ [d])).length - 20 : ℕ) ∧
      (state.digFrac < 0 → (significandDigit state d).digLzero +
        (significant (digits ++ [d])).length = state.digLzero + (significant digits).length + 1) ∧
      (0 ≤ state.digFrac → (significandDigit state d).digLzero = state.digLzero) := by
  rw [significandDigit, int32_eq (by omega) high, int32_eq (by omega) room]
  by_cases within : state.digPrec < 20
  · have short : (significant digits).length < 20 := by omega
    by_cases none : state.f = 0 ∧ d = 0
    · obtain ⟨empty, rfl⟩ := none
      have before := zero.mp empty
      have behind := significant_concat_zero before
      rw [if_pos within, if_pos ⟨empty, rfl⟩]
      rw [before] at f digPrec
      rw [before, behind]
      split
      · rename_i whole
        exact ⟨f, digPrec, rfl, fun _ => by dsimp only; omega, fun frac => by omega⟩
      · rename_i frac
        exact ⟨f, digPrec, rfl, fun whole => absurd whole frac, fun _ => rfl⟩
    · have counts : significant digits ≠ [] ∨ d ≠ 0 := by
        rw [ne_eq, ← zero]
        omega
      have further := significant_concat counts
      rw [if_pos within, if_neg none, further, List.length_append, List.length_singleton]
      dsimp only
      refine ⟨?_, by omega, by omega, fun _ => by omega, fun _ => rfl⟩
      rw [List.take_of_length_le (by rw [List.length_append, List.length_singleton]; omega),
        number_concat, f,
        List.take_of_length_le short.le]
  · have long : 20 ≤ (significant digits).length := by omega
    have some : significant digits ≠ [] := by
      intro none
      rw [none] at long
      exact absurd long (by decide)
    have further := significant_concat (.inl some : significant digits ≠ [] ∨ d ≠ 0)
    rw [if_neg within, further, List.length_append, List.length_singleton,
      List.take_append_of_le_length long]
    dsimp only
    exact ⟨f, by omega, by omega, fun _ => by omega, fun _ => rfl⟩

/-- A digit of the whole part. -/
theorem tracks_whole (tracks : Tracks whole [] false state) (few : whole.length + 1 < 2 ^ 31)
    (d : Nat) :
    Tracks (whole ++ [d]) [] false (mantissaDigit state d) := by
  have zero := tracks.zero_iff
  have digFrac : state.digFrac = -1 := tracks.digFrac
  obtain ⟨f, digPrec, exptAdj, digLzero, digWhole, -, -, digExpt, expt, exptNeg⟩ := tracks
  obtain ⟨sameWhole, sameFrac, sameExpt, sameValue, sameSign⟩ := significandDigit_others state d
  rw [List.append_nil] at f digPrec exptAdj zero
  rw [List.length_nil] at exptAdj
  have fewer := length_significant whole
  obtain ⟨newF, newPrec, newAdj, newLzero, -⟩ := significandDigit_spec d (by omega) (by omega)
    (by omega) (by omega) f digPrec zero
  have one := newLzero (by omega)
  rw [mantissaDigit, if_neg (by omega), int32_eq (by omega) (by omega)]
  constructor <;> try dsimp only
  · rw [List.append_nil, newF]
  · rw [List.append_nil, newPrec]
  · rw [List.append_nil, List.length_nil]
    omega
  · rw [List.length_append, List.length_singleton]
    omega
  · rw [List.length_append, List.length_singleton]
    omega
  · rw [sameFrac, digFrac, if_neg Bool.false_ne_true]
  · exact fun _ => rfl
  · omega
  · omega
  · rw [sameSign, exptNeg]

/-- A digit of the fraction. -/
theorem tracks_fraction (tracks : Tracks whole fraction true state)
    (few : (whole ++ fraction).length + 1 < 2 ^ 31) (d : Nat) :
    Tracks whole (fraction ++ [d]) true (mantissaDigit state d) := by
  have zero := tracks.zero_iff
  have digFrac : state.digFrac = fraction.length := tracks.digFrac
  obtain ⟨f, digPrec, exptAdj, digLzero, digWhole, -, -, digExpt, expt, exptNeg⟩ := tracks
  obtain ⟨sameWhole, sameFrac, sameExpt, sameValue, sameSign⟩ := significandDigit_others state d
  have fewer := length_significant (whole ++ fraction)
  have fewerWhole := length_significant whole
  rw [List.length_append] at few fewer
  obtain ⟨newF, newPrec, newAdj, -, newLzero⟩ := significandDigit_spec d (by omega) (by omega)
    (by omega) (by omega) f digPrec zero
  have same := newLzero (by omega)
  have longer := length_significant (whole ++ fraction ++ [d])
  rw [List.length_append, List.length_append, List.length_singleton] at longer
  rw [mantissaDigit, if_pos (by omega), int32_eq (by omega) (by omega),
    int32_eq (by omega) (by omega)]
  rw [List.append_assoc] at newF newPrec newAdj
  constructor <;> try dsimp only
  · exact newF
  · exact newPrec
  · have longer : (fraction ++ [d]).length = fraction.length + 1 := by
      rw [List.length_append, List.length_singleton]
    rw [longer]
    omega
  · omega
  · omega
  · rw [sameFrac, digFrac, if_pos rfl, List.length_append, List.length_singleton]
    rfl
  · exact nofun
  · omega
  · omega
  · rw [sameSign, exptNeg]

/-- The digits of the whole part, one after the other. -/
theorem tracks_foldl_whole (digits : List Nat) (few : digits.length < 2 ^ 31) :
    Tracks digits [] false (digits.foldl mantissaDigit start) := by
  induction digits using List.reverseRecOn with
  | nil => exact tracks_start
  | append_singleton digits d ih =>
    rw [List.length_append, List.length_singleton] at few
    rw [List.foldl_append]
    exact tracks_whole (ih (by omega)) few d

/-- The digits of the fraction, one after the other. -/
theorem tracks_foldl_fraction (tracks : Tracks whole [] true state) (digits : List Nat)
    (few : (whole ++ digits).length < 2 ^ 31) :
    Tracks whole digits true (digits.foldl mantissaDigit state) := by
  induction digits using List.reverseRecOn with
  | nil => exact tracks
  | append_singleton digits d ih =>
    rw [← List.append_assoc, List.length_append, List.length_singleton] at few
    rw [List.foldl_append]
    exact tracks_fraction (ih (by omega)) few d

/-- The point begins the fraction. -/
theorem scan_point (none : state.digFrac < 0) (before : state.digExpt < 0) (rest : List UInt8) :
    scan state (0x2e :: rest) = scan { state with digFrac := 0 } rest := by
  rw [scan.eq_def]
  dsimp only
  rw [if_pos rfl, if_neg (by omega)]

/-- The point changes nothing that is counted before it. -/
theorem tracks_point (tracks : Tracks whole [] false state) :
    Tracks whole [] true { state with digFrac := 0 } := by
  obtain ⟨f, digPrec, exptAdj, digLzero, digWhole, -, -, digExpt, expt, exptNeg⟩ := tracks
  exact ⟨f, digPrec, exptAdj, digLzero, digWhole, rfl, nofun, digExpt, expt, exptNeg⟩

/-- The digits of an exponent that is not too large. -/
theorem scan_exponent {digits : List Nat} (small : ∀ d ∈ digits, d < 10) {state : Scan}
    (behind : 0 ≤ state.digExpt) (few : state.digExpt + digits.length < 2 ^ 31)
    {done : List Nat} (value : state.expt = number 10 done)
    (bounded : number 10 (done ++ digits) ≤ 1000000000) :
    scan state (digits.map character) = some { state with
      expt := number 10 (done ++ digits), digExpt := state.digExpt + digits.length } := by
  induction digits generalizing state done with
  | nil =>
    rw [List.append_nil, ← value, List.length_nil]
    simp [scan]
  | cons d more ih =>
    rw [List.forall_mem_cons] at small
    have split : done ++ d :: more = (done ++ [d]) ++ more := by simp
    have next : number 10 (done ++ [d]) = number 10 done * 10 + d := number_concat done d
    have part : number 10 (done ++ [d]) ≤ 1000000000 := by
      refine le_trans ?_ bounded
      rw [split, number_append (done ++ [d])]
      exact le_trans (Nat.le_mul_of_pos_right _ (by positivity)) (Nat.le_add_right _ _)
    have fits : int32 (state.expt * 10 + d) = number 10 (done ++ [d]) := by
      rw [int32_eq (by omega) (by omega)]
      omega
    rw [List.length_cons] at few
    rw [List.map_cons, scan_character small.1, if_neg (by omega), exponentDigit]
    simp only [fits]
    rw [if_neg (by omega), Option.bind_some, int32_eq (by omega) (by omega),
      ih small.2 (by dsimp only; omega) (by dsimp only; omega) rfl (by rwa [← split]), ← split,
      List.length_cons]
    congr 2
    dsimp only
    omega

/-- The state behind a numeral. -/
structure Scanned (numeral : Numeral) (state : Scan) : Prop where
  f : state.f = number 10 ((significant (numeral.whole ++ numeral.fraction)).take 20)
  digPrec : state.digPrec = min (significant (numeral.whole ++ numeral.fraction)).length 20
  net : netExponent state = exponentValue numeral.exponent - numeral.fraction.length +
      ((significant (numeral.whole ++ numeral.fraction)).length - 20 : ℕ)
  complete : complete state = true

/-- The mark of an exponent, with its sign. -/
theorem scan_mark {mark : UInt8} (marks : mark = 0x65 ∨ mark = 0x45) (before : state.digExpt < 0)
    {digits : List Nat} (small : ∀ d ∈ digits, d < 10) :
    scan state (mark :: 0x2d :: digits.map character) =
        scan { state with exptNeg := true, digExpt := 0 } (digits.map character) ∧
      scan state (mark :: 0x2b :: digits.map character) =
        scan { state with digExpt := 0 } (digits.map character) ∧
      scan state (mark :: digits.map character) =
        scan { state with digExpt := 0 } (digits.map character) := by
  have other : mark ≠ 0x2e ∧ mark ≠ 0 := by
    rcases marks with rfl | rfl <;> decide
  refine ⟨?_, ?_, ?_⟩
  · rw [scan.eq_def]
    dsimp only
    rw [if_neg other.1, if_neg other.2, if_pos ⟨before, marks⟩]
    rfl
  · rw [scan.eq_def]
    dsimp only
    rw [if_neg other.1, if_neg other.2, if_pos ⟨before, marks⟩]
    rfl
  · rw [scan.eq_def]
    dsimp only
    rw [if_neg other.1, if_neg other.2, if_pos ⟨before, marks⟩]
    cases digits with
    | nil => rfl
    | cons d more =>
      obtain ⟨-, -, -, -, -, minus, plus⟩ := digitValue_character d (small d List.mem_cons_self)
      rw [List.map_cons]
      split
      · rename_i same
        exact absurd (List.cons.inj same).1 minus
      · rename_i same
        exact absurd (List.cons.inj same).1 plus
      · rfl

/-- Digits without zeros in front, on both sides of the point, pass the checks. -/
theorem complete_of_tracks (numeral : Numeral) (state : Scan)
    (digLzero : state.digLzero + (significant numeral.whole).length = numeral.whole.length)
    (digWhole : state.digWhole = numeral.whole.length) (digFrac : state.digFrac ≠ 0)
    (digExpt : state.digExpt ≠ 0) : complete state = true := by
  have some : 0 < numeral.whole.length := List.length_pos_of_ne_nil numeral.nonempty
  have settled : ¬(0 < state.digLzero ∧ 1 < state.digWhole) := by
    rintro ⟨zeros, more⟩
    obtain ⟨d, rest, shape⟩ := List.exists_cons_of_ne_nil numeral.nonempty
    cases d with
    | zero =>
      have none := numeral.settled rest shape
      rw [digWhole, shape, none] at more
      exact absurd more (by decide)
    | succ d =>
      have all : significant numeral.whole = numeral.whole := by
        rw [shape]
        rfl
      rw [all] at digLzero
      omega
  have positive : state.digWhole ≠ 0 := by omega
  simp [complete, positive, digFrac, digExpt]
  omega

/-- Behind the mark and the sign of an exponent. -/
theorem scan_marked {numeral : Numeral}
    (tracks : Tracks numeral.whole numeral.fraction point state) (nonzero : state.digFrac ≠ 0)
    {sign exptNeg : Bool} {digits : List Nat} (shown : numeral.exponent = some (sign, digits))
    (bounded : size (some (sign, digits)) ≤ 1000000000)
    (few : numeral.whole.length + numeral.fraction.length + digits.length ≤ 1000000000)
    (same : exptNeg = sign) :
    ∃ final, scan { state with exptNeg, digExpt := 0 } (digits.map character) = some final ∧
      Scanned numeral final := by
  obtain ⟨some, small⟩ := numeral.places _ _ shown
  have length := List.length_pos_of_ne_nil some
  have adjusted := tracks.exptAdj
  have fewer := length_significant (numeral.whole ++ numeral.fraction)
  rw [List.length_append] at fewer
  rw [@scan_exponent digits small { state with exptNeg, digExpt := 0 } (Int.le_refl 0)
    (by dsimp only; omega) [] tracks.expt bounded]
  rw [size] at bounded
  refine ⟨_, rfl, tracks.f, tracks.digPrec, ?_, ?_⟩
  · rw [netExponent]
    dsimp only
    rw [same, shown, List.nil_append, int32_eq (n := -(number 10 digits : ℤ)) (by omega) (by omega)]
    cases sign
    · rw [if_neg Bool.false_ne_true, exponentValue, int32_eq (by omega) (by omega)]
      omega
    · rw [if_pos rfl, exponentValue, int32_eq (by omega) (by omega)]
      omega
  · apply complete_of_tracks numeral
    · exact tracks.digLzero
    · exact tracks.digWhole
    · exact nonzero
    · dsimp only
      omega

/-- The scan of a text that spells a numeral. -/
theorem scan_spells (numeral : Numeral) {tail : List UInt8}
    (exponent : ExponentText numeral.exponent tail)
    (bounded : size numeral.exponent ≤ 1000000000)
    (few : numeral.whole.length + numeral.fraction.length + exponentLength numeral.exponent ≤
      1000000000) :
    ∃ state, scan start (numeral.whole.map character ++ (fractionText numeral.fraction ++ tail)) =
      some state ∧ Scanned numeral state := by
  have wholeDigits : ∀ d ∈ numeral.whole, d < 10 := fun d member =>
    numeral.decimal d (List.mem_append_left _ member)
  have fractionDigits : ∀ d ∈ numeral.fraction, d < 10 := fun d member =>
    numeral.decimal d (List.mem_append_right _ member)
  obtain ⟨state, point, reached, tracks, nonzero⟩ : ∃ state point,
      scan start (numeral.whole.map character ++ (fractionText numeral.fraction ++ tail)) =
        scan state tail ∧ Tracks numeral.whole numeral.fraction point state ∧
      state.digFrac ≠ 0 := by
    have whole := tracks_foldl_whole numeral.whole (by omega)
    rw [scan_digits wholeDigits (by decide), fractionText]
    split
    · rename_i none
      rw [none]
      refine ⟨_, false, rfl, whole, ?_⟩
      rw [whole.digFrac]
      decide
    · rename_i some
      have pointed := tracks_foldl_fraction (tracks_point whole) numeral.fraction
        (by rw [List.length_append]; omega)
      rw [List.cons_append,
        scan_point (by rw [whole.digFrac]; decide) (by rw [whole.digExpt]; decide),
        scan_digits fractionDigits (by dsimp only; rw [whole.digExpt]; decide)]
      refine ⟨_, true, rfl, pointed, ?_⟩
      have := List.length_pos_of_ne_nil some
      rw [pointed.digFrac, if_pos rfl]
      omega
  rw [reached]
  have before : state.digExpt < 0 := by
    rw [tracks.digExpt]
    decide
  have adjusted := tracks.exptAdj
  have fewer := length_significant (numeral.whole ++ numeral.fraction)
  rw [List.length_append] at fewer
  generalize shown : numeral.exponent = marked at exponent bounded few
  cases exponent with
  | none =>
    refine ⟨state, by rw [scan], tracks.f, tracks.digPrec, ?_, ?_⟩
    · rw [netExponent, tracks.exptNeg, if_neg Bool.false_ne_true, tracks.expt, shown,
        exponentValue]
      rw [int32_eq (by omega) (by omega)]
      omega
    · exact complete_of_tracks numeral state tracks.digLzero tracks.digWhole nonzero before.ne
  | plain digits marks =>
    obtain ⟨-, -, marked⟩ := scan_mark marks before (numeral.places _ _ shown).2
    rw [marked]
    exact scan_marked tracks nonzero shown bounded few tracks.exptNeg
  | plus digits marks =>
    obtain ⟨-, marked, -⟩ := scan_mark marks before (numeral.places _ _ shown).2
    rw [marked]
    exact scan_marked tracks nonzero shown bounded few tracks.exptNeg
  | minus digits marks =>
    obtain ⟨marked, -, -⟩ := scan_mark marks before (numeral.places _ _ shown).2
    rw [marked]
    exact scan_marked tracks nonzero shown bounded few rfl

end Digitwise

/-- A text of at most 10^9 bytes that spells a numeral is read. The result is the numeral with its first
20 significant digits, rounded to a double, halves going up. -/
theorem reads_numeral (numeral : Numeral) {text : List UInt8} (spelled : Spells numeral text)
    (bounded : size numeral.exponent ≤ 1000000000) (short : text.length ≤ 1000000000) :
    ∃ n, numconvParse text = some ⟨numeral.negative, n⟩ ∧
      HalfUp 52 (-1074) infinity (numeral.absolute 20) n := by
  have few := le_trans spelled.count short
  obtain ⟨tail, exponent, rfl⟩ := spelled
  obtain ⟨state, scans, scanned⟩ := scan_spells numeral exponent bounded few
  have small : ∀ d ∈ (significant (numeral.whole ++ numeral.fraction)).take 20, d < 10 := by
    intro d member
    exact numeral.decimal d (List.dropWhile_subset _ (List.mem_of_mem_take member))
  have below : state.f < 10 ^ state.digPrec := by
    have bound := number_lt small
    rwa [List.length_take, Nat.min_comm, ← scanned.digPrec, ← scanned.f] at bound
  have above : state.f = 0 ∨ 10 ^ (state.digPrec - 1) ≤ state.f := by
    rw [scanned.f, scanned.digPrec]
    by_cases none : significant (numeral.whole ++ numeral.fraction) = []
    · left
      rw [none]
      rfl
    · exact .inr (number_significant_positive none (by decide))
  have limited : state.digPrec ≤ 20 := by
    rw [scanned.digPrec]
    exact Nat.min_le_right _ _
  have net := scanned.net
  have sized := exponentValue_bounds numeral.exponent
  have fewer := length_significant (numeral.whole ++ numeral.fraction)
  rw [List.length_append] at fewer
  obtain ⟨n, converts, rounded⟩ : ∃ n, convert state.f state.digPrec (netExponent state) = some n ∧
      HalfUp 52 (-1074) infinity (state.f * (10 : ℚ) ^ netExponent state) n :=
    convert_spec below above limited (by omega) (by omega)
  have same : (state.f : ℚ) * 10 ^ netExponent state = numeral.absolute 20 := by
    rw [scanned.net, scanned.f, Numeral.absolute, leading, zpow_add₀ (by norm_num), zpow_natCast]
    push_cast
    ring
  have shape : leadingSign (signText numeral.negative ++ (numeral.whole.map character ++
      (fractionText numeral.fraction ++ tail))) = (numeral.negative,
      numeral.whole.map character ++ (fractionText numeral.fraction ++ tail)) := by
    cases numeral.negative with
    | true => rfl
    | false =>
      obtain ⟨d, rest, whole⟩ := List.exists_cons_of_ne_nil numeral.nonempty
      have small : d < 10 := numeral.decimal d (by simp [whole])
      obtain ⟨-, -, -, -, -, minus, -⟩ := digitValue_character d small
      rw [whole, List.map_cons, signText, if_neg Bool.false_ne_true, List.nil_append,
        List.cons_append, leadingSign.eq_2]
      exact fun rest same => minus (List.cons.inj same).1
  refine ⟨n, ?_, same ▸ rounded⟩
  rw [numconvParse, shape]
  dsimp only
  rw [scans, Option.bind_some, if_pos scanned.complete, converts, Option.map_some]

/-- A text of at most 10^9 bytes that spells a numeral is read as the double nearest to what its first 20
significant digits say, halves going up. That is the numeral itself where it has no
more digits, and else less than it by at most one part in 10^19. -/
theorem numeral_rounded (numeral : Numeral) {text : List UInt8} (spelled : Spells numeral text)
    (bounded : size numeral.exponent ≤ 1000000000) (short : text.length ≤ 1000000000) :
    ∃ n, numconvParse text = some ⟨numeral.negative, n⟩ ∧
      HalfUp 52 (-1074) infinity (numeral.absolute 20) n ∧
      ((significant (numeral.whole ++ numeral.fraction)).length ≤ 20 →
        numeral.absolute 20 = numeral.value) ∧
      numeral.absolute 20 ≤ numeral.value ∧
      numeral.value ≤ numeral.absolute 20 * (1 + 1 / 10 ^ 19) := by
  obtain ⟨n, reads, rounded⟩ := reads_numeral numeral spelled bounded short
  obtain ⟨below, above⟩ := numeral.absolute_bounds (show 0 < 20 by decide)
  refine ⟨n, reads, rounded, Numeral.absolute_of_short, below, ?_⟩
  norm_num at above ⊢
  linarith

/-- The text `0.5`. -/
theorem numeral_rounded_witness : ∃ n, numconvParse [0x30, 0x2e, 0x35] = some ⟨false, n⟩ ∧
    HalfUp 52 (-1074) infinity (1 / 2) n := by
  let numeral : Numeral := ⟨false, [0], [5], none, by decide, by decide, by simp, nofun⟩
  have spelled : Spells numeral [0x30, 0x2e, 0x35] := ⟨[], .none, by decide⟩
  obtain ⟨n, reads, rounded, exact, -⟩ := numeral_rounded numeral spelled (by decide)
    (by decide)
  have half : numeral.value = 1 / 2 := by
    norm_num [Numeral.value, numeral, Digits.number, Nat.ofDigits_cons, exponentValue]
  rw [exact (by decide), half] at rounded
  exact ⟨n, reads, rounded⟩

end Hadouken.NumberParsing
