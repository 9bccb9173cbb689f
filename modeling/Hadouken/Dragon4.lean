import Hadouken.Library.Digits
import Hadouken.Library.Loops
import Mathlib.Algebra.Order.Field.Power
import Mathlib.Algebra.Order.Field.Rat
import Mathlib.Tactic.FieldSimp
import Mathlib.Tactic.Linarith
import Mathlib.Tactic.Positivity
import Mathlib.Tactic.Ring

/-!
# Digit generation

Numbers are printed and read with the algorithm of Steele and White in the variant
of Burger and Dybvig. A number and half of the gaps to its neighbours are kept as
fractions with one denominator. The fractions are scaled until the number is just
below one, which gives the place of the first digit, and then digit after digit is
taken out. In the free format this ends with the first digits that are within the
gaps; in the fixed format, after so many digits.

Big integers are natural numbers.
-/

namespace Hadouken.Dragon4

open Digits Loops

/-- `duk__numconv_stringify_ctx`. `low_ok` and `high_ok` are always the same. -/
structure Context where
  r : Nat
  s : Nat
  mp : Nat
  mm : Nat
  k : Int
  ok : Bool
  unequalGaps : Bool
deriving DecidableEq

/-- `duk__dragon4_prepare`, for the number `f` times `b` to the power `e`. -/
def prepare (isS2n : Bool) (b f : Nat) (e : Int) : Context :=
  let ok := f % 2 == 0
  let lowestMantissa := !isS2n && f == 2 ^ 52
  if 0 ≤ e then
    if lowestMantissa then
      let mm := b ^ e.toNat
      let mp := mm * b
      { r := f * 2 * mp, s := b * 2, mp, mm, k := 0, ok, unequalGaps := true }
    else
      let mm := b ^ e.toNat
      { r := f * 2 * mm, s := 2, mp := mm, mm, k := 0, ok, unequalGaps := false }
  else if -1022 < e ∧ lowestMantissa = true then
    { r := f * (b * 2), s := b ^ (1 - e).toNat * 2, mp := 2, mm := 1, k := 0, ok,
      unequalGaps := true }
  else
    { r := f * 2, s := b ^ (-e).toNat * 2, mp := 1, mm := 1, k := 0, ok, unequalGaps := false }

section Scale

/-- The upper end of the gap is not below the scale: `k` is too low. -/
def tooLow (ctx : Context) : Bool :=
  if ctx.ok then ctx.s ≤ ctx.r + ctx.mp else ctx.s < ctx.r + ctx.mp

/-- Even a place down the upper end is below the scale: `k` is too high. -/
def tooHigh (base : Nat) (ctx : Context) : Bool :=
  if ctx.ok then (ctx.r + ctx.mp) * base < ctx.s else (ctx.r + ctx.mp) * base ≤ ctx.s

/-- One place up. -/
def raise (base : Nat) (ctx : Context) : Context :=
  { ctx with s := ctx.s * base, k := ctx.k + 1 }

/-- One place down. An equal gap below is not scaled, and is filled in at the end. -/
def lower (base : Nat) (ctx : Context) : Context :=
  { ctx with
    r := ctx.r * base
    mp := ctx.mp * base
    mm := if ctx.unequalGaps then ctx.mm * base else ctx.mm
    k := ctx.k - 1 }

/-- `duk__dragon4_scale`. `k` moves in one direction only. -/
def scale (base : Nat) (ctx : Context) : Option Context :=
  let rounds := ctx.r + ctx.mp + ctx.s + 1
  (loop tooLow (raise base) rounds ctx).bind fun raised =>
    (if 0 < raised.k then some raised else loop (tooHigh base) (lower base) rounds raised).map
      fun scaled => if scaled.unequalGaps then scaled else { scaled with mm := scaled.mp }

end Scale

section Generate

/-- The digit that is taken out of the number, and what remains. The quotient is
found by subtraction. -/
def digit (base : Nat) (ctx : Context) : Nat := ctx.r * base / ctx.s

/-- What remains behind the digit, one place down. -/
def remaining (base : Nat) (ctx : Context) : Context :=
  { ctx with r := ctx.r * base % ctx.s, mp := ctx.mp * base, mm := ctx.mm * base }

/-- What remains is within the gap below. -/
def tc1 (ctx : Context) : Bool := if ctx.ok then ctx.r ≤ ctx.mm else ctx.r < ctx.mm

/-- The address of `high_ok` is tested in place of its value, so that the middle to
the next number always counts as within the gap. -/
def tc2 (ctx : Context) : Bool := ctx.s ≤ ctx.r + ctx.mp

/-- `duk__dragon4_generate` in the free format, with room for so many digits. -/
def generate (base : Nat) : Nat → Context → Option (List Nat)
  | 0, _ => none
  | room + 1, ctx =>
      let d := digit base ctx
      let next := remaining base ctx
      match tc1 next, tc2 next with
      | true, true => some [if next.r * 2 < next.s then d else d + 1]
      | true, false => some [d]
      | false, true => some [d + 1]
      | false, false => (generate base room next).map (d :: ·)

/-- In the fixed format, with a number of digits. -/
def generateFixed (base : Nat) : Nat → Context → List Nat
  | 0, _ => []
  | required + 1, ctx => digit base ctx :: generateFixed base required (remaining base ctx)

end Generate

section Scaling

variable {base : Nat} {number above below : ℚ} {ctx : Context}

/-- What scaling keeps: the number and the gaps that the context stands for. -/
structure StandsFor (base : Nat) (number above below : ℚ) (ctx : Context) : Prop where
  positive : 0 < ctx.s
  margin : 0 < ctx.mp
  ofR : (ctx.r : ℚ) * base ^ ctx.k = number * ctx.s
  ofMp : (ctx.mp : ℚ) * base ^ ctx.k = above * ctx.s
  unequal : ctx.unequalGaps = true → (ctx.mm : ℚ) * base ^ ctx.k = below * ctx.s
  equal : ctx.unequalGaps = false → below = above

/-- A place up, the context stands for the same number. -/
theorem standsFor_raise (radix : 2 ≤ base) (stands : StandsFor base number above below ctx) :
    StandsFor base number above below (raise base ctx) := by
  have nonzero : (base : ℚ) ≠ 0 := by exact_mod_cast (by omega : base ≠ 0)
  refine ⟨Nat.mul_pos stands.positive (by omega), stands.margin, ?_, ?_, fun unequal => ?_,
    stands.equal⟩
  · dsimp only [raise]
    rw [zpow_add_one₀ nonzero, ← mul_assoc, stands.ofR, Nat.cast_mul, mul_assoc]
  · dsimp only [raise]
    rw [zpow_add_one₀ nonzero, ← mul_assoc, stands.ofMp, Nat.cast_mul, mul_assoc]
  · dsimp only [raise]
    rw [zpow_add_one₀ nonzero, ← mul_assoc, stands.unequal unequal, Nat.cast_mul, mul_assoc]

/-- A place down, it stands for the same number. -/
theorem standsFor_lower (radix : 2 ≤ base) (stands : StandsFor base number above below ctx) :
    StandsFor base number above below (lower base ctx) := by
  have nonzero : (base : ℚ) ≠ 0 := by exact_mod_cast (by omega : base ≠ 0)
  have power : (base : ℚ) * base ^ (ctx.k - 1) = base ^ ctx.k := by
    rw [mul_comm, ← zpow_add_one₀ nonzero, Int.sub_add_cancel]
  refine ⟨stands.positive, Nat.mul_pos stands.margin (by omega), ?_, ?_, fun unequal => ?_,
    stands.equal⟩
  · dsimp only [lower]
    rw [Nat.cast_mul, mul_assoc, power, stands.ofR]
  · dsimp only [lower]
    rw [Nat.cast_mul, mul_assoc, power, stands.ofMp]
  · change ctx.unequalGaps = true at unequal
    dsimp only [lower]
    rw [if_pos unequal, Nat.cast_mul, mul_assoc, power, stands.unequal unequal]

/-- A scaled context: neither raising nor lowering would be right. -/
structure Scaled (base : Nat) (number above below : ℚ) (ctx : Context) : Prop
    extends StandsFor base number above below ctx where
  ofMm : (ctx.mm : ℚ) * base ^ ctx.k = below * ctx.s
  notTooLow : tooLow ctx = false
  notTooHigh : tooHigh base ctx = false

/-- The test as a comparison. With the end counted, it has to be below. -/
theorem tooLow_eq_false : tooLow ctx = false ↔ ctx.r + ctx.mp + ctx.ok.toNat ≤ ctx.s := by
  cases ok : ctx.ok <;> simp only [tooLow, ok, Bool.false_eq_true, ↓reduceIte,
    decide_eq_false_iff_not, Bool.toNat_false, Bool.toNat_true] <;> omega

/-- The other test as a comparison. -/
theorem tooHigh_eq_false : tooHigh base ctx = false ↔
    ctx.s < (ctx.r + ctx.mp) * base + ctx.ok.toNat := by
  cases ok : ctx.ok <;> simp only [tooHigh, ok, Bool.false_eq_true, ↓reduceIte,
    decide_eq_false_iff_not, Bool.toNat_false, Bool.toNat_true] <;> omega

/-- Where `k` was too low, it is not too high one further. -/
theorem tooHigh_raise (radix : 2 ≤ base) (low : tooLow ctx = true) :
    tooHigh base (raise base ctx) = false := by
  rw [tooHigh_eq_false]
  have reached : ¬ctx.r + ctx.mp + ctx.ok.toNat ≤ ctx.s := by
    rw [← tooLow_eq_false, low]
    exact Bool.noConfusion
  have bit := Bool.toNat_le ctx.ok
  change ctx.s * base < (ctx.r + ctx.mp) * base + ctx.ok.toNat
  cases ok : ctx.ok with
  | true =>
    rw [ok, Bool.toNat_true] at reached
    have := Nat.mul_le_mul_right base (show ctx.s ≤ ctx.r + ctx.mp by omega)
    rw [Bool.toNat_true]
    omega
  | false =>
    rw [ok, Bool.toNat_false] at reached
    exact Nat.mul_lt_mul_of_pos_right (by omega) (by omega)

/-- After a place down that was needed, `k` is not too low. -/
theorem tooLow_lower (high : tooHigh base ctx = true) : tooLow (lower base ctx) = false := by
  rw [tooLow_eq_false]
  have reached : ¬ctx.s < (ctx.r + ctx.mp) * base + ctx.ok.toNat := by
    rw [← tooHigh_eq_false, high]
    exact Bool.noConfusion
  change ctx.r * base + ctx.mp * base + ctx.ok.toNat ≤ ctx.s
  rw [← Nat.add_mul]
  omega

/-- Raising ends, with a context for the same number that is not too low. Where it did
anything, the context is not too high either. -/
theorem raise_total (radix : 2 ≤ base) (stands : StandsFor base number above below ctx)
    (start : ctx.k = 0) :
    ∃ raised, loop tooLow (raise base) (ctx.r + ctx.mp + ctx.s + 1) ctx = some raised ∧
      (StandsFor base number above below raised ∧ raised.ok = ctx.ok ∧
        (raised = ctx ∨ 0 < raised.k ∧ tooHigh base raised = false)) ∧ tooLow raised = false := by
  apply loop_total (fun c => StandsFor base number above below c ∧ c.ok = ctx.ok ∧
    (c = ctx ∨ 0 < c.k ∧ tooHigh base c = false)) fun c => c.r + c.mp + 1 - c.s
  · rintro c ⟨own, ok, place⟩ low
    refine ⟨standsFor_raise radix own, ok, .inr ⟨?_, tooHigh_raise radix low⟩⟩
    rcases place with rfl | ⟨positive, -⟩ <;> dsimp only [raise] <;> omega
  · rintro c ⟨own, -, -⟩ low
    have reached : ¬c.r + c.mp + c.ok.toNat ≤ c.s := by
      rw [← tooLow_eq_false, low]
      exact Bool.noConfusion
    have bit := Bool.toNat_le c.ok
    have larger : c.s * 2 ≤ c.s * base := Nat.mul_le_mul_left _ radix
    have positive := own.positive
    dsimp only [raise]
    omega
  · exact ⟨stands, rfl, .inl rfl⟩
  · have positive := stands.positive
    omega

/-- Lowering ends, with a context for the same number that is neither. -/
theorem lower_total (radix : 2 ≤ base) (stands : StandsFor base number above below ctx)
    (low : tooLow ctx = false) :
    ∃ lowered, loop (tooHigh base) (lower base) (ctx.r + ctx.mp + ctx.s + 1) ctx = some lowered ∧
      (StandsFor base number above below lowered ∧ lowered.ok = ctx.ok ∧
        tooLow lowered = false) ∧ tooHigh base lowered = false := by
  apply loop_total (fun c => StandsFor base number above below c ∧ c.ok = ctx.ok ∧
    tooLow c = false) fun c => c.s - (c.r + c.mp)
  · rintro c ⟨own, ok, -⟩ high
    exact ⟨standsFor_lower radix own, ok, tooLow_lower high⟩
  · rintro c ⟨own, -, -⟩ high
    have reached : ¬c.s < (c.r + c.mp) * base + c.ok.toNat := by
      rw [← tooHigh_eq_false, high]
      exact Bool.noConfusion
    have larger : (c.r + c.mp) * 2 ≤ (c.r + c.mp) * base := Nat.mul_le_mul_left _ radix
    have margin := own.margin
    dsimp only [lower]
    rw [← Nat.add_mul]
    omega
  · exact ⟨stands, rfl, low⟩
  · omega

/-- Scaling comes to an end, and the number stays. -/
theorem scale_spec (radix : 2 ≤ base) (stands : StandsFor base number above below ctx)
    (start : ctx.k = 0) :
    ∃ scaled, scale base ctx = some scaled ∧ Scaled base number above below scaled ∧
      scaled.ok = ctx.ok := by
  obtain ⟨raised, endsRaising, ⟨raisedStands, raisedOk, moved⟩, notLow⟩ :=
    raise_total radix stands start
  obtain ⟨final, ends, own, ok, low, high⟩ : ∃ scaled, (if 0 < raised.k then some raised
      else loop (tooHigh base) (lower base) (ctx.r + ctx.mp + ctx.s + 1) raised) = some scaled ∧
      StandsFor base number above below scaled ∧ scaled.ok = ctx.ok ∧ tooLow scaled = false ∧
        tooHigh base scaled = false := by
    rcases moved with rfl | ⟨positive, notHigh⟩
    · rw [if_neg (by omega)]
      obtain ⟨final, ends, ⟨own, ok, low⟩, high⟩ := lower_total radix stands notLow
      exact ⟨final, ends, own, ok, low, high⟩
    · exact ⟨raised, if_pos positive, raisedStands, raisedOk, notLow, notHigh⟩
  refine ⟨if final.unequalGaps then final else { final with mm := final.mp }, ?_, ?_, ?_⟩
  · simp only [scale, endsRaising, Option.bind_some, ends, Option.map_some]
  · split
    · rename_i unequal
      exact ⟨own, own.unequal unequal, low, high⟩
    · rename_i equal
      have same := own.equal (by simpa using equal)
      refine ⟨⟨own.positive, own.margin, own.ofR, own.ofMp, fun unequal => absurd unequal equal,
        own.equal⟩, ?_, low, high⟩
      rw [same]
      exact own.ofMp
  · split <;> exact ok

/-- The context is the number and the gaps in units of its own. -/
theorem Scaled.units (radix : 0 < base) (scaled : Scaled base number above below ctx) :
    ∃ unit : ℚ, 0 < unit ∧ ctx.s = base ^ ctx.k * unit ∧ ctx.r = number * unit ∧
      ctx.mp = above * unit ∧ ctx.mm = below * unit := by
  have power : (0 : ℚ) < base ^ ctx.k := zpow_pos (by exact_mod_cast radix) _
  have positive : (0 : ℚ) < ctx.s := by exact_mod_cast scaled.positive
  refine ⟨ctx.s / base ^ ctx.k, div_pos positive power, ?_, ?_, ?_, ?_⟩
  · field_simp
  · rw [← mul_div_assoc, ← scaled.ofR, mul_div_cancel_right₀ _ power.ne']
  · rw [← mul_div_assoc, ← scaled.ofMp, mul_div_cancel_right₀ _ power.ne']
  · rw [← mul_div_assoc, ← scaled.ofMm, mul_div_cancel_right₀ _ power.ne']

/-- The number with the gap above is at most one, -/
theorem Scaled.le_power (radix : 0 < base) (scaled : Scaled base number above below ctx) :
    number + above ≤ base ^ ctx.k := by
  obtain ⟨unit, positive, s, r, mp, -⟩ := scaled.units radix
  have reached := tooLow_eq_false.mp scaled.notTooLow
  have bound : (ctx.r + ctx.mp : ℚ) ≤ ctx.s := by exact_mod_cast (by omega : ctx.r + ctx.mp ≤ ctx.s)
  rw [s, r, mp, ← add_mul] at bound
  exact le_of_mul_le_mul_right bound positive

/-- and would be as much if it were taken once more by the base. -/
theorem Scaled.power_le (radix : 0 < base) (scaled : Scaled base number above below ctx) :
    (base : ℚ) ^ ctx.k ≤ (number + above) * base := by
  obtain ⟨unit, positive, s, r, mp, -⟩ := scaled.units radix
  have reached := tooHigh_eq_false.mp scaled.notTooHigh
  have bit := Bool.toNat_le ctx.ok
  have bound : (ctx.s : ℚ) ≤ (ctx.r + ctx.mp) * base := by
    exact_mod_cast (by omega : ctx.s ≤ (ctx.r + ctx.mp) * base)
  rw [s, r, mp, ← add_mul, mul_right_comm _ unit] at bound
  exact le_of_mul_le_mul_right bound positive

end Scaling

section Preparing

variable {base b f : Nat} {e : Int} {isS2n : Bool}

/-- A power by a natural exponent, read as one by an integer. -/
theorem cast_pow_toNat (b : Nat) (nonnegative : 0 ≤ e) : ((b ^ e.toNat : ℕ) : ℚ) = (b : ℚ) ^ e := by
  rw [Nat.cast_pow, ← zpow_natCast, Int.toNat_of_nonneg nonnegative]

/-- A context stands for its number and half of the gaps. Those of a power of two
differ, but at exponents up to -1022 the context does not tell them apart. -/
theorem standsFor_prepare (base f : Nat) (e : Int) (isS2n : Bool) (radix : 0 < b)
    (binary : isS2n = false → b = 2) :
    StandsFor base (f * (b : ℚ) ^ e) ((b : ℚ) ^ e / 2)
      (if isS2n = false ∧ f = 2 ^ 52 ∧ -1022 < e then (b : ℚ) ^ e / 4 else (b : ℚ) ^ e / 2)
      (prepare isS2n b f e) := by
  have nonzero : (b : ℚ) ≠ 0 := by exact_mod_cast radix.ne'
  have lowest : (!isS2n && f == 2 ^ 52) = true ↔ isS2n = false ∧ f = 2 ^ 52 := by simp
  have unit : (b : ℚ) ^ e ≠ 0 := zpow_ne_zero e nonzero
  rcases le_or_gt 0 e with nonnegative | negative
  · have power := cast_pow_toNat b nonnegative
    have positive : 0 < b ^ e.toNat := Nat.pow_pos radix
    by_cases low : isS2n = false ∧ f = 2 ^ 52
    · obtain rfl := binary low.1
      rw [if_pos ⟨low.1, low.2, by omega⟩]
      simp only [prepare, if_pos nonnegative, lowest.mpr low, if_true]
      constructor <;> dsimp only
      · exact Nat.succ_pos 3
      · exact Nat.mul_pos positive radix
      · rw [zpow_zero, mul_one, Nat.cast_mul, Nat.cast_mul (2 ^ _) 2, power]
        push_cast
        ring
      · rw [zpow_zero, mul_one, Nat.cast_mul, power]
        push_cast
        ring
      · intro _
        rw [zpow_zero, mul_one, power]
        push_cast
        ring
      · exact fun equal => Bool.noConfusion equal
    · rw [if_neg fun both => low ⟨both.1, both.2.1⟩]
      simp only [prepare, if_pos nonnegative, if_neg (mt lowest.mp low)]
      constructor <;> dsimp only
      · exact Nat.succ_pos 1
      · exact positive
      · rw [zpow_zero, mul_one, Nat.cast_mul, power]
        push_cast
        ring
      · rw [zpow_zero, mul_one, power]
        push_cast
        ring
      · exact fun unequal => Bool.noConfusion unequal
      · exact fun _ => rfl
  · by_cases low : -1022 < e ∧ (!isS2n && f == 2 ^ 52) = true
    · obtain ⟨outgoing, mantissa⟩ := lowest.mp low.2
      obtain rfl := binary outgoing
      have power : ((2 ^ (1 - e).toNat : ℕ) : ℚ) = 2 * (2 ^ e)⁻¹ := by
        rw [cast_pow_toNat 2 (by omega), Nat.cast_ofNat, zpow_sub₀ two_ne_zero, zpow_one,
          div_eq_mul_inv]
      rw [if_pos ⟨outgoing, mantissa, low.1⟩]
      simp only [prepare, if_neg (not_le_of_gt negative), if_pos low]
      constructor <;> dsimp only
      · exact Nat.mul_pos (Nat.pow_pos radix) (Nat.succ_pos 1)
      · exact Nat.succ_pos 1
      · rw [zpow_zero, mul_one, Nat.cast_mul (2 ^ _), power]
        push_cast at unit ⊢
        field_simp
        norm_num
      · rw [zpow_zero, mul_one, Nat.cast_mul (2 ^ _), power]
        push_cast at unit ⊢
        field_simp
      · intro _
        rw [zpow_zero, mul_one, Nat.cast_mul (2 ^ _), power]
        push_cast at unit ⊢
        field_simp
        norm_num
      · exact fun equal => Bool.noConfusion equal
    · have power : ((b ^ (-e).toNat : ℕ) : ℚ) = ((b : ℚ) ^ e)⁻¹ := by
        rw [cast_pow_toNat b (by omega), zpow_neg]
      rw [if_neg fun both => low ⟨both.2.2, lowest.mpr ⟨both.1, both.2.1⟩⟩]
      simp only [prepare, if_neg (not_le_of_gt negative), if_neg low]
      constructor <;> dsimp only
      · exact Nat.mul_pos (Nat.pow_pos radix) (Nat.succ_pos 1)
      · exact Nat.one_pos
      · rw [zpow_zero, mul_one, Nat.cast_mul (b ^ _), power]
        push_cast
        field_simp
      · rw [zpow_zero, mul_one, Nat.cast_mul (b ^ _), power]
        push_cast
        field_simp
      · exact fun unequal => Bool.noConfusion unequal
      · exact fun _ => rfl

end Preparing

section Digits

variable {base room : Nat} {ctx : Context} {digits : List Nat}

/-- Division with remainder: the digit and what remains are the number. -/
theorem digit_remaining (base : Nat) (ctx : Context) :
    digit base ctx * ctx.s + (remaining base ctx).r = ctx.r * base := by
  rw [Nat.mul_comm]
  exact Nat.div_add_mod _ _

/-- The scale remains. -/
@[simp] theorem remaining_s : (remaining base ctx).s = ctx.s := rfl

/-- The gap above goes down with the place. -/
@[simp] theorem remaining_mp : (remaining base ctx).mp = ctx.mp * base := rfl

/-- The gap below goes down with the place. -/
@[simp] theorem remaining_mm : (remaining base ctx).mm = ctx.mm * base := rfl

/-- The ends of the gap count as before. -/
@[simp] theorem remaining_ok : (remaining base ctx).ok = ctx.ok := rfl

/-- What remains is below the scale. -/
theorem remaining_lt (base : Nat) (positive : 0 < ctx.s) : (remaining base ctx).r < ctx.s :=
  Nat.mod_lt _ positive

/-- The test of the gap below as a comparison. -/
theorem tc1_eq_true : tc1 ctx = true ↔ ctx.r < ctx.mm + ctx.ok.toNat := by
  cases ok : ctx.ok <;> simp only [tc1, ok, Bool.false_eq_true, ↓reduceIte, decide_eq_true_eq,
    Bool.toNat_false, Bool.toNat_true] <;> omega

/-- Its negation as a comparison. -/
theorem tc1_eq_false : tc1 ctx = false ↔ ctx.mm + ctx.ok.toNat ≤ ctx.r := by
  rw [← Bool.not_eq_true, tc1_eq_true, Nat.not_lt]

/-- The test of the gap above as a comparison. -/
theorem tc2_eq_true : tc2 ctx = true ↔ ctx.s ≤ ctx.r + ctx.mp := by simp [tc2]

/-- Its negation as a comparison. -/
theorem tc2_eq_false : tc2 ctx = false ↔ ctx.r + ctx.mp < ctx.s := by simp [tc2]

/-- One round: the last digit is within the gap below, or the one after it within
the gap above, or neither is. -/
theorem generate_cases (generated : generate base (room + 1) ctx = some digits) :
    tc1 (remaining base ctx) = true ∧ digits = [digit base ctx] ∨
    tc2 (remaining base ctx) = true ∧ digits = [digit base ctx + 1] ∨
    tc1 (remaining base ctx) = false ∧ tc2 (remaining base ctx) = false ∧
      ∃ more, generate base room (remaining base ctx) = some more ∧
        digits = digit base ctx :: more := by
  rw [generate] at generated
  split at generated
  · rename_i first second
    split at generated
    · exact .inl ⟨first, (Option.some.inj generated).symm⟩
    · exact .inr (.inl ⟨second, (Option.some.inj generated).symm⟩)
  · rename_i first _
    exact .inl ⟨first, (Option.some.inj generated).symm⟩
  · rename_i _ second
    exact .inr (.inl ⟨second, (Option.some.inj generated).symm⟩)
  · rename_i first second
    obtain ⟨more, found, rfl⟩ := Option.map_eq_some_iff.mp generated
    exact .inr (.inr ⟨first, second, more, found, rfl⟩)

/-- At least one digit is generated. -/
theorem generate_ne_nil (generated : generate base room ctx = some digits) : digits.length ≠ 0 := by
  cases room with
  | zero => exact nomatch generated
  | succ room =>
    rcases generate_cases generated with ⟨-, rfl⟩ | ⟨-, rfl⟩ | ⟨-, -, more, -, rfl⟩ <;>
      exact Nat.succ_ne_zero _

/-- The digits are within the gaps of the number. -/
theorem generate_within (positive : 0 < ctx.s) (generated : generate base room ctx = some digits) :
    number base digits * ctx.s ≤ (ctx.r + ctx.mp) * base ^ digits.length ∧
      ctx.r * base ^ digits.length <
        number base digits * ctx.s + ctx.mm * base ^ digits.length + ctx.ok.toNat := by
  induction room generalizing ctx digits with
  | zero => exact nomatch generated
  | succ room ih =>
    have parts := digit_remaining base ctx
    have rest := remaining_lt base positive
    rcases generate_cases generated with ⟨first, rfl⟩ | ⟨second, rfl⟩ | ⟨-, -, more, found, rfl⟩
    · rw [tc1_eq_true, remaining_mm, remaining_ok] at first
      rw [number_singleton, List.length_singleton, pow_one, Nat.add_mul]
      omega
    · rw [tc2_eq_true, remaining_s, remaining_mp] at second
      rw [number_singleton, List.length_singleton, pow_one, Nat.add_mul, Nat.add_mul]
      omega
    · obtain ⟨above, below⟩ := ih (show 0 < (remaining base ctx).s from positive) found
      rw [remaining_s, remaining_mp] at above
      rw [remaining_s, remaining_mm, remaining_ok] at below
      have scaled : (digit base ctx * ctx.s + (remaining base ctx).r) * base ^ more.length =
          ctx.r * base * base ^ more.length := by rw [parts]
      rw [number_cons, List.length_cons, pow_succ]
      constructor <;> nlinarith

/-- Where the number has an end, the digits do not go beyond it. -/
theorem generate_length_of_dvd (positive : 0 < ctx.s) (radix : 0 < base) (margin : 0 < ctx.mm)
    {places : Nat} (ending : ctx.s ∣ ctx.r * base ^ (places + 1))
    (generated : generate base room ctx = some digits) : digits.length ≤ places + 1 := by
  induction room generalizing ctx digits places with
  | zero => exact nomatch generated
  | succ room ih =>
    have parts := digit_remaining base ctx
    rcases generate_cases generated with ⟨-, rfl⟩ | ⟨-, rfl⟩ | ⟨first, -, more, found, rfl⟩
    · exact Nat.le_add_left 1 places
    · exact Nat.le_add_left 1 places
    · have wider : 0 < ctx.mm * base := Nat.mul_pos margin radix
      have rest : ctx.s ∣ (remaining base ctx).r * base ^ places := by
        rw [pow_succ, Nat.mul_comm (base ^ places), ← Nat.mul_assoc, ← parts, Nat.add_mul,
          Nat.mul_right_comm] at ending
        exact (Nat.dvd_add_right (Nat.dvd_mul_left ctx.s _)).mp ending
      cases places with
      | zero =>
        rw [pow_zero, Nat.mul_one] at rest
        have none := Nat.eq_zero_of_dvd_of_lt rest (remaining_lt base positive)
        rw [tc1_eq_false, none, remaining_mm] at first
        omega
      | succ places =>
        exact Nat.succ_le_succ (ih (show 0 < (remaining base ctx).s from positive)
          (show 0 < (remaining base ctx).mm from wider) rest found)

/-- The digits end where the gaps have become as wide as a step of the last digit. -/
theorem generate_total {places : Nat} (wide : ctx.s ≤ (ctx.mm + ctx.mp) * base ^ (places + 1))
    (enough : places < room) :
    ∃ digits, generate base room ctx = some digits ∧ digits.length ≤ places + 1 := by
  induction places generalizing ctx room with
  | zero =>
    obtain ⟨room, rfl⟩ := Nat.exists_eq_succ_of_ne_zero (Nat.ne_zero_of_lt enough)
    rw [generate]
    split
    · exact ⟨_, rfl, Nat.le_refl 1⟩
    · exact ⟨_, rfl, Nat.le_refl 1⟩
    · exact ⟨_, rfl, Nat.le_refl 1⟩
    · rename_i first second
      rw [tc1_eq_false, remaining_mm] at first
      rw [tc2_eq_false, remaining_s, remaining_mp] at second
      rw [Nat.zero_add, pow_one, Nat.add_mul] at wide
      omega
  | succ places ih =>
    obtain ⟨room, rfl⟩ := Nat.exists_eq_succ_of_ne_zero (Nat.ne_zero_of_lt enough)
    rw [generate]
    split
    · exact ⟨_, rfl, Nat.le_add_left 1 _⟩
    · exact ⟨_, rfl, Nat.le_add_left 1 _⟩
    · exact ⟨_, rfl, Nat.le_add_left 1 _⟩
    · have wider : (remaining base ctx).s ≤
          ((remaining base ctx).mm + (remaining base ctx).mp) * base ^ (places + 1) := by
        rwa [remaining_s, remaining_mm, remaining_mp, ← Nat.add_mul, Nat.mul_assoc, ← pow_succ']
      obtain ⟨more, found, short⟩ := ih wider (Nat.lt_of_succ_lt_succ enough)
      refine ⟨digit base ctx :: more, ?_, Nat.succ_le_succ short⟩
      rw [found, Option.map_some]

/-- A digit is never as large as the base. -/
theorem generate_small (radix : 0 < base) (below : ctx.r + ctx.mp < ctx.s)
    (generated : generate base room ctx = some digits) : ∀ d ∈ digits, d < base := by
  induction room generalizing ctx digits with
  | zero => exact nomatch generated
  | succ room ih =>
    have parts := digit_remaining base ctx
    have whole : (ctx.r + ctx.mp) * base < base * ctx.s := by
      rw [Nat.mul_comm base]
      exact Nat.mul_lt_mul_of_pos_right below radix
    rw [Nat.add_mul] at whole
    have own : digit base ctx < base := Nat.lt_of_mul_lt_mul_right (a := ctx.s) (by omega)
    rcases generate_cases generated with ⟨-, rfl⟩ | ⟨second, rfl⟩ | ⟨-, second, more, found, rfl⟩
    · simpa using own
    · have next : digit base ctx + 1 < base := by
        apply Nat.lt_of_mul_lt_mul_right (a := ctx.s)
        rw [tc2_eq_true, remaining_s, remaining_mp] at second
        rw [Nat.add_mul]
        omega
      simpa using next
    · rw [tc2_eq_false] at second
      rw [List.forall_mem_cons]
      exact ⟨own, ih second found⟩

/-- The first digit is no zero, since the number was scaled. -/
theorem generate_head (radix : 0 < base) (gap : ctx.mm < ctx.r)
    (scaled : ctx.s ≤ (ctx.r + ctx.mp) * base) (generated : generate base room ctx = some digits) :
    ∃ d rest, digits = d :: rest ∧ 0 < d := by
  cases room with
  | zero => exact nomatch generated
  | succ room =>
    have parts := digit_remaining base ctx
    rw [Nat.add_mul] at scaled
    have wider : ctx.mm * base + base ≤ ctx.r * base := by
      rw [← Nat.succ_mul]
      exact Nat.mul_le_mul_right base gap
    rcases generate_cases generated with ⟨first, rfl⟩ | ⟨-, rfl⟩ | ⟨-, second, more, -, rfl⟩
    · refine ⟨_, [], rfl, Nat.pos_of_ne_zero fun none => ?_⟩
      rw [none, Nat.zero_mul, Nat.zero_add] at parts
      rw [tc1_eq_true, parts, remaining_mm, remaining_ok] at first
      have bit := Bool.toNat_le ctx.ok
      omega
    · exact ⟨_, [], rfl, Nat.succ_pos _⟩
    · refine ⟨_, more, rfl, Nat.pos_of_ne_zero fun none => ?_⟩
      rw [none, Nat.zero_mul, Nat.zero_add] at parts
      rw [tc2_eq_false, parts, remaining_s, remaining_mp] at second
      omega

/-- No number of fewer digits is within the gaps. -/
theorem generate_shortest (generated : generate base room ctx = some digits) {places : Nat}
    (fewer : places + 1 < digits.length) (x : ℤ) :
    x * ctx.s + ctx.mm * base ^ (places + 1) + ctx.ok.toNat ≤ ctx.r * base ^ (places + 1) ∨
      (ctx.r + ctx.mp) * base ^ (places + 1) < x * ctx.s := by
  induction room generalizing ctx digits places x with
  | zero => exact nomatch generated
  | succ room ih =>
    have parts : (digit base ctx * ctx.s + (remaining base ctx).r : ℤ) = ctx.r * base := by
      exact_mod_cast digit_remaining base ctx
    rcases generate_cases generated with ⟨-, rfl⟩ | ⟨-, rfl⟩ | ⟨first, second, more, found, rfl⟩
    · simp at fewer
    · simp at fewer
    · rw [tc1_eq_false, remaining_mm, remaining_ok] at first
      rw [tc2_eq_false, remaining_s, remaining_mp] at second
      cases places with
      | zero =>
        zify at first second
        rw [Nat.zero_add, pow_one]
        rcases le_or_gt x (digit base ctx) with before | behind
        · left
          have := mul_le_mul_of_nonneg_right before (Int.natCast_nonneg ctx.s)
          linarith
        · right
          have := mul_le_mul_of_nonneg_right (Int.add_one_le_of_lt behind)
            (Int.natCast_nonneg ctx.s)
          linarith
      | succ places =>
        have step := ih found (Nat.lt_of_succ_lt_succ fewer)
          (x - digit base ctx * base ^ (places + 1))
        rw [remaining_s, remaining_mm, remaining_mp, remaining_ok] at step
        have scaled : (digit base ctx * ctx.s + (remaining base ctx).r : ℤ) * base ^ (places + 1) =
            ctx.r * base * base ^ (places + 1) := by rw [parts]
        rw [pow_succ _ (places + 1)]
        push_cast at step
        refine step.imp (fun above => ?_) fun below => ?_ <;> nlinarith

end Digits

section Decimals

variable {base room : Nat} {ctx : Context} {digits : List Nat} {above below : ℚ}

/-- The number that digits stand for, the first of them behind the point if `k` is
zero. -/
def decimal (base : Nat) (k : Int) (digits : List Nat) : ℚ :=
  number base digits * base ^ (k - digits.length)

/-- The value of the digits, with the places behind the point taken out. -/
theorem decimal_mul (radix : 0 < base) (k : Int) (digits : List Nat) :
    decimal base k digits * base ^ digits.length = number base digits * base ^ k := by
  have nonzero : (base : ℚ) ≠ 0 := by exact_mod_cast radix.ne'
  rw [decimal, mul_assoc, ← zpow_natCast, ← zpow_add₀ nonzero, Int.sub_add_cancel]

/-- The digits stand for a number within the gaps. -/
theorem decimal_within {exact : ℚ} (radix : 0 < base) (scaled : Scaled base exact above below ctx)
    (generated : generate base room ctx = some digits) :
    decimal base ctx.k digits ≤ exact + above ∧ exact - below ≤ decimal base ctx.k digits ∧
      (ctx.ok = false → exact - below < decimal base ctx.k digits) := by
  obtain ⟨unit, positive, s, r, mp, mm⟩ := scaled.units radix
  obtain ⟨high, low⟩ := generate_within scaled.positive generated
  have power : (0 : ℚ) < base ^ digits.length := by positivity
  have whole := decimal_mul radix ctx.k digits
  have common : (number base digits * ctx.s : ℚ) =
      decimal base ctx.k digits * base ^ digits.length * unit := by rw [whole, s]; ring
  refine ⟨?_, ?_, fun odd => ?_⟩
  · have bound : (number base digits * ctx.s : ℚ) ≤ (ctx.r + ctx.mp) * base ^ digits.length := by
      exact_mod_cast high
    rw [common, r, mp, ← add_mul, mul_right_comm _ unit] at bound
    exact le_of_mul_le_mul_right (le_of_mul_le_mul_right bound positive) power
  · have bit := Bool.toNat_le ctx.ok
    have bound : (ctx.r * base ^ digits.length : ℚ) ≤
        number base digits * ctx.s + ctx.mm * base ^ digits.length := by
      exact_mod_cast (by omega : ctx.r * base ^ digits.length ≤
        number base digits * ctx.s + ctx.mm * base ^ digits.length)
    rw [common, r, mm] at bound
    have bound : exact * base ^ digits.length * unit ≤
        (decimal base ctx.k digits + below) * base ^ digits.length * unit := by linarith
    have := le_of_mul_le_mul_right (le_of_mul_le_mul_right bound positive) power
    linarith
  · rw [odd, Bool.toNat_false, Nat.add_zero] at low
    have bound : (ctx.r * base ^ digits.length : ℚ) <
        number base digits * ctx.s + ctx.mm * base ^ digits.length := by exact_mod_cast low
    rw [common, r, mm] at bound
    have bound : exact * base ^ digits.length * unit <
        (decimal base ctx.k digits + below) * base ^ digits.length * unit := by linarith
    have := lt_of_mul_lt_mul_right (lt_of_mul_lt_mul_right bound positive.le) power.le
    linarith

/-- No number that ends a place earlier is within the gaps. -/
theorem decimal_shortest {exact : ℚ} (radix : 0 < base)
    (scaled : Scaled base exact above below ctx) (nonnegative : below ≤ exact)
    (generated : generate base room ctx = some digits) (x : ℤ) :
    x * (base : ℚ) ^ (ctx.k - digits.length + 1) ≤ exact - below ∨
      exact + above ≤ x * (base : ℚ) ^ (ctx.k - digits.length + 1) := by
  have nonzero : (base : ℚ) ≠ 0 := by exact_mod_cast radix.ne'
  obtain ⟨places, length⟩ := Nat.exists_eq_succ_of_ne_zero (generate_ne_nil generated)
  have exponent : ctx.k - digits.length + 1 = ctx.k - places := by omega
  rw [exponent]
  cases places with
  | zero =>
    rw [Nat.cast_zero, sub_zero]
    have power : (0 : ℚ) < base ^ ctx.k := zpow_pos (by exact_mod_cast radix) _
    rcases le_or_gt x 0 with none | some
    · left
      have := mul_nonpos_of_nonpos_of_nonneg (show (x : ℚ) ≤ 0 by exact_mod_cast none) power.le
      linarith
    · right
      have one : (1 : ℚ) ≤ x := by exact_mod_cast some
      exact le_trans (scaled.le_power radix) (le_mul_of_one_le_left power.le one)
  | succ places =>
    obtain ⟨unit, positive, s, r, mp, mm⟩ := scaled.units radix
    have power : (0 : ℚ) < base ^ (places + 1) := by positivity
    have split : (base : ℚ) ^ ctx.k = base ^ (ctx.k - (places + 1 : ℕ)) * base ^ (places + 1) := by
      rw [← zpow_natCast, ← zpow_add₀ nonzero, Int.sub_add_cancel]
    have bit : (0 : ℤ) ≤ ctx.ok.toNat := Int.natCast_nonneg _
    refine (generate_shortest generated (show places + 1 < digits.length by omega) x).imp
      (fun low => ?_) fun high => ?_
    · have bound : (x * ctx.s + ctx.mm * base ^ (places + 1) : ℚ) ≤
          ctx.r * base ^ (places + 1) := by
        have : x * ctx.s + ctx.mm * base ^ (places + 1) ≤ ctx.r * base ^ (places + 1) := by linarith
        exact_mod_cast this
      rw [s, r, mm, split] at bound
      have bound : (x * base ^ (ctx.k - (places + 1 : ℕ)) + below) * base ^ (places + 1) * unit ≤
          exact * base ^ (places + 1) * unit := by linarith
      have := le_of_mul_le_mul_right (le_of_mul_le_mul_right bound positive) power
      linarith
    · have bound : ((ctx.r + ctx.mp) * base ^ (places + 1) : ℚ) ≤ x * ctx.s := by
        exact_mod_cast high.le
      rw [s, r, mp, split] at bound
      have bound : (exact + above) * base ^ (places + 1) * unit ≤
          x * base ^ (ctx.k - (places + 1 : ℕ)) * base ^ (places + 1) * unit := by linarith
      exact le_of_mul_le_mul_right (le_of_mul_le_mul_right bound positive) power

end Decimals

section FixedDigits

variable {base : Nat} {ctx : Context}

/-- As many digits are generated as were required. -/
theorem length_generateFixed (required : Nat) :
    (generateFixed base required ctx).length = required := by
  induction required generalizing ctx with
  | zero => rfl
  | succ required ih => rw [generateFixed, List.length_cons, ih]

/-- They are digits of the base. -/
theorem generateFixed_small (radix : 0 < base) (below : ctx.r < ctx.s) (required : Nat) :
    ∀ d ∈ generateFixed base required ctx, d < base := by
  induction required generalizing ctx with
  | zero => exact List.forall_mem_nil _
  | succ required ih =>
    rw [generateFixed, List.forall_mem_cons]
    refine ⟨?_, ih (remaining_lt base (by omega))⟩
    rw [digit, Nat.div_lt_iff_lt_mul (by omega), Nat.mul_comm base]
    exact Nat.mul_lt_mul_of_pos_right below radix

/-- The digits that are taken out spell the number up to what remains. -/
theorem number_generateFixed (below : ctx.r < ctx.s) (required : Nat) :
    number base (generateFixed base required ctx) = ctx.r * base ^ required / ctx.s := by
  induction required generalizing ctx with
  | zero => rw [generateFixed, number_nil, pow_zero, Nat.mul_one, Nat.div_eq_of_lt below]
  | succ required ih =>
    have positive : 0 < ctx.s := by omega
    have scaled : ctx.r * base ^ (required + 1) =
        (remaining base ctx).r * base ^ required + digit base ctx * base ^ required * ctx.s := by
      rw [pow_succ', ← Nat.mul_assoc, ← digit_remaining]
      ring
    rw [generateFixed, number_cons, length_generateFixed, ih (remaining_lt base positive),
      remaining_s, scaled, Nat.add_mul_div_right _ _ positive, Nat.add_comm]

end FixedDigits

end Hadouken.Dragon4
