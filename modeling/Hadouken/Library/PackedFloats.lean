import Mathlib.Algebra.Order.Field.Power
import Mathlib.Algebra.Order.Field.Rat
import Mathlib.Data.Rat.Floor
import Mathlib.Order.Monotone.Basic
import Mathlib.Tactic.Linarith
import Mathlib.Tactic.Positivity
import Mathlib.Tactic.Ring

/-!
# Packed binary fractions

A nonnegative number of a binary floating-point format is packed into one natural
number, an exponent above a fraction of `width` bits. The smallest exponent has no
hidden bit. The next packed number is the next value, so the packed numbers are in
the order of the values; where the exponents end, another value follows that
stands for infinity.

A number is rounded to the nearest value, halves going up, when the packed numbers
below the result are those that end, with half of the gap above them, at or below
the number.
-/

namespace Hadouken.PackedFloats

variable (width : ℕ) (low : ℤ)

/-- The fraction with its hidden bit. -/
def significand (n : ℕ) : ℕ :=
  if n / 2 ^ width = 0 then n else 2 ^ width + n % 2 ^ width

/-- The place of the last bit; at the smallest exponents it is `low`. -/
def place (n : ℕ) : ℤ := low + (n / 2 ^ width - 1 : ℕ)

/-- The value of a packed number. -/
def value (n : ℕ) : ℚ := significand width n * 2 ^ place width low n

/-- The middle of a value and the next. -/
def upper (n : ℕ) : ℚ := value width low n + 2 ^ place width low n / 2

/-- The number is rounded to `n`, where `top` is infinity. -/
def HalfUp (top : ℕ) (number : ℚ) (n : ℕ) : Prop :=
  n ≤ top ∧ ∀ m < top, m < n ↔ upper width low m ≤ number

/-- There is a gap to the next number. -/
theorem gap_positive (n : ℕ) : (0 : ℚ) < 2 ^ place width low n := by positivity

/-- The values of one exponent, and those without a hidden bit, are the multiples
of a power of two. -/
theorem value_grid (q m : ℕ) (normal : q = 0 ∨ 2 ^ width ≤ m) (small : m ≤ 2 ^ (width + 1)) :
    value width low (2 ^ width * q + m) = m * 2 ^ (low + q) := by
  have positive : 0 < 2 ^ width := by positivity
  have quotient : (2 ^ width * q + m) / 2 ^ width = q + m / 2 ^ width :=
    Nat.mul_add_div positive q m
  have remainder : (2 ^ width * q + m) % 2 ^ width = m % 2 ^ width := Nat.mul_add_mod _ q m
  have double : 2 ^ (width + 1) = 2 * 2 ^ width := by rw [pow_succ, Nat.mul_comm]
  rw [value, significand, place, quotient, remainder]
  rcases lt_trichotomy (m / 2 ^ width) 1 with none | one | two
  · -- No hidden bit, hence the smallest exponent.
    have below : m < 2 ^ width := (Nat.div_lt_one_iff positive).mp none
    obtain rfl : q = 0 := normal.resolve_right (Nat.not_le_of_lt below)
    rw [Nat.lt_one_iff.mp none, if_pos rfl]
    simp
  · have rest : m % 2 ^ width = m - 2 ^ width := by
      have := Nat.div_add_mod m (2 ^ width)
      rw [one] at this
      omega
    have above : 2 ^ width ≤ m := by
      have := Nat.div_mul_le_self m (2 ^ width)
      rwa [one, Nat.one_mul] at this
    rw [one, if_neg (by omega), rest, Nat.add_sub_cancel, Nat.add_sub_cancel' above]
  · -- The carry into the exponent.
    have full : m = 2 * 2 ^ width := by
      have := (Nat.le_div_iff_mul_le positive).mp two
      omega
    have twice : m / 2 ^ width = 2 := by rw [full, Nat.mul_div_cancel _ positive]
    have rest : m % 2 ^ width = 0 := by rw [full, Nat.mul_mod_left]
    have further : q + 2 - 1 = q + 1 := by omega
    rw [twice, if_neg (by omega), rest, further, Nat.add_zero, full, Nat.cast_succ, ← add_assoc,
      zpow_add_one₀ two_ne_zero]
    push_cast
    ring

/-- Behind the fraction that is full comes the next exponent. -/
theorem value_succ (n : ℕ) :
    value width low (n + 1) = value width low n + 2 ^ place width low n := by
  have positive : 0 < 2 ^ width := by positivity
  have double : 2 ^ (width + 1) = 2 * 2 ^ width := by rw [pow_succ, Nat.mul_comm]
  have parts := Nat.div_add_mod n (2 ^ width)
  have fraction := Nat.mod_lt n positive
  have grid : ∃ q m, n = 2 ^ width * q + m ∧ (q = 0 ∨ 2 ^ width ≤ m) ∧ m < 2 ^ (width + 1) ∧
      place width low n = low + q := by
    cases small : n / 2 ^ width with
    | zero =>
      rw [small, Nat.mul_zero, Nat.zero_add] at parts
      exact ⟨0, n, by omega, .inl rfl, by omega, by simp [place, small]⟩
    | succ q =>
      rw [small, Nat.mul_succ] at parts
      exact ⟨q, 2 ^ width + n % 2 ^ width, by omega, .inr (Nat.le_add_right _ _), by omega,
        by simp [place, small]⟩
  obtain ⟨q, m, rfl, normal, below, found⟩ := grid
  rw [found, value_grid width low q m normal below.le, Nat.add_assoc,
    value_grid width low q (m + 1) (by omega) below]
  push_cast
  ring

/-- Packed numbers are in the order of their values. -/
theorem value_strictMono : StrictMono (value width low) := by
  apply strictMono_nat_of_lt_succ
  intro n
  rw [value_succ]
  exact lt_add_of_pos_right _ (gap_positive width low n)

/-- The first is zero. -/
theorem value_zero : value width low 0 = 0 := by simp [value, significand]

/-- All others are positive. -/
theorem value_positive {n : ℕ} (positive : 0 < n) : 0 < value width low n := by
  rw [← value_zero width low]
  exact value_strictMono width low positive

/-- The upper end of the gap is the middle to the next number. -/
theorem upper_eq (n : ℕ) :
    upper width low n = (value width low n + value width low (n + 1)) / 2 := by
  rw [upper, value_succ]
  ring

/-- The ends are in the same order. -/
theorem upper_strictMono : StrictMono (upper width low) := by
  intro n m smaller
  have first := value_strictMono width low smaller
  have second := value_strictMono width low (Nat.succ_lt_succ smaller)
  rw [upper_eq, upper_eq]
  linarith

variable {width low} {top n : ℕ} {number : ℚ}

/-- A number is rounded to one value only. -/
theorem HalfUp.unique {other : ℕ} (first : HalfUp width low top number n)
    (second : HalfUp width low top number other) : n = other := by
  apply le_antisymm <;> apply le_of_not_gt <;> intro smaller
  · have reached := (first.2 other (lt_of_lt_of_le smaller first.1)).mp smaller
    exact lt_irrefl _ ((second.2 other (lt_of_lt_of_le smaller first.1)).mpr reached)
  · have reached := (second.2 n (lt_of_lt_of_le smaller second.1)).mp smaller
    exact lt_irrefl _ ((first.2 n (lt_of_lt_of_le smaller second.1)).mpr reached)

/-- It is enough to look at the two middles next to the value. -/
theorem HalfUp.of_between (inside : n ≤ top) (above : ∀ m, m + 1 = n → upper width low m ≤ number)
    (below : n < top → number < upper width low n) : HalfUp width low top number n := by
  refine ⟨inside, fun m smaller => ⟨fun before => ?_, fun reached => ?_⟩⟩
  · obtain ⟨last, rfl⟩ := Nat.exists_eq_succ_of_ne_zero (Nat.ne_zero_of_lt before)
    have ordered := (upper_strictMono width low).monotone (Nat.le_of_lt_succ before)
    exact le_trans ordered (above last rfl)
  · by_contra behind
    have further := Nat.le_of_not_lt behind
    have ordered := (upper_strictMono width low).monotone further
    exact lt_irrefl _ (lt_of_lt_of_le (below (lt_of_le_of_lt further smaller))
      (le_trans ordered reached))

/-- A value that is not infinity is the rounding of what lies between the two middles. -/
theorem halfUp_iff (finite : n < top) : HalfUp width low top number n ↔
    (∀ m, m + 1 = n → upper width low m ≤ number) ∧ number < upper width low n := by
  constructor
  · rintro ⟨-, rounded⟩
    constructor
    · rintro m rfl
      exact (rounded m (by omega)).mp (Nat.lt_succ_self m)
    · apply lt_of_not_ge
      intro reached
      exact lt_irrefl _ ((rounded n finite).mpr reached)
  · rintro ⟨above, below⟩
    exact .of_between finite.le above fun _ => below

/-- A value is rounded to itself. -/
theorem halfUp_value (inside : n ≤ top) : HalfUp width low top (value width low n) n := by
  apply HalfUp.of_between inside
  · rintro m rfl
    have gap := gap_positive width low m
    rw [upper, value_succ]
    linarith
  · intro _
    have gap := gap_positive width low n
    rw [upper]
    linarith

/-- Rounding to the multiples of a power of two rounds to a value, as long as the
number is not so far below the exponent that the values there are closer. -/
theorem halfUp_grid (q m : ℕ) (small : m ≤ 2 ^ (width + 1))
    (exponent : q = 0 ∨ (2 ^ width - 1 / 4) * (2 : ℚ) ^ (low + q) ≤ number)
    (above : (m - 1 / 2) * (2 : ℚ) ^ (low + q) ≤ number)
    (below : number < (m + 1 / 2) * (2 : ℚ) ^ (low + q)) (inside : 2 ^ width * q + m ≤ top) :
    HalfUp width low top number (2 ^ width * q + m) := by
  have unit : (0 : ℚ) < 2 ^ (low + q) := by positivity
  have normal : q = 0 ∨ 2 ^ width ≤ m := by
    refine exponent.imp_right fun reached => ?_
    have compared := lt_of_mul_lt_mul_right (lt_of_le_of_lt reached below) unit.le
    have close : (2 ^ width : ℚ) < m + 1 := by linarith
    exact Nat.le_of_lt_succ (by exact_mod_cast close)
  have own := value_grid width low q m normal small
  apply HalfUp.of_between inside
  · intro last next
    rcases Nat.eq_zero_or_pos q with rfl | positive
    · obtain ⟨before, rfl⟩ := Nat.exists_eq_succ_of_ne_zero (show m ≠ 0 by omega)
      obtain rfl : last = 2 ^ width * 0 + before := by omega
      have previous := value_grid width low 0 before (.inl rfl) (by omega)
      rw [upper_eq, next, own, previous]
      push_cast at above ⊢
      linarith
    · have reached := exponent.resolve_left positive.ne'
      have hidden := normal.resolve_left positive.ne'
      rcases lt_or_eq_of_le hidden with further | rfl
      · obtain ⟨before, rfl⟩ := Nat.exists_eq_succ_of_ne_zero (Nat.ne_zero_of_lt further)
        obtain rfl : last = 2 ^ width * q + before := by omega
        have previous := value_grid width low q before (.inr (by omega)) (by omega)
        rw [upper_eq, next, own, previous]
        push_cast at above ⊢
        linarith
      · -- The first value of an exponent stands closer to the one before.
        obtain ⟨p, rfl⟩ := Nat.exists_eq_succ_of_ne_zero positive.ne'
        have double : 2 ^ (width + 1) = 2 * 2 ^ width := by rw [pow_succ, Nat.mul_comm]
        have some : 0 < 2 ^ width := by positivity
        obtain rfl : last = 2 ^ width * p + (2 * 2 ^ width - 1) := by
          rw [Nat.mul_succ] at next
          omega
        have previous := value_grid width low p (2 * 2 ^ width - 1) (.inr (by omega)) (by omega)
        have finer : (2 : ℚ) ^ (low + (p.succ : ℕ)) = 2 * 2 ^ (low + p) := by
          rw [Nat.cast_succ, ← add_assoc, zpow_add_one₀ two_ne_zero, mul_comm]
        rw [upper_eq, next, own, previous, Nat.cast_sub (by omega)]
        rw [finer] at reached ⊢
        push_cast at reached ⊢
        linarith
  · intro _
    have finer : low + q ≤ place width low (2 ^ width * q + m) := by
      have positive : 0 < 2 ^ width := by positivity
      rw [place, Nat.mul_add_div positive]
      rcases normal with rfl | normal
      · omega
      · have := Nat.div_pos normal positive
        omega
    have gap : (2 : ℚ) ^ (low + q) ≤ 2 ^ place width low (2 ^ width * q + m) :=
      zpow_le_zpow_right₀ one_le_two finer
    rw [upper, own]
    linarith

end Hadouken.PackedFloats
