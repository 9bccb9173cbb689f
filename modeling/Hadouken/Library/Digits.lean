import Mathlib.Data.Nat.Digits.Defs
import Mathlib.Data.List.TakeDrop
import Mathlib.Algebra.BigOperators.Group.Finset.Basic
import Mathlib.Tactic.Linarith
import Mathlib.Tactic.Ring

/-!
# Digits

Digits spell a number in a base, the first digit being the highest. A part of the
digits is a quotient of the number, and a carry adds one to it.
-/

namespace Hadouken.Digits

variable {base : Nat}

/-- The number that digits spell. -/
def number (base : Nat) (digits : List Nat) : Nat := Nat.ofDigits base digits.reverse

/-- No digits spell zero. -/
@[simp] theorem number_nil : number base [] = 0 := rfl

/-- Digits in two parts. -/
theorem number_append (front behind : List Nat) :
    number base (front ++ behind) =
      number base front * base ^ behind.length + number base behind := by
  rw [number, List.reverse_append, Nat.ofDigits_append, List.length_reverse, Nat.add_comm,
    Nat.mul_comm]
  rfl

/-- A digit spells itself. -/
@[simp] theorem number_singleton (d : Nat) : number base [d] = d := by
  simp [number]

/-- The first digit is worth the most. -/
theorem number_cons (d : Nat) (rest : List Nat) :
    number base (d :: rest) = d * base ^ rest.length + number base rest := by
  have apart : number base ([d] ++ rest) = number base [d] * base ^ rest.length +
      number base rest := number_append [d] rest
  rwa [number_singleton] at apart

/-- The last digit is worth itself. -/
theorem number_concat (front : List Nat) (d : Nat) :
    number base (front ++ [d]) = number base front * base + d := by
  rw [number_append, number_singleton, List.length_singleton, pow_one]

/-- Zeros spell zero. -/
@[simp] theorem number_zeros (count : Nat) : number base (List.replicate count 0) = 0 := by
  induction count with
  | zero => rfl
  | succ count ih => rw [List.replicate_succ, number_cons, ih, Nat.zero_mul]

/-- Zeros at the end are powers of the base. -/
theorem number_append_zeros (digits : List Nat) (count : Nat) :
    number base (digits ++ List.replicate count 0) = number base digits * base ^ count := by
  rw [number_append, number_zeros, List.length_replicate, Nat.add_zero]

/-- Digits spell less than one place more. -/
theorem number_lt {digits : List Nat} (small : ∀ d ∈ digits, d < base) :
    number base digits < base ^ digits.length := by
  induction digits with
  | nil => exact Nat.one_pos
  | cons d rest ih =>
    have own : d + 1 ≤ base := small d List.mem_cons_self
    have later := ih fun e member => small e (List.mem_cons_of_mem d member)
    calc number base (d :: rest) = d * base ^ rest.length + number base rest := number_cons d rest
      _ < d * base ^ rest.length + base ^ rest.length := Nat.add_lt_add_left later _
      _ = (d + 1) * base ^ rest.length := by rw [Nat.add_mul, Nat.one_mul]
      _ ≤ base * base ^ rest.length := Nat.mul_le_mul_right _ own
      _ = base ^ (rest.length + 1) := by rw [Nat.pow_succ, Nat.mul_comm]

/-- The first digits spell a quotient. -/
theorem number_take {digits : List Nat} (small : ∀ d ∈ digits, d < base) (count : Nat) :
    number base (digits.take count) = number base digits / base ^ (digits.length - count) := by
  have later : number base (digits.drop count) < base ^ (digits.drop count).length :=
    number_lt fun d member => small d (List.mem_of_mem_drop member)
  have whole : number base digits = number base (digits.take count) *
      base ^ (digits.drop count).length + number base (digits.drop count) := by
    rw [← number_append, List.take_append_drop]
  rw [List.length_drop] at later whole
  have positive : 0 < base ^ (digits.length - count) := Nat.lt_of_le_of_lt (Nat.zero_le _) later
  rw [whole, Nat.mul_comm, Nat.mul_add_div positive, Nat.div_eq_of_lt later, Nat.add_zero]

/-- The digit at a place. -/
theorem getElem_eq {digits : List Nat} (small : ∀ d ∈ digits, d < base) (i : Nat)
    (inside : i < digits.length) :
    digits[i] = number base digits / base ^ (digits.length - 1 - i) % base := by
  have own : digits[i] < base := small _ (List.getElem_mem inside)
  have further : number base (digits.take (i + 1)) =
      number base (digits.take i) * base + digits[i] := by
    rw [← number_concat, List.take_append_getElem]
  rw [number_take small] at further
  rw [Nat.sub_sub, Nat.add_comm 1 i, further, Nat.mul_add_mod', Nat.mod_eq_of_lt own]

/-- The bits of a number from the lowest on. -/
theorem sum_digits (n count : Nat) :
    ∑ i ∈ Finset.range count, n / base ^ i % base * base ^ i = n % base ^ count := by
  induction count with
  | zero => simp [Nat.mod_one]
  | succ count ih => rw [Finset.sum_range_succ, ih, Nat.mod_pow_succ, Nat.mul_comm (base ^ count)]

section Carry

/-- Add one to the last digit. The carry goes to the front; it is told when it
went over the first digit. -/
def increment (base : Nat) : List Nat → List Nat × Bool
  | [] => ([], true)
  | d :: rest =>
      match increment base rest with
      | (rest, false) => (d :: rest, false)
      | (rest, true) => if d + 1 < base then ((d + 1) :: rest, false) else (0 :: rest, true)

/-- Adding one keeps the number of digits. -/
theorem length_increment (digits : List Nat) :
    (increment base digits).1.length = digits.length := by
  fun_induction increment base digits <;> simp_all

/-- It keeps them digits. -/
theorem increment_small (positive : 0 < base) {digits : List Nat}
    (small : ∀ d ∈ digits, d < base) : ∀ d ∈ (increment base digits).1, d < base := by
  fun_induction increment base digits <;> simp_all

/-- A carry that went over the first digit left zeros behind. -/
theorem number_increment {digits : List Nat} (small : ∀ d ∈ digits, d < base) :
    number base digits + 1 = number base (increment base digits).1 +
      if (increment base digits).2 then base ^ digits.length else 0 := by
  induction digits with
  | nil => simp [increment]
  | cons d rest ih =>
    have own : d < base := small d List.mem_cons_self
    have later := ih fun e member => small e (List.mem_cons_of_mem d member)
    have same : (increment base rest).1.length = rest.length := length_increment rest
    cases carried : increment base rest with
    | mk digits carry =>
      rw [carried] at later same
      dsimp only at later same
      cases carry with
      | false =>
        simp only [increment, carried, number_cons, same]
        simp only [Bool.false_eq_true, if_false] at later ⊢
        omega
      | true =>
        simp only [increment, carried]
        simp only [if_true] at later
        split
        · simp only [number_cons, same, Bool.false_eq_true, if_false, Nat.add_mul, Nat.one_mul]
          omega
        · have last : base = d + 1 := by omega
          have power : base ^ (rest.length + 1) = d * base ^ rest.length + base ^ rest.length := by
            rw [Nat.pow_succ, Nat.mul_comm]
            nth_rewrite 1 [last]
            rw [Nat.add_mul, Nat.one_mul]
          simp only [number_cons, same, if_true, List.length_cons, power, Nat.zero_mul]
          omega

/-- Where it carries over the first digit, zeros are left. -/
theorem increment_zeros {digits : List Nat} (small : ∀ d ∈ digits, d < base)
    (carry : (increment base digits).2 = true) :
    number base (increment base digits).1 = 0 := by
  have carried := number_increment small
  have bound := number_lt small
  rw [if_pos carry] at carried
  omega

end Carry

end Hadouken.Digits
