import Mathlib.Algebra.Order.Group.Nat
import Mathlib.Data.List.Basic
import Mathlib.Tactic.Ring

/-!
# Code points as bytes, by extended UTF-8

The scheme of UTF-8 is carried on to seven bytes, so that each number below 2^32
has an encoding. Halves of surrogate pairs are code points like others: texts in
UTF-8 and texts whose 16-bit units are encoded one by one are both among the
texts of this scheme.

The decoder takes the first byte for what it says and looks at the lower six bits
of those that follow, whatever their upper bits are.
-/

namespace Hadouken.ExtendedUtf8

/-- How many bytes follow the first one. -/
def trail (cp : Nat) : Nat :=
  if cp < 0x80 then 0
  else if cp < 0x800 then 1
  else if cp < 0x10000 then 2
  else if cp < 0x200000 then 3
  else if cp < 0x4000000 then 4
  else if cp < 0x80000000 then 5
  else 6

/-- The bits of the first byte that say how many follow. -/
def marker : Nat → Nat
  | 0 => 0x00
  | 1 => 0xC0
  | 2 => 0xE0
  | 3 => 0xF0
  | 4 => 0xF8
  | 5 => 0xFC
  | _ => 0xFE

/-- The bytes behind the first one. -/
def continuation : Nat → Nat → List UInt8
  | 0, _ => []
  | n + 1, cp => continuation n (cp / 64) ++ [UInt8.ofNat (0x80 + cp % 64)]

/-- The bytes of a code point. -/
def encode (cp : Nat) : List UInt8 :=
  UInt8.ofNat (marker (trail cp) + cp / 64 ^ trail cp) :: continuation (trail cp) cp

/-- The bits of a first byte, and how many bytes follow it. -/
def lead (byte : Nat) : Option (Nat × Nat) :=
  if byte < 0x80 then some (byte, 0)
  else if byte < 0xC0 then none
  else if byte < 0xE0 then some (byte % 32, 1)
  else if byte < 0xF0 then some (byte % 16, 2)
  else if byte < 0xF8 then some (byte % 8, 3)
  else if byte < 0xFC then some (byte % 4, 4)
  else if byte < 0xFE then some (byte % 2, 5)
  else if byte < 0xFF then some (0, 6)
  else none

/-- The next six bits of a code point, in a 32-bit register. -/
def push (cp : Nat) (byte : UInt8) : Nat := (cp * 64 + byte.toNat % 64) % 2 ^ 32

/-- The first code point of a text, and how many bytes follow its first one. -/
def decode : List UInt8 → Option (Nat × Nat)
  | [] => none
  | first :: rest =>
      (lead first.toNat).bind fun (bits, more) =>
        if more ≤ rest.length then some ((rest.take more).foldl push bits, more) else none

/-- The text of several code points. -/
def encodeAll (cps : List Nat) : List UInt8 := cps.flatMap encode

/-- Code points are encoded one after the other. -/
theorem encodeAll_cons (cp : Nat) (rest : List Nat) :
    encodeAll (cp :: rest) = encode cp ++ encodeAll rest := List.flatMap_cons

/-- A small number is its byte. -/
theorem toNat_byte (number : Nat) (small : number < 256) : (UInt8.ofNat number).toNat = number := by
  rw [UInt8.toNat_ofNat', Nat.mod_eq_of_lt (by omega)]

/-- There are so many continuation bytes. -/
@[simp] theorem length_continuation (n cp : Nat) : (continuation n cp).length = n := by
  induction n generalizing cp with
  | zero => rfl
  | succ n ih => simp [continuation, ih]

/-- Small code points are their own bytes. -/
theorem encode_ascii {cp : Nat} (small : cp < 0x80) : encode cp = [UInt8.ofNat cp] := by
  simp [encode, trail, small, marker, continuation]

/-- How many numbers the first byte can hold. -/
def capacity (more : Nat) : Nat := if more = 0 then 128 else 2 ^ (6 - more)

/-- The marker of a first byte tells how many bytes follow, and its other bits are kept. -/
theorem lead_marker : ∀ more ≤ 6, ∀ bits < capacity more,
    marker more + bits < 256 ∧ lead (marker more + bits) = some (bits, more) := by decide

/-- At most six bytes follow. -/
theorem trail_le (cp : Nat) : trail cp ≤ 6 := by
  unfold trail
  split_ifs <;> decide

/-- What is left for the first byte fits into it. -/
theorem lead_fits {cp : Nat} (small : cp < 2 ^ 32) : cp / 64 ^ trail cp < capacity (trail cp) := by
  unfold trail
  split_ifs <;> norm_num [capacity] <;> omega

/-- So it is with the first byte of a code point. -/
theorem lead_encode {cp : Nat} (small : cp < 2 ^ 32) :
    marker (trail cp) + cp / 64 ^ trail cp < 256 ∧
      lead (marker (trail cp) + cp / 64 ^ trail cp) = some (cp / 64 ^ trail cp, trail cp) :=
  lead_marker _ (trail_le cp) _ (lead_fits small)

/-- The bytes behind the first add their bits to the code point. -/
theorem foldl_continuation (n bits cp : Nat) (small : bits * 64 ^ n + cp % 64 ^ n < 2 ^ 32) :
    (continuation n cp).foldl push bits = bits * 64 ^ n + cp % 64 ^ n := by
  induction n generalizing cp with
  | zero => simp [continuation, Nat.mod_one]
  | succ n ih =>
    have split : cp % 64 ^ (n + 1) = cp % 64 + 64 * (cp / 64 % 64 ^ n) := by
      rw [pow_succ', Nat.mod_mul]
    have whole : bits * 64 ^ (n + 1) + cp % 64 ^ (n + 1) =
        (bits * 64 ^ n + cp / 64 % 64 ^ n) * 64 + cp % 64 := by
      rw [split]
      ring
    have byte := toNat_byte (0x80 + cp % 64) (by omega)
    rw [whole] at small ⊢
    rw [continuation, List.foldl_append, ih (cp / 64) (by omega), List.foldl_cons, List.foldl_nil,
      push, byte]
    omega

/-- The first code point of a text is read back. -/
theorem decode_encode {cp : Nat} (small : cp < 2 ^ 32) (rest : List UInt8) :
    decode (encode cp ++ rest) = some (cp, trail cp) := by
  obtain ⟨byte, said⟩ := lead_encode small
  have whole : cp / 64 ^ trail cp * 64 ^ trail cp + cp % 64 ^ trail cp = cp :=
    Nat.div_add_mod' cp _
  have bits := foldl_continuation (trail cp) (cp / 64 ^ trail cp) cp (by omega)
  rw [encode, List.cons_append, decode, toNat_byte _ byte, said]
  simp [bits, whole]

/-- Bytes below 0x80 stand for themselves only. -/
theorem high_of_mem_encode {cp : Nat} (large : 0x80 ≤ cp) (small : cp < 2 ^ 32) {byte : UInt8}
    (member : byte ∈ encode cp) : 0x80 ≤ byte.toNat := by
  have later : ∀ n number, ∀ byte ∈ continuation n number, 0x80 ≤ byte.toNat := by
    intro n
    induction n with
    | zero => intro _ _ member; cases member
    | succ n ih =>
      intro number byte member
      rcases List.mem_append.mp member with before | last
      · exact ih _ _ before
      · rw [List.mem_singleton.mp last, toNat_byte _ (by omega)]
        omega
  rcases List.mem_cons.mp member with rfl | behind
  · rw [toNat_byte _ (lead_encode small).1]
    have marked : 0x80 ≤ marker (trail cp) := by
      rw [trail, if_neg (by omega)]
      split_ifs <;> decide
    exact le_trans marked (Nat.le_add_right _ _)
  · exact later _ _ _ behind

end Hadouken.ExtendedUtf8
