import Mathlib.Data.List.TakeWhile

/-!
# Texts of code units as bytes

A text is a list of 16-bit code units. Each unit is written by itself, in one to
three bytes, as UTF-8 writes a character: halves of a surrogate pair are not put
together. Zero is the one unit that is written with a zero byte.

Of bytes that are not written so the decoder makes no promise.
-/

namespace Hadouken.CodeUnits

/-- The bytes of one unit. -/
def encodeUnit (unit : UInt16) : List UInt8 :=
  let n := unit.toNat
  if n < 0x80 then [UInt8.ofNat n]
  else if n < 0x800 then [UInt8.ofNat (0xC0 + n / 64), UInt8.ofNat (0x80 + n % 64)]
  else
    [UInt8.ofNat (0xE0 + n / 4096), UInt8.ofNat (0x80 + n / 64 % 64), UInt8.ofNat (0x80 + n % 64)]

/-- The bytes of the code units. -/
def encode (units : List UInt16) : List UInt8 := units.flatMap encodeUnit

/-- The units that bytes spell. -/
def decode : List UInt8 → List UInt16
  | [] => []
  | first :: rest =>
      if first.toNat < 0x80 then UInt16.ofNat first.toNat :: decode rest
      else if first.toNat < 0xE0 then
        match rest with
        | [] => []
        | second :: rest =>
            UInt16.ofNat ((first.toNat - 0xC0) * 64 + (second.toNat - 0x80)) :: decode rest
      else
        match rest with
        | second :: third :: rest =>
            UInt16.ofNat ((first.toNat - 0xE0) * 4096 + (second.toNat - 0x80) * 64 +
              (third.toNat - 0x80)) :: decode rest
        | _ => []

/-- Code units are encoded one after the other. -/
theorem encode_cons (unit : UInt16) (rest : List UInt16) :
    encode (unit :: rest) = encodeUnit unit ++ encode rest := List.flatMap_cons

section Decoding

variable (first second third : UInt8) (rest : List UInt8)

/-- A byte below 128 is a unit. -/
theorem decode_one (single : first.toNat < 0x80) :
    decode (first :: rest) = UInt16.ofNat first.toNat :: decode rest := by
  cases rest <;> simp [decode, single]

/-- Two bytes are a unit. -/
theorem decode_two (lower : ¬ first.toNat < 0x80) (upper : first.toNat < 0xE0) :
    decode (first :: second :: rest) =
      UInt16.ofNat ((first.toNat - 0xC0) * 64 + (second.toNat - 0x80)) :: decode rest := by
  rw [decode, if_neg lower, if_pos upper]

/-- Three bytes are a unit. -/
theorem decode_three (lower : ¬ first.toNat < 0xE0) :
    decode (first :: second :: third :: rest) =
      UInt16.ofNat ((first.toNat - 0xE0) * 4096 + (second.toNat - 0x80) * 64 +
        (third.toNat - 0x80)) :: decode rest := by
  rw [decode, if_neg (by omega), if_neg lower]

end Decoding

/-- A small number is its byte. -/
theorem toNat_byte (number : Nat) (small : number < 256) : (UInt8.ofNat number).toNat = number := by
  rw [UInt8.toNat_ofNat', Nat.mod_eq_of_lt (by omega)]

/-- The bytes of a unit are read back. -/
theorem decode_encodeUnit (unit : UInt16) (rest : List UInt8) :
    decode (encodeUnit unit ++ rest) = unit :: decode rest := by
  have small := unit.toNat_lt
  have whole : UInt16.ofNat unit.toNat = unit := UInt16.ofNat_toNat
  unfold encodeUnit
  dsimp only
  split
  · rename_i one
    have byte := toNat_byte unit.toNat (by omega)
    rw [List.singleton_append, decode_one _ _ (by omega), byte, whole]
  · split
    · rename_i _ two
      have first := toNat_byte (0xC0 + unit.toNat / 64) (by omega)
      have second := toNat_byte (0x80 + unit.toNat % 64) (by omega)
      have sum : (0xC0 + unit.toNat / 64 - 0xC0) * 64 + (0x80 + unit.toNat % 64 - 0x80) =
          unit.toNat := by omega
      rw [List.cons_append, List.singleton_append, decode_two _ _ _ (by omega) (by omega), first,
        second, sum, whole]
    · rename_i _ three
      have first := toNat_byte (0xE0 + unit.toNat / 4096) (by omega)
      have second := toNat_byte (0x80 + unit.toNat / 64 % 64) (by omega)
      have third := toNat_byte (0x80 + unit.toNat % 64) (by omega)
      have sum : (0xE0 + unit.toNat / 4096 - 0xE0) * 4096 +
          (0x80 + unit.toNat / 64 % 64 - 0x80) * 64 + (0x80 + unit.toNat % 64 - 0x80) =
          unit.toNat := by omega
      rw [List.cons_append, List.cons_append, List.singleton_append,
        decode_three _ _ _ _ (by omega), first, second, third, sum, whole]

/-- A text is read back from its bytes. -/
theorem decode_encode (units : List UInt16) : decode (encode units) = units := by
  induction units with
  | nil => rfl
  | cons unit rest ih => rw [encode_cons, decode_encodeUnit, ih]

/-- No other unit than zero has a zero byte. -/
theorem ne_zero_of_mem_encodeUnit (unit : UInt16) (given : unit ≠ 0) (byte : UInt8)
    (member : byte ∈ encodeUnit unit) : byte ≠ 0 := by
  rintro rfl
  have small := unit.toNat_lt
  have positive : unit.toNat ≠ 0 := fun zero => given (UInt16.toNat_inj.mp zero)
  have byte : ∀ number, 0 < number → number < 256 → (0 : UInt8) ≠ UInt8.ofNat number := by
    intro number given less same
    have equal := congrArg UInt8.toNat same
    rw [toNat_byte number less] at equal
    simp at equal
    omega
  unfold encodeUnit at member
  dsimp only at member
  split at member
  · exact byte _ (by omega) (by omega) (List.mem_singleton.mp member)
  · split at member
    · rcases List.mem_cons.mp member with same | member
      · exact byte _ (by omega) (by omega) same
      · exact byte _ (by omega) (by omega) (List.mem_singleton.mp member)
    · rcases List.mem_cons.mp member with same | member
      · exact byte _ (by omega) (by omega) same
      · rcases List.mem_cons.mp member with same | member
        · exact byte _ (by omega) (by omega) same
        · exact byte _ (by omega) (by omega) (List.mem_singleton.mp member)

/-- The bytes up to a zero byte are those of the units up to zero. -/
theorem takeWhile_encode (units : List UInt16) :
    (encode units).takeWhile (fun byte => byte ≠ 0) =
      encode (units.takeWhile fun unit => unit ≠ 0) := by
  induction units with
  | nil => rfl
  | cons unit rest ih =>
    by_cases zero : unit = 0
    · subst zero
      simp [encodeUnit, encode]
    · have bytes : ∀ byte ∈ encodeUnit unit, decide (byte ≠ 0) = true := fun byte member =>
        decide_eq_true (ne_zero_of_mem_encodeUnit unit zero byte member)
      rw [encode_cons, List.takeWhile_append_of_pos bytes, ih,
        List.takeWhile_cons_of_pos (by simpa using zero), encode_cons]

end Hadouken.CodeUnits
