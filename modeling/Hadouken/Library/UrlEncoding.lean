import Hadouken.Library.Separation

/-!
# Form encoding

The content of a form is one text: fields separated by `&`, each a name and a
value with `=` between them. In a name or value `+` stands for a space and `%`
with two hexadecimal digits for a byte. The bytes of a name or value are UTF-8.

A percent encoder keeps some characters and writes the bytes of the others. What
it keeps decides what a reader of the form finds again.
-/

namespace Hadouken.UrlEncoding

open Separation

/-- A text, by its characters. -/
abbrev Text := List Char

/-- A row of bytes. -/
abbrev Bytes := List UInt8

/-- The UTF-8 bytes of a text. -/
def utf8 (text : Text) : Bytes := text.flatMap String.utf8EncodeChar

/-- Readers of UTF-8 differ on bytes that are no text, and agree on the others. -/
structure Utf8Decoder where
  decode : Bytes → Text
  decode_utf8 : ∀ text, decode (utf8 text) = text

/-- The decoder that reads all of the bytes, or a replacement character. -/
def wholeDecoder : Utf8Decoder where
  decode bytes :=
    match bytes.toByteArray.utf8Decode? with
    | some text => text.toList
    | none => [Char.ofNat 0xFFFD]
  decode_utf8 text := by
    have read : (utf8 text).toByteArray.utf8Decode? = some text.toArray :=
      List.utf8Decode?_utf8Encode
    rw [read]

section Digits

/-- A hexadecimal digit, in capital letters. -/
def hexDigit (n : Nat) : Char := Char.ofNat (if n < 10 then 48 + n else 55 + n)

/-- The value of a hexadecimal digit, in small or capital letters. -/
def hexValue (c : Char) : Option Nat :=
  if '0' ≤ c ∧ c ≤ '9' then some (c.toNat - 48)
  else if 'A' ≤ c ∧ c ≤ 'F' then some (c.toNat - 55)
  else if 'a' ≤ c ∧ c ≤ 'f' then some (c.toNat - 87)
  else none

/-- A digit that is written is read back. -/
theorem hexValue_hexDigit : ∀ n < 16, hexValue (hexDigit n) = some n := by decide

/-- No digit separates fields. -/
theorem hexDigit_ne_ampersand : ∀ n < 16, hexDigit n ≠ '&' := by decide

/-- A byte behind a percent sign. -/
def percentByte (byte : UInt8) : Text :=
  ['%', hexDigit (byte.toNat / 16), hexDigit (byte.toNat % 16)]

end Digits

section Forms

/-- The byte that two digits stand for. -/
def escapedByte (high low : Char) : Option UInt8 := do
  return UInt8.ofNat (16 * (← hexValue high) + (← hexValue low))

/-- The bytes of a name or value. A `%` without two digits stands for itself. -/
def formDecode : Text → Bytes
  | [] => []
  | '+' :: rest => 0x20 :: formDecode rest
  | '%' :: high :: low :: rest =>
      match escapedByte high low with
      | some byte => byte :: formDecode rest
      | none => 0x25 :: formDecode (high :: low :: rest)
  | c :: rest => String.utf8EncodeChar c ++ formDecode rest

/-- The name of a field ends at the first `=`. -/
def fieldOf (chunk : Text) : Bytes × Bytes :=
  (formDecode (chunk.takeWhile (· ≠ '=')), formDecode ((chunk.dropWhile (· ≠ '=')).drop 1))

/-- The fields between ampersands, empty ones left out. -/
def fields (content : Text) : List (Bytes × Bytes) :=
  ((content.splitOn '&').filter (· ≠ [])).map fieldOf

/-- The names and values of a form. -/
def parseForm (decoder : Utf8Decoder) (content : Text) : List (Text × Text) :=
  (fields content).map fun field => (decoder.decode field.1, decoder.decode field.2)

end Forms

section Decoding

/-- A plus stands for a space. -/
theorem formDecode_plus (rest : Text) : formDecode ('+' :: rest) = 0x20 :: formDecode rest := by
  simp [formDecode]

/-- Other characters stand for their bytes. -/
theorem formDecode_char {c : Char} (percent : c ≠ '%') (plus : c ≠ '+') (rest : Text) :
    formDecode (c :: rest) = String.utf8EncodeChar c ++ formDecode rest := by
  rw [formDecode]
  · exact plus
  · intro high low after sign
    exact absurd sign percent

/-- A byte behind a percent sign is read back. -/
theorem formDecode_percentByte (byte : UInt8) (rest : Text) :
    formDecode (percentByte byte ++ rest) = byte :: formDecode rest := by
  have small : byte.toNat < 256 := UInt8.toNat_lt_size byte
  have high := hexValue_hexDigit (byte.toNat / 16) (by omega)
  have low := hexValue_hexDigit (byte.toNat % 16) (by omega)
  have whole : 16 * (byte.toNat / 16) + byte.toNat % 16 = byte.toNat := by omega
  have read : escapedByte (hexDigit (byte.toNat / 16)) (hexDigit (byte.toNat % 16)) =
      some (UInt8.ofNat (16 * (byte.toNat / 16) + byte.toNat % 16)) := by
    rw [escapedByte, high, low]
    rfl
  rw [whole, UInt8.ofNat_toNat] at read
  simp [percentByte, formDecode, read]

/-- So are many of them. -/
theorem formDecode_percentBytes (bytes : Bytes) (rest : Text) :
    formDecode (bytes.flatMap percentByte ++ rest) = bytes ++ formDecode rest := by
  induction bytes with
  | nil => simp
  | cons byte bytes ih =>
    rw [List.flatMap_cons, List.append_assoc, formDecode_percentByte, ih, List.cons_append]

end Decoding

section Encoding

-- The characters an encoder keeps.
variable (keep : Char → Bool)

/-- Characters are kept or written byte by byte. -/
def percentEncode (text : Text) : Text :=
  text.flatMap fun c => if keep c then [c] else (String.utf8EncodeChar c).flatMap percentByte

/-- What a reader finds of a text: a `+` that was kept is a space. -/
def readBack (text : Text) : Text := text.map fun c => if keep c ∧ c = '+' then ' ' else c

/-- Texts are encoded one after the other. -/
theorem percentEncode_append (front back : Text) :
    percentEncode keep (front ++ back) = percentEncode keep front ++ percentEncode keep back :=
  List.flatMap_append

/-- An encoded text is read back, but for pluses that were kept. -/
theorem formDecode_percentEncode (escaped : keep '%' = false) (text rest : Text) :
    formDecode (percentEncode keep text ++ rest) =
      utf8 (readBack keep text) ++ formDecode rest := by
  induction text with
  | nil => simp [percentEncode, readBack, utf8]
  | cons c text ih =>
    have others : percentEncode keep (c :: text) ++ rest =
        percentEncode keep [c] ++ (percentEncode keep text ++ rest) := by
      rw [← List.append_assoc, ← percentEncode_append, List.singleton_append]
    have read : utf8 (readBack keep (c :: text)) =
        utf8 (readBack keep [c]) ++ utf8 (readBack keep text) := by
      simp [readBack, utf8]
    rw [others, read, List.append_assoc, ← ih]
    by_cases kept : keep c = true
    · by_cases plus : c = '+'
      · subst plus
        have space : String.utf8EncodeChar ' ' = [0x20] := by decide
        simp [percentEncode, readBack, kept, utf8, formDecode_plus, space]
      · have percent : c ≠ '%' := by
          rintro rfl
          simp [escaped] at kept
        simp [percentEncode, readBack, kept, utf8, plus, formDecode_char percent plus]
    · simp [percentEncode, readBack, kept, utf8, formDecode_percentBytes]

/-- A separator that is kept stands where it stood in the text. -/
theorem ampersand_mem_percentEncode_iff (text : Text) :
    '&' ∈ percentEncode keep text ↔ keep '&' = true ∧ '&' ∈ text := by
  have percent (bytes : Bytes) : '&' ∉ bytes.flatMap percentByte := by
    simp only [List.mem_flatMap, percentByte, List.mem_cons, List.not_mem_nil, or_false,
      not_exists, not_and, not_or]
    intro byte _
    have small : byte.toNat < 256 := UInt8.toNat_lt_size byte
    refine ⟨by decide, ?_, ?_⟩
    · exact (hexDigit_ne_ampersand (byte.toNat / 16) (by omega)).symm
    · exact (hexDigit_ne_ampersand (byte.toNat % 16) (by omega)).symm
  unfold percentEncode
  rw [List.mem_flatMap]
  constructor
  · rintro ⟨c, member, found⟩
    by_cases kept : keep c = true
    · obtain rfl : '&' = c := by simpa [kept] using found
      exact ⟨kept, member⟩
    · rw [if_neg kept] at found
      exact absurd found (percent _)
  · rintro ⟨kept, member⟩
    exact ⟨'&', member, by simp [kept]⟩

/-- Only a kept plus is lost. -/
theorem readBack_eq_iff (text : Text) :
    readBack keep text = text ↔ ∀ c ∈ text, keep c = true → c ≠ '+' := by
  induction text with
  | nil => simp [readBack]
  | cons c text ih =>
    have first : (if keep c = true ∧ c = '+' then ' ' else c) = c ↔
        (keep c = true → c ≠ '+') := by
      by_cases plus : c = '+'
      · subst plus
        simp
      · simp [plus]
    rw [List.forall_mem_cons, ← ih, ← first]
    simp [readBack]

end Encoding

section Reading

/-- A field ends where the next separator stands. -/
theorem fields_cons {chunk : Text} (single : '&' ∉ chunk) (some_text : chunk ≠ [])
    (rest : Text) : fields (chunk ++ '&' :: rest) = fieldOf chunk :: fields rest := by
  rw [fields, List.splitOn_append_cons_self_of_not_mem single]
  simp [some_text, fields]

/-- Without an ampersand there is one field. -/
theorem fields_single {chunk : Text} (single : '&' ∉ chunk) (some_text : chunk ≠ []) :
    fields chunk = [fieldOf chunk] := by
  rw [fields, List.splitOn_eq_singleton single]
  simp [some_text]

/-- The name is in front of the first equals sign, the value behind it. -/
theorem fieldOf_named {name : Text} (named : '=' ∉ name) (value : Text) :
    fieldOf (name ++ '=' :: value) = (formDecode name, formDecode value) := by
  have before : ∀ c ∈ name, decide (c ≠ '=') = true := by
    intro c member
    simpa using fun same : c = '=' => named (same ▸ member)
  rw [fieldOf, List.takeWhile_append_of_pos before, List.dropWhile_append_of_pos before]
  simp

end Reading

section Values

variable (decoder : Utf8Decoder) {keep : Char → Bool}

/-- A name that no encoder changes and no reader cuts. -/
def PlainName (keep : Char → Bool) (name : Text) : Prop :=
  ∀ c ∈ name, keep c = true ∧ c ≠ '&' ∧ c ≠ '=' ∧ c ≠ '+'

/-- A text whose characters are kept is its own encoding. -/
theorem percentEncode_eq_self {text : Text} (kept : ∀ c ∈ text, keep c = true) :
    percentEncode keep text = text := by
  unfold percentEncode
  rw [List.flatMap_congr (g := fun c => [c])]
  · simp
  · intro c member
    simp [kept c member]

/-- An encoded text is decoded to what is read back of it. -/
theorem decode_percentEncode (escaped : keep '%' = false) (text : Text) :
    decoder.decode (formDecode (percentEncode keep text)) = readBack keep text := by
  have read := formDecode_percentEncode keep escaped text []
  rw [List.append_nil, formDecode, List.append_nil] at read
  rw [read, decoder.decode_utf8]

/-- So is the value of a field with a plain name. -/
theorem decode_fieldOf (escaped : keep '%' = false) {name : Text} (plain : PlainName keep name)
    (value : Text) :
    (fun field : Bytes × Bytes => (decoder.decode field.1, decoder.decode field.2))
        (fieldOf (name ++ '=' :: percentEncode keep value)) =
      (name, readBack keep value) := by
  have named : '=' ∉ name := fun member => (plain '=' member).2.2.1 rfl
  have same : readBack keep name = name :=
    (readBack_eq_iff keep name).mpr fun c member _ => (plain c member).2.2.2
  have self := percentEncode_eq_self fun c member => (plain c member).1
  have read := decode_percentEncode decoder escaped name
  rw [self, same] at read
  simp only [fieldOf_named named, read, decode_percentEncode decoder escaped value]

/-- A field has no ampersand where its value has none. -/
theorem chunk_single {name value : Text} (plain : PlainName keep name) (whole : '&' ∉ value) :
    '&' ∉ name ++ '=' :: percentEncode keep value := by
  simp only [List.mem_append, List.mem_cons, not_or]
  refine ⟨fun member => (plain '&' member).2.1 rfl, by decide, ?_⟩
  intro member
  exact whole ((ampersand_mem_percentEncode_iff keep value).mp member).2

/-- A value without `&` is one field. -/
theorem parseForm_cons (escaped : keep '%' = false) {name value : Text}
    (plain : PlainName keep name) (whole : '&' ∉ value) (rest : Text) :
    parseForm decoder (name ++ '=' :: percentEncode keep value ++ '&' :: rest) =
      (name, readBack keep value) :: parseForm decoder rest := by
  unfold parseForm
  rw [fields_cons (chunk_single plain whole) (by simp), List.map_cons]
  rw [← decode_fieldOf decoder escaped plain value]

/-- A single field is parsed. -/
theorem parseForm_single (escaped : keep '%' = false) {name value : Text}
    (plain : PlainName keep name) (whole : '&' ∉ value) :
    parseForm decoder (name ++ '=' :: percentEncode keep value) =
      [(name, readBack keep value)] := by
  unfold parseForm
  rw [fields_single (chunk_single plain whole) (by simp), List.map_cons, List.map_nil]
  rw [← decode_fieldOf decoder escaped plain value]

/-- An encoder that keeps `&` lets it end the field: what is read for the value is
shorter than the value. -/
theorem parseForm_cut (escaped : keep '%' = false) (kept : keep '&' = true)
    {name value : Text} (plain : PlainName keep name) (cut : '&' ∈ value) (tail : Text) :
    ∃ read others, parseForm decoder (name ++ '=' :: percentEncode keep value ++ tail) =
      (name, read) :: others ∧ read.length < value.length := by
  obtain ⟨front, back, rfl, whole⟩ := List.eq_append_cons_of_mem cut
  have shape : name ++ '=' :: percentEncode keep (front ++ '&' :: back) ++ tail =
      name ++ '=' :: percentEncode keep front ++ '&' :: (percentEncode keep back ++ tail) := by
    simp [percentEncode, kept]
  refine ⟨_, _, shape ▸ parseForm_cons decoder escaped plain whole _, ?_⟩
  simp [readBack]

end Values

end Hadouken.UrlEncoding
