import Hadouken.JsonDecoding
import Hadouken.BoundaryData
import Hadouken.Library.Members

/-!
# The JSON encoder

`JSON.stringify` and `duk_json_encode` write the text of a document. Strings are
bytes in extended UTF-8: a character below 0x80 is looked at by itself, and the
others are decoded and encoded again. With a gap, each entry gets a line of its
own, indented once more than what it stands in.

A document that nests within the limit of the encoder is read back from its text,
also when the text went through a file.
-/

namespace Hadouken.JsonEncoding

open JsonTexts JsonDecoding ExtendedUtf8

variable {ν : Type}

/-- `duk_lc_digits`. -/
def lcDigit (n : Nat) : UInt8 := UInt8.ofNat (if n < 10 then 0x30 + n else 0x57 + n)

/-- The last `n` hexadecimal digits. -/
def lcDigits : Nat → Nat → List UInt8
  | 0, _ => []
  | n + 1, cp => lcDigit (cp / 16 ^ n % 16) :: lcDigits n cp

/-- `duk__emit_esc_auto`. -/
def emitEscAuto (cp : Nat) : List UInt8 :=
  if cp < 0x10000 then 0x5c :: 0x75 :: lcDigits 4 cp else 0x55 :: 0x2b :: lcDigits 8 cp

/-- `duk__quote_esc`: control characters with their letters. -/
def quoteEscs : List (UInt8 × UInt8) :=
  [(0x08, 0x62), (0x09, 0x74), (0x0a, 0x6e), (0x0c, 0x66), (0x0d, 0x72)]

/-- `duk__enc_quote_string` for a character below 0x80. -/
def emitAscii (cp : UInt8) : List UInt8 :=
  if cp = 0x22 ∨ cp = 0x5c then [0x5c, cp]
  else if cp < 0x20 then
    match quoteEscs.lookup cp with
    | some letter => [0x5c, letter]
    | none => emitEscAuto cp.toNat
  else [cp]

/-- For the others. The two line separators of Unicode are escaped. -/
def emitDecoded (cp : Nat) : List UInt8 :=
  if cp = 0x2028 ∨ cp = 0x2029 then emitEscAuto cp else encode cp

/-- The loop of `duk__enc_quote_string`, which skips the bytes of a decoded
character. A byte that does not decode is taken for a character. -/
def quoteFrom : Nat → List UInt8 → List UInt8
  | _, [] => []
  | skip + 1, _ :: rest => quoteFrom skip rest
  | 0, byte :: rest =>
      if byte.toNat ≤ 0x7f then emitAscii byte ++ quoteFrom 0 rest
      else
        match ExtendedUtf8.decode (byte :: rest) with
        | some (cp, more) => emitDecoded cp ++ quoteFrom more rest
        | none => emitDecoded byte.toNat ++ quoteFrom 0 rest

/-- `duk__enc_quote_string`. -/
def quoteString (text : List UInt8) : List UInt8 := 0x22 :: (quoteFrom 0 text ++ [0x22])

section Value

variable (write : ν → List UInt8) (gap : List UInt8)

/-- A new line, if there is a gap. -/
def newline (indent : List UInt8) : List UInt8 := if gap.isEmpty then [] else 0x0a :: indent

/-- The loop over the entries, whose texts are given. -/
def encEntries (indent : List UInt8) : Bool → List (List UInt8) → List UInt8
  | _, [] => []
  | first, text :: rest =>
      (if first then [] else [0x2c]) ++ newline gap indent ++ text ++ encEntries indent false rest

/-- What is written between two brackets, `stepback` being the old indentation. -/
def encListing (stepback : List UInt8) (texts : List (List UInt8)) : List UInt8 :=
  encEntries gap (stepback ++ gap) true texts ++ if texts.isEmpty then [] else newline gap stepback

/-- A member in `duk__enc_object`. -/
def encMember (value : Document ν → Option (List UInt8)) (member : List UInt8 × Document ν) :
    Option (List UInt8) :=
  (value member.2).map fun text =>
    quoteString member.1 ++ (if gap.isEmpty then [0x3a] else [0x3a, 0x20]) ++ text

/-- `duk__enc_array`. -/
def encArray (stepback : List UInt8) (value : Document ν → Option (List UInt8))
    (items : List (Document ν)) : Option (List UInt8) :=
  (items.mapM value).map fun texts => 0x5b :: (encListing gap stepback texts ++ [0x5d])

/-- `duk__enc_object`. -/
def encObject (stepback : List UInt8) (value : Document ν → Option (List UInt8))
    (members : List (List UInt8 × Document ν)) : Option (List UInt8) :=
  (members.mapM (encMember gap value)).map fun texts =>
    0x7b :: (encListing gap stepback texts ++ [0x7d])

/-- `duk__enc_value2`. The conversion of a finite number is a parameter. -/
def encValue (array : List (Document ν) → Option (List UInt8))
    (object : List (List UInt8 × Document ν) → Option (List UInt8)) :
    Document ν → Option (List UInt8)
  | .null => some [0x6e, 0x75, 0x6c, 0x6c]
  | .boolean true => some [0x74, 0x72, 0x75, 0x65]
  | .boolean false => some [0x66, 0x61, 0x6c, 0x73, 0x65]
  | .number value => some (write value)
  | .string text => some (quoteString text)
  | .array items => array items
  | .object members => object members

/-- `duk__enc_value2` with so many levels left to `recursion_limit`, beyond which
it throws, and the indentation so far. -/
def encodeValue : Nat → List UInt8 → Document ν → Option (List UInt8)
  | 0, _ => encValue write (fun _ => none) fun _ => none
  | limit + 1, indent => encValue write (encArray gap indent (encodeValue limit (indent ++ gap)))
      (encObject gap indent (encodeValue limit (indent ++ gap)))

/-- `duk_bi_json_stringify_helper`, on the document of a value. -/
def stringify (recursionLimit : Nat) (document : Document ν) : Option (List UInt8) :=
  encodeValue write gap recursionLimit [] document

end Value

section Strings

/-- A digit that is written is read back. -/
theorem hexValue_lcDigit : ∀ n < 16, hexValue (lcDigit n) = some n := by decide

/-- Texts in extended UTF-8. -/
def Textual (text : List UInt8) : Prop := ∃ cps, (∀ cp ∈ cps, cp < 2 ^ 32) ∧ text = encodeAll cps

/-- An escape of a code unit spells it. -/
theorem quoted_escape (cp : Nat) (small : cp < 0x10000) {body text : List UInt8}
    (more : Quoted body text) : Quoted (emitEscAuto cp ++ body) (encode cp ++ text) := by
  have digit (n : Nat) := hexValue_lcDigit (cp / 16 ^ n % 16) (Nat.mod_lt _ (by decide))
  have whole : ((cp / 16 ^ 3 % 16 * 16 + cp / 16 ^ 2 % 16) * 16 + cp / 16 ^ 1 % 16) * 16 +
      cp / 16 ^ 0 % 16 = cp := by omega
  have spelled := Quoted.unit (digit 3) (digit 2) (digit 1) (digit 0) more
  rw [whole] at spelled
  rw [emitEscAuto, if_pos small]
  exact spelled

/-- The short escapes are those of the grammar. -/
theorem listed_of_lookup {cp letter : UInt8} (found : quoteEscs.lookup cp = some letter) :
    (letter, cp) ∈ escapes := by
  have back : ∀ pair ∈ quoteEscs, (pair.2, pair.1) ∈ escapes := by simp [quoteEscs, escapes]
  exact back _ (mem_of_lookup cp letter quoteEscs found)

/-- What is written for a character below 128 spells it. -/
theorem quoted_ascii {cp : UInt8} (small : cp.toNat < 0x80) {body text : List UInt8}
    (more : Quoted body text) : Quoted (emitAscii cp ++ body) (cp :: text) := by
  unfold emitAscii
  split_ifs with special control
  · rcases special with rfl | rfl
    · exact .short (by decide) more
    · exact .short (by decide) more
  · split
    · rename_i letter found
      exact .short (listed_of_lookup found) more
    · have escaped := quoted_escape cp.toNat (by omega) more
      rwa [encode_ascii small, UInt8.ofNat_toNat] at escaped
  · obtain ⟨quote, backslash⟩ := not_or.mp special
    exact .plain (UInt8.not_lt.mp control) quote backslash more

/-- Bytes from 0x80 on stand for themselves. -/
theorem quoted_high {bytes body text : List UInt8} (high : ∀ byte ∈ bytes, 0x80 ≤ byte.toNat)
    (more : Quoted body text) : Quoted (bytes ++ body) (bytes ++ text) := by
  induction bytes with
  | nil => exact more
  | cons byte rest ih =>
    have large := high byte List.mem_cons_self
    refine .plain ?_ ?_ ?_ (ih fun other member => high other (List.mem_cons_of_mem _ member))
    · exact UInt8.le_iff_toNat_le.mpr (le_trans (by decide) large)
    · rintro rfl
      exact absurd large (by decide)
    · rintro rfl
      exact absurd large (by decide)

/-- Bytes that were taken with a character are passed over. -/
theorem quoteFrom_skip (bytes rest : List UInt8) :
    quoteFrom bytes.length (bytes ++ rest) = quoteFrom 0 rest := by
  induction bytes with
  | nil => rfl
  | cons byte bytes ih => exact ih

/-- A character that is not looked at by itself is decoded. -/
theorem quoteFrom_encode {cp : Nat} (large : 0x80 ≤ cp) (small : cp < 2 ^ 32) (rest : List UInt8) :
    quoteFrom 0 (encode cp ++ rest) = emitDecoded cp ++ quoteFrom 0 rest := by
  have read := decode_encode small rest
  have first : ∀ byte ∈ encode cp, 0x80 ≤ byte.toNat := fun byte =>
    high_of_mem_encode large small
  have length : (continuation (trail cp) cp).length = trail cp := length_continuation _ _
  unfold encode at read first ⊢
  have lead := first _ List.mem_cons_self
  rw [List.cons_append] at read ⊢
  rw [quoteFrom, if_neg (by omega), read]
  dsimp only
  rw [← quoteFrom_skip (continuation (trail cp) cp) rest, length]

/-- A text is quoted so that it can be read back. -/
theorem quoted_quoteFrom {text : List UInt8} (textual : Textual text) :
    Quoted (quoteFrom 0 text) text := by
  obtain ⟨cps, small, rfl⟩ := textual
  induction cps with
  | nil => exact .empty
  | cons cp rest ih =>
    have bound := small cp List.mem_cons_self
    have more := ih fun other member => small other (List.mem_cons_of_mem _ member)
    rw [encodeAll_cons]
    by_cases ascii : cp < 0x80
    · have byte := toNat_byte cp (by omega)
      rw [encode_ascii ascii, List.singleton_append, quoteFrom, if_pos (by omega)]
      exact quoted_ascii (by omega) more
    · rw [quoteFrom_encode (by omega) bound]
      unfold emitDecoded
      split_ifs with separator
      · exact quoted_escape cp (by omega) more
      · exact quoted_high (fun byte => high_of_mem_encode (by omega) bound) more

end Strings

section Listings

variable {α : Type}

/-- A new line is white space where its indentation is. -/
theorem white_newline (gap : List UInt8) {indent : List UInt8} (indented : White indent) :
    White (newline gap indent) := by
  unfold newline
  split_ifs
  · simp [White]
  · rintro byte (_ | ⟨_, member⟩)
    · decide
    · exact indented byte member

/-- Encoded entries are those of the items, in their order. -/
theorem forall₂_of_mapM {β : Type} {f : α → Option β} {items : List α} {texts : List β}
    (mapped : items.mapM f = some texts) :
    List.Forall₂ (fun item text => item ∈ items ∧ f item = some text) items texts := by
  induction items generalizing texts with
  | nil =>
    cases mapped
    exact .nil
  | cons item rest ih =>
    simp only [List.mapM_cons, Option.bind_eq_bind, Option.bind_eq_some_iff, Option.pure_def,
      Option.some.injEq] at mapped
    obtain ⟨text, one, others, more, rfl⟩ := mapped
    refine .cons ⟨List.mem_cons_self, one⟩ ((ih more).imp fun other text found => ?_)
    exact ⟨List.mem_cons_of_mem _ found.1, found.2⟩

/-- All of the items are encoded where each of them is. -/
theorem isSome_mapM {β : Type} (f : α → Option β) (items : List α) :
    (items.mapM f).isSome = true ↔ ∀ item ∈ items, (f item).isSome = true := by
  induction items with
  | nil => simp
  | cons item rest ih =>
    simp only [List.mapM_cons, Option.bind_eq_bind, List.forall_mem_cons, ← ih]
    cases f item with
    | none => simp
    | some text => cases rest.mapM f <;> simp

/-- The loop writes entries with white space around them. -/
theorem written_encListing {gap : List UInt8} (blank : White gap) {stepback : List UInt8}
    (indented : White stepback) {spelling : α → List UInt8 → Prop}
    (grow : ∀ entry left text right, White left → White right → spelling entry text →
      spelling entry (left ++ text ++ right))
    {entries : List α} {texts : List (List UInt8)} (spelled : List.Forall₂ spelling entries texts) :
    Written spelling entries (encListing gap stepback texts) := by
  have front := white_newline gap (white_append indented blank)
  have behind := white_newline gap indented
  have listed : ∀ (more : List α) (texts : List (List UInt8)), List.Forall₂ spelling more texts →
      ∀ first text, spelling first text → ∃ own others,
        newline gap (stepback ++ gap) ++ text ++
            (encEntries gap (stepback ++ gap) false texts ++ newline gap stepback) =
          own ++ others.flatMap (fun other => 0x2c :: other) ∧
        spelling first own ∧ List.Forall₂ spelling more others := by
    intro more texts spelled
    induction spelled with
    | nil =>
      intro first text one
      exact ⟨_, [], by simp [encEntries], grow first _ text _ front behind one, .nil⟩
    | @cons next following more texts one _ ih =>
      intro first text own
      obtain ⟨after, others, split, spelledNext, spelledMore⟩ := ih next following one
      refine ⟨newline gap (stepback ++ gap) ++ text ++ [], after :: others, ?_,
        grow first _ text [] front (by simp [White]) own, .cons spelledNext spelledMore⟩
      rw [List.flatMap_cons, List.cons_append, ← split]
      simp [encEntries]
  cases spelled with
  | nil => simp [Written, encListing, encEntries, White]
  | @cons first text more texts one spelledMore =>
    obtain ⟨own, others, split, spelledFirst, later⟩ := listed more texts spelledMore first text one
    refine ⟨own, others, ?_, spelledFirst, later⟩
    rw [← split]
    simp [encListing, encEntries]

end Listings

section Documents

/-- What is relied on of the conversions of numbers: a numeral begins with a digit
or the minus sign, has the characters of numerals only, and is read back. The two
zeros count as one number. -/
structure Numerals (read : List UInt8 → Option ν) (write : ν → List UInt8) : Prop where
  shape : ∀ value, ∃ first rest, write value = first :: rest ∧
    (digit first = true ∨ first = 0x2d) ∧ ∀ byte ∈ rest, numeral byte = true
  read_write : ∀ value, read (write value) = some value

/-- The same of one number. -/
structure Kept (read : List UInt8 → Option ν) (write : ν → List UInt8) (value : ν) : Prop where
  shape : ∃ first rest, write value = first :: rest ∧ (digit first = true ∨ first = 0x2d) ∧
    ∀ byte ∈ rest, numeral byte = true
  read_write : read (write value) = some value

variable {read : List UInt8 → Option ν} {write : ν → List UInt8}

/-- White space may be added around a padded value. -/
theorem grow_padded {spelling : Document ν → List UInt8 → Prop} (document : Document ν)
    (left text right : List UInt8) (first : White left) (second : White right)
    (padded : Padded (spelling document) text) :
    Padded (spelling document) (left ++ text ++ right) := by
  obtain ⟨before, core, behind, rfl, inner, outer, spelled⟩ := padded
  exact ⟨left ++ before, core, behind ++ right, by simp, white_append first inner,
    white_append outer second, spelled⟩

/-- So may it be around a member. -/
theorem grow_member {spelling : Document ν → List UInt8 → Prop}
    (member : List UInt8 × Document ν) (left text right : List UInt8) (first : White left)
    (second : White right)
    (spelled : Member (fun document => Padded (spelling document)) member text) :
    Member (fun document => Padded (spelling document)) member (left ++ text ++ right) := by
  obtain ⟨before, body, middle, own, rfl, inner, quoted, between, padded⟩ := spelled
  exact ⟨left ++ before, body, middle, own ++ right, by simp, white_append first inner, quoted,
    between, by simpa using grow_padded member.2 [] own right (by simp [White]) second padded⟩

/-- One level of the encoder, given what it writes for arrays and objects. -/
theorem spells_encValue {array : List (Document ν) → Option (List UInt8)}
    {object : List (List UInt8 × Document ν) → Option (List UInt8)}
    {items : List (Document ν) → List UInt8 → Prop}
    {members : List (List UInt8 × Document ν) → List UInt8 → Prop} {document : Document ν}
    {text : List UInt8} (textual : ∀ own ∈ document.strings, Textual own)
    (kept : ∀ value ∈ document.numbers, Kept read write value)
    (arrays : ∀ listed, document = .array listed → array listed = some text →
      Spells read items members document text)
    (objects : ∀ listed, document = .object listed → object listed = some text →
      Spells read items members document text)
    (encoded : encValue write array object document = some text) :
    Spells read items members document text := by
  cases document with
  | null =>
    cases encoded
    exact .null
  | boolean value =>
    cases value <;> cases encoded
    · exact .no
    · exact .yes
  | number value =>
    cases encoded
    have own := kept value List.mem_cons_self
    obtain ⟨first, rest, shape, starts, characters⟩ := own.shape
    have back := own.read_write
    rw [shape] at back ⊢
    exact .number starts characters back
  | string own =>
    cases encoded
    exact .string (quoted_quoteFrom (textual own List.mem_cons_self))
  | array listed => exact arrays listed rfl encoded
  | object listed => exact objects listed rfl encoded

/-- What the encoder writes is a spelling of the document. -/
theorem spelled_encodeValue {gap : List UInt8} (blank : White gap) (limit : Nat)
    {indent : List UInt8} (indented : White indent) {document : Document ν} {text : List UInt8}
    (textual : ∀ own ∈ document.strings, Textual own)
    (kept : ∀ value ∈ document.numbers, Kept read write value)
    (encoded : encodeValue write gap limit indent document = some text) :
    Spelled read limit document text := by
  induction limit generalizing indent document text with
  | zero =>
    refine spells_encValue textual kept ?_ ?_ encoded
    · rintro listed rfl ⟨⟩
    · rintro listed rfl ⟨⟩
  | succ limit ih =>
    have deeper := white_append indented blank
    have none : White [] := by simp [White]
    refine spells_encValue textual kept ?_ ?_ encoded
    · rintro items rfl written
      obtain ⟨texts, mapped, rfl⟩ := Option.map_eq_some_iff.mp written
      refine .array (written_encListing blank indented grow_padded ?_)
      refine (forall₂_of_mapM mapped).imp ?_
      rintro item text ⟨member, one⟩
      have own := ih deeper (fun own inside => textual own (Document.mem_stringsItems member inside))
        (fun value inside => kept value (Document.mem_numbersItems member inside)) one
      exact ⟨[], text, [], by simp, none, none, own⟩
    · rintro members rfl written
      obtain ⟨texts, mapped, rfl⟩ := Option.map_eq_some_iff.mp written
      refine .object (written_encListing blank indented grow_member ?_)
      refine (forall₂_of_mapM mapped).imp ?_
      rintro ⟨name, value⟩ _ ⟨member, one⟩
      obtain ⟨text, encodedOne, rfl⟩ := Option.map_eq_some_iff.mp one
      obtain ⟨named, inner⟩ := Document.mem_stringsMembers member
      have own := ih deeper (fun own inside => textual own (inner own inside))
        (fun value inside => kept value (Document.mem_numbersMembers member inside)) encodedOne
      have quoted := quoted_quoteFrom (textual name named)
      by_cases empty : gap.isEmpty
      · exact ⟨[], quoteFrom 0 name, [], text, by simp [quoteString, empty], none, quoted, none,
          [], text, [], by simp, none, none, own⟩
      · exact ⟨[], quoteFrom 0 name, [], 0x20 :: text, by simp [quoteString, empty], none, quoted,
          none, [0x20], text, [], by simp, by simp [White, white], none, own⟩

/-- The encoder throws on what nests too deep, and on nothing else. -/
theorem isSome_encodeValue (write : ν → List UInt8) (gap : List UInt8) (limit : Nat)
    (indent : List UInt8) (document : Document ν) :
    (encodeValue write gap limit indent document).isSome = true ↔ document.depth ≤ limit := by
  induction limit generalizing indent document with
  | zero =>
    cases document with
    | boolean value => cases value <;> simp [encodeValue, encValue, Document.depth]
    | _ => simp [encodeValue, encValue, Document.depth]
  | succ limit ih =>
    cases document with
    | boolean value => cases value <;> simp [encodeValue, encValue, Document.depth]
    | null | number | string => simp [encodeValue, encValue, Document.depth]
    | array items =>
      rw [encodeValue, encValue, encArray, Option.isSome_map, isSome_mapM, Document.depth,
        Nat.add_le_add_iff_right, Document.depthItems_le_iff]
      simp only [ih]
    | object members =>
      rw [encodeValue, encValue, encObject, Option.isSome_map, isSome_mapM, Document.depth,
        Nat.add_le_add_iff_right, Document.depthMembers_le_iff]
      simp only [encMember, Option.isSome_map, ih]

end Documents

section Files

open BoundaryData

variable (read : List UInt8 → Option ν) (write : ν → List UInt8) (gap : List UInt8)
  (recursionLimit : Nat) (disk : Disk) (path : String)

/-- `fs.writeText(path, JSON.stringify(..))`: nothing is written where the encoder
throws. -/
def saveJson (document : Document ν) : Option Disk :=
  (stringify write gap recursionLimit document).map fun text => (writeBuffer disk path text).1

/-- `JSON.parse(fs.readText(path))`. The text comes as a C string, and `undefined`
is no JSON. -/
def loadJson : Option (Document ν) :=
  match readImpl disk path with
  | (size, some data) => if 0 < size then parse read recursionLimit (cBytes (data ++ [0])) else none
  | (_, none) => none

/-- A terminated text without zero bytes is read whole. -/
theorem cBytes_terminated {data : List UInt8} (clean : 0 ∉ data) : cBytes (data ++ [0]) = data := by
  have all : ∀ byte ∈ data, decide (byte ≠ 0) = true := by
    intro byte member
    rw [decide_eq_true_eq]
    rintro rfl
    exact clean member
  rw [cBytes, List.takeWhile_append_of_pos all]
  simp

/-- A document is saved where it nests within the limit. -/
theorem isSome_saveJson (document : Document ν) :
    (saveJson write gap recursionLimit disk path document).isSome = true ↔
      document.depth ≤ recursionLimit := by
  rw [saveJson, Option.isSome_map]
  exact isSome_encodeValue write gap recursionLimit [] document

variable {read write gap recursionLimit disk path} {document : Document ν} {saved : Disk}

/-- What is saved is loaded again, where the conversions keep the numbers in it. -/
theorem loadJson_saveJson (blank : White gap) (textual : ∀ own ∈ document.strings, Textual own)
    (kept : ∀ value ∈ document.numbers, Kept read write value)
    (written : saveJson write gap recursionLimit disk path document = some saved) :
    loadJson read recursionLimit saved path = some document := by
  obtain ⟨text, encoded, rfl⟩ := Option.map_eq_some_iff.mp written
  have none : White [] := by simp [White]
  have spelled := spelled_encodeValue blank recursionLimit none textual kept encoded
  have clean := zero_not_mem_spelled read recursionLimit document text spelled
  obtain ⟨first, rest, shape, -⟩ := spelled_head spelled
  have found : readImpl (writeBuffer disk path text).1 path = (text.length, some text) :=
    readImpl_writeImpl disk path text
  rw [loadJson, found]
  dsimp only
  rw [if_pos (by simp [shape]), cBytes_terminated clean, parses_iff_spelled]
  exact ⟨[], text, [], by simp, none, none, spelled⟩

/-- No other file is touched. -/
theorem saveJson_frame (written : saveJson write gap recursionLimit disk path document = some saved)
    {other : String} (apart : other ≠ path) : saved other = disk other := by
  obtain ⟨text, -, rfl⟩ := Option.map_eq_some_iff.mp written
  exact Function.update_of_ne apart _ _

variable (read write gap recursionLimit disk path)

/-- A document is saved exactly when it nests within the limit; what is loaded
from the file is then the document, and the other files stay as they were. -/
theorem saved_document_loaded (numerals : Numerals read write) (blank : White gap)
    (document : Document ν) (textual : ∀ own ∈ document.strings, Textual own) :
    ((saveJson write gap recursionLimit disk path document).isSome = true ↔
        document.depth ≤ recursionLimit) ∧
      ∀ saved, saveJson write gap recursionLimit disk path document = some saved →
        loadJson read recursionLimit saved path = some document ∧
          ∀ other ≠ path, saved other = disk other := by
  have kept : ∀ value ∈ document.numbers, Kept read write value :=
    fun value _ => ⟨numerals.shape value, numerals.read_write value⟩
  refine ⟨isSome_saveJson write gap recursionLimit disk path document, fun saved written => ?_⟩
  exact ⟨loadJson_saveJson blank textual kept written, fun other => saveJson_frame written⟩

end Files

/-- Numerals of one digit. -/
def readDigit : List UInt8 → Option (Fin 10)
  | [byte] => (List.finRange 10).find? fun value => byte == UInt8.ofNat (0x30 + value.val)
  | _ => none

/-- The numeral of a digit. -/
def writeDigit (value : Fin 10) : List UInt8 := [UInt8.ofNat (0x30 + value.val)]

/-- A document with a quotation mark for a name. -/
theorem saved_document_loaded_witness :
    ∃ saved, saveJson writeDigit [0x20] 1 (fun _ => none) "a"
        (.object [([0x22], .number 7)]) = some saved ∧
      loadJson readDigit 1 saved "a" = some (.object [([0x22], .number 7)]) := by
  have numerals : Numerals readDigit writeDigit :=
    ⟨fun value => ⟨_, [], rfl, by revert value; decide, by simp⟩, by decide⟩
  have textual : ∀ own ∈ (Document.object [([0x22], .number (7 : Fin 10))]).strings, Textual own := by
    intro own member
    obtain rfl : own = [0x22] := by simpa [Document.strings, Document.stringsMembers] using member
    exact ⟨[0x22], by decide, by decide⟩
  obtain ⟨saves, loads⟩ := saved_document_loaded readDigit writeDigit [0x20] 1 (fun _ => none) "a"
    numerals (by simp [White, white]) (.object [([0x22], .number 7)]) textual
  obtain ⟨saved, written⟩ := Option.isSome_iff_exists.mp
    (saves.mpr (by simp [Document.depth, Document.depthMembers]))
  exact ⟨saved, written, (loads saved written).1⟩

end Hadouken.JsonEncoding
