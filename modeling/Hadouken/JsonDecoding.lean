import Hadouken.Library.JsonTexts
import Mathlib.Data.List.TakeWhile

/-!
# The JSON decoder

`JSON.parse` and `duk_json_decode` run a decoder over the bytes of a text. It
goes forward byte by byte and steps back at two places only: before a number and
before the first value of an array. Any violation ends it with an error.

The decoder accepts the texts of the grammar that nest within its limit, and no
others: no comma is missing or stands behind the last entry, and nothing follows
the value but white space.

The result is the document as it is written: where a name occurs twice in an object,
both members are listed. The object that the engine makes of it keeps the later one.
-/

namespace Hadouken.JsonDecoding

open JsonTexts

variable {α ν : Type}

/-- What goes over a text: a result with what is left, or an error. -/
abbrev Reader (α : Type) := List UInt8 → Option (α × List UInt8)

/-- `duk__dec_eat_white`. -/
def eatWhite (text : List UInt8) : List UInt8 := text.dropWhile white

/-- `duk__dec_get_nonwhite`, which has no result at the end of the text. -/
def getNonwhite (text : List UInt8) : Option (UInt8 × List UInt8) :=
  match eatWhite text with
  | [] => none
  | x :: rest => some (x, rest)

/-- `duk__dec_req_stridx`, for the word without its first character. -/
def reqStridx : List UInt8 → List UInt8 → Option (List UInt8)
  | [], text => some text
  | p :: word, x :: rest => if p = x then reqStridx word rest else none
  | _ :: _, [] => none

/-- `duk__dec_decode_hex_escape`, for four digits. -/
def decodeHexEscape (a b c d : UInt8) : Option Nat := do
  let high ← hexValue a
  let second ← hexValue b
  let third ← hexValue c
  let low ← hexValue d
  return ((high * 16 + second) * 16 + third) * 16 + low

/-- The switch of `duk__dec_string`, but for `u`. -/
def unescape (letter : UInt8) : Option UInt8 :=
  if letter = 0x5c then some 0x5c
  else if letter = 0x22 then some 0x22
  else if letter = 0x2f then some 0x2f
  else if letter = 0x74 then some 0x09
  else if letter = 0x6e then some 0x0a
  else if letter = 0x72 then some 0x0d
  else if letter = 0x66 then some 0x0c
  else if letter = 0x62 then some 0x08
  else none

/-- `duk__dec_string`, behind the quotation mark. -/
def decString (buffer : List UInt8) : Reader (List UInt8)
  | 0x22 :: rest => some (buffer, rest)
  | 0x5c :: 0x75 :: a :: b :: c :: d :: rest =>
      match decodeHexEscape a b c d with
      | some cp => decString (buffer ++ ExtendedUtf8.encode cp) rest
      | none => none
  | 0x5c :: letter :: rest =>
      match unescape letter with
      | some byte => decString (buffer ++ [byte]) rest
      | none => none
  | x :: rest => if x = 0x5c ∨ x < 0x20 then none else decString (buffer ++ [x]) rest
  | [] => none

/-- `duk__dec_number`, from the first character of the numeral on. The conversion
of the characters is a parameter. -/
def decNumber (read : List UInt8 → Option ν) : Reader (Document ν) := fun text =>
  (read (text.takeWhile numeral)).map fun value => (.number value, text.dropWhile numeral)

/-- The loop of `duk__dec_object` and `duk__dec_array`: a comma stands in front of
all entries but the first. At the end of the text an array steps back and reads
its last byte again, which ends in an error as well. -/
def decEntries (close : UInt8) (entry : Reader α) : Nat → List α → Reader (List α)
  | 0, _, _ => none
  | fuel + 1, done, text =>
      match getNonwhite text with
      | none => none
      | some (x, rest) =>
          if x = 0x2c ∧ done.isEmpty = false then
            (entry rest).bind fun (next, rest) => decEntries close entry fuel (done ++ [next]) rest
          else if x = close then some (done, rest)
          else if done.isEmpty then
            (entry (x :: rest)).bind fun (next, rest) =>
              decEntries close entry fuel (done ++ [next]) rest
          else none

/-- The key and the value in `duk__dec_object`. -/
def decMember (value : Reader (Document ν)) : Reader (List UInt8 × Document ν) := fun text =>
  match getNonwhite text with
  | some (0x22, rest) =>
      (decString [] rest).bind fun (key, rest) =>
        match getNonwhite rest with
        | some (0x3a, rest) => (value rest).map fun (document, rest) => ((key, document), rest)
        | _ => none
  | _ => none

/-- `duk__dec_array`, behind the bracket. -/
def decArray (value : Reader (Document ν)) : Reader (List (Document ν)) := fun text =>
  decEntries 0x5d value (text.length + 1) [] text

/-- `duk__dec_object`, behind the bracket. It lists the members in the order in which
the engine puts them into its object, where a later one replaces an earlier one of
the same name. -/
def decObject (value : Reader (Document ν)) : Reader (List (List UInt8 × Document ν)) := fun text =>
  decEntries 0x7d (decMember value) (text.length + 1) [] text

section Value

variable (read : List UInt8 → Option ν) (array : Reader (List (Document ν)))
  (object : Reader (List (List UInt8 × Document ν)))

/-- `duk__dec_value` between the white space. -/
def decBare : Reader (Document ν)
  | [] => none
  | x :: rest =>
      if x = 0x22 then (decString [] rest).map fun (text, rest) => (.string text, rest)
      else if digit x = true ∨ x = 0x2d then decNumber read (x :: rest)
      else if x = 0x74 then (reqStridx [0x72, 0x75, 0x65] rest).map fun rest => (.boolean true, rest)
      else if x = 0x66 then
        (reqStridx [0x61, 0x6c, 0x73, 0x65] rest).map fun rest => (.boolean false, rest)
      else if x = 0x6e then (reqStridx [0x75, 0x6c, 0x6c] rest).map fun rest => (.null, rest)
      else if x = 0x7b then (object rest).map fun (members, rest) => (.object members, rest)
      else if x = 0x5b then (array rest).map fun (items, rest) => (.array items, rest)
      else none

/-- `duk__dec_value`. -/
def decValue : Reader (Document ν) := fun text =>
  (decBare read array object (eatWhite text)).map fun (document, rest) => (document, eatWhite rest)

end Value

/-- `duk__dec_value` with so many levels left to `recursion_limit`. -/
def decode (read : List UInt8 → Option ν) : Nat → Reader (Document ν)
  | 0 => decValue read (fun _ => none) fun _ => none
  | limit + 1 => decValue read (decArray (decode read limit)) (decObject (decode read limit))

/-- `duk_bi_json_parse_helper`, without a reviver. -/
def parse (read : List UInt8 → Option ν) (recursionLimit : Nat) (text : List UInt8) :
    Option (Document ν) :=
  match decode read recursionLimit text with
  | some (document, []) => some document
  | _ => none

section White

/-- White space in front is eaten. -/
theorem eatWhite_append {left : List UInt8} (padding : White left) (text : List UInt8) :
    eatWhite (left ++ text) = eatWhite text :=
  List.dropWhile_append_of_pos padding

/-- Where there is none, nothing is. -/
theorem eatWhite_unpadded {text : List UInt8} (unpadded : Unpadded text) : eatWhite text = text := by
  cases text with
  | nil => rfl
  | cons byte rest =>
    rw [eatWhite, List.dropWhile_cons_of_neg]
    simp [unpadded byte rfl]

/-- What is eaten is white, and what is left begins with something else. -/
theorem eatWhite_split (text : List UInt8) :
    ∃ left, text = left ++ eatWhite text ∧ White left ∧ Unpadded (eatWhite text) := by
  refine ⟨text.takeWhile white, List.takeWhile_append_dropWhile.symm,
    fun byte member => List.mem_takeWhile_imp member, ?_⟩
  intro byte first
  have found := List.head?_dropWhile_not white text
  rw [eatWhite] at first
  simp only [first] at found
  simpa using found

/-- White space in front is passed over. -/
theorem getNonwhite_append {left : List UInt8} (padding : White left) (text : List UInt8) :
    getNonwhite (left ++ text) = getNonwhite text := by
  simp only [getNonwhite, eatWhite_append padding]

/-- Another character is taken at once. -/
theorem getNonwhite_cons {x : UInt8} (dark : white x = false) (rest : List UInt8) :
    getNonwhite (x :: rest) = some (x, rest) := by
  have unpadded : Unpadded (x :: rest) := by
    rintro byte ⟨⟩
    exact dark
  simp only [getNonwhite, eatWhite_unpadded unpadded]

/-- What is taken stood behind white space. -/
theorem getNonwhite_eq_some {text rest : List UInt8} {x : UInt8}
    (got : getNonwhite text = some (x, rest)) :
    ∃ left, text = left ++ x :: rest ∧ White left ∧ white x = false := by
  obtain ⟨left, split, padding, unpadded⟩ := eatWhite_split text
  unfold getNonwhite at got
  cases left_over : eatWhite text with
  | nil => rw [left_over] at got; cases got
  | cons first more =>
    rw [left_over] at got split unpadded
    cases got
    exact ⟨left, split, padding, unpadded _ rfl⟩

end White

section Strings

/-- The short escapes of the grammar are read. -/
theorem unescape_of_listed : ∀ pair ∈ escapes, unescape pair.1 = some pair.2 ∧ pair.1 ≠ 0x75 := by
  simp [escapes, unescape]

/-- No others are. -/
theorem listed_of_unescape {letter byte : UInt8} (meant : unescape letter = some byte) :
    (letter, byte) ∈ escapes := by
  unfold unescape at meant
  split_ifs at meant <;> simp_all [escapes]

/-- A printable character goes into the buffer. -/
theorem decString_plain {byte : UInt8} (printable : 0x20 ≤ byte) (quote : byte ≠ 0x22)
    (backslash : byte ≠ 0x5c) (buffer rest : List UInt8) :
    decString buffer (byte :: rest) = decString (buffer ++ [byte]) rest := by
  rw [decString, if_neg]
  · simp [backslash, UInt8.not_lt.mpr printable]
  · exact fun same => quote same
  · intro a b c d rest same _
    exact backslash same
  · intro letter rest same _
    exact backslash same

/-- So does the character of a short escape. -/
theorem decString_short {letter byte : UInt8} (meant : unescape letter = some byte)
    (other : letter ≠ 0x75) (buffer rest : List UInt8) :
    decString buffer (0x5c :: letter :: rest) = decString (buffer ++ [byte]) rest := by
  rw [decString, meant]
  intro a b c d rest same _
  exact other same

/-- A quoted text is read into the buffer. -/
theorem decString_quoted {body text : List UInt8} (quoted : Quoted body text)
    (buffer rest : List UInt8) :
    decString buffer (body ++ 0x22 :: rest) = some (buffer ++ text, rest) := by
  induction quoted generalizing buffer with
  | empty => simp [decString]
  | plain printable quote backslash _ ih =>
    rw [List.cons_append, decString_plain printable quote backslash, ih, List.append_assoc]
    rfl
  | short listed _ ih =>
    obtain ⟨meant, other⟩ := unescape_of_listed _ listed
    rw [List.cons_append, List.cons_append, decString_short meant other, ih, List.append_assoc]
    rfl
  | unit first next after last _ ih =>
    simp only [List.cons_append, decString, decodeHexEscape, first, next, after, last]
    simp only [Option.bind_eq_bind, Option.bind_some, Option.pure_def, ih, List.append_assoc]

/-- What is read into the buffer was quoted. -/
theorem quoted_of_decString {buffer text out rest : List UInt8}
    (decoded : decString buffer text = some (out, rest)) :
    ∃ body own, text = body ++ 0x22 :: rest ∧ out = buffer ++ own ∧ Quoted body own := by
  fun_induction decString buffer text with
  | case1 buffer rest =>
    cases decoded
    exact ⟨[], [], rfl, by simp, .empty⟩
  | case2 buffer a b c d after cp escaped ih =>
    obtain ⟨body, own, rfl, rfl, quoted⟩ := ih decoded
    simp only [decodeHexEscape, Option.bind_eq_bind, Option.bind_eq_some_iff, Option.pure_def,
      Option.some.injEq] at escaped
    obtain ⟨high, first, second, next, third, later, low, last, rfl⟩ := escaped
    exact ⟨_, _, rfl, by rw [List.append_assoc], .unit first next later last quoted⟩
  | case3 => cases decoded
  | case4 buffer letter after byte _ meant ih =>
    obtain ⟨body, own, rfl, rfl, quoted⟩ := ih decoded
    exact ⟨_, _, rfl, by rw [List.append_assoc]; rfl, .short (listed_of_unescape meant) quoted⟩
  | case5 => cases decoded
  | case6 => cases decoded
  | case7 buffer x after quote _ _ plain ih =>
    obtain ⟨body, own, rfl, rfl, quoted⟩ := ih decoded
    simp only [not_or, UInt8.not_lt] at plain
    exact ⟨_, _, rfl, by rw [List.append_assoc]; rfl,
      .plain plain.2 (fun same => quote same) plain.1 quoted⟩
  | case8 => cases decoded

end Strings

section Readers

/-- A reader finds a spelling in front of what ends it, and nothing else. It takes
the white space behind it. -/
structure Reads (reader : Reader α) (spelling : α → List UInt8 → Prop) : Prop where
  complete : ∀ result text rest, spelling result text → Ends rest →
    reader (text ++ rest) = some (result, rest)
  sound : ∀ text result rest, reader text = some (result, rest) →
    ∃ own, text = own ++ rest ∧ spelling result own ∧ Unpadded rest

/-- The same for what a bracket closes. -/
structure Closes (close : UInt8) (reader : Reader α) (written : α → List UInt8 → Prop) : Prop where
  complete : ∀ result text rest, written result text →
    reader (text ++ close :: rest) = some (result, rest)
  sound : ∀ text result rest, reader text = some (result, rest) →
    ∃ own, text = own ++ close :: rest ∧ written result own

/-- A reader without results finds nothing, and there is nothing to find. -/
theorem closes_nothing (close : UInt8) :
    Closes close (fun _ => none : Reader α) fun _ _ => False where
  complete _ _ _ written := written.elim
  sound _ _ _ read := by cases read

end Readers

section Entries

variable {close : UInt8} {entry : Reader α} {spelling : α → List UInt8 → Prop}
  (reads : Reads entry spelling)
  (bracket : white close = false ∧ numeral close = false ∧ close ≠ 0x2c)

include bracket in
/-- A comma or a bracket ends an entry. -/
theorem ends_later (others : List (List UInt8)) (rest : List UInt8) :
    Ends (others.flatMap (fun other => 0x2c :: other) ++ close :: rest) := by
  cases others with
  | nil =>
    constructor
    · rintro byte ⟨⟩
      exact bracket.1
    · rintro byte ⟨⟩
      exact bracket.2.1
  | cons other others =>
    constructor <;> rintro byte ⟨⟩ <;> decide

include reads bracket in
/-- Behind the first entry, each further one is read. -/
theorem decEntries_later {more : List α} {others : List (List UInt8)}
    (spelled : List.Forall₂ spelling more others) (fuel : Nat) (enough : more.length < fuel)
    (done : List α) (begun : done.isEmpty = false) (rest : List UInt8) :
    decEntries close entry fuel done (others.flatMap (fun other => 0x2c :: other) ++ close :: rest) =
      some (done ++ more, rest) := by
  induction spelled generalizing fuel done with
  | nil =>
    obtain ⟨left, rfl⟩ := Nat.exists_eq_add_one_of_ne_zero (Nat.ne_of_gt enough)
    rw [List.flatMap_nil, List.nil_append, decEntries, getNonwhite_cons bracket.1]
    simp [bracket.2.2]
  | @cons next own more others spelled _ ih =>
    obtain ⟨left, rfl⟩ := Nat.exists_eq_add_one_of_ne_zero (Nat.ne_of_gt (Nat.zero_lt_of_lt enough))
    have further := ih left (Nat.lt_of_succ_lt_succ enough) (done ++ [next]) (by simp)
    have one := reads.complete next own _ spelled (ends_later bracket others rest)
    rw [List.flatMap_cons, List.cons_append, List.cons_append, decEntries,
      getNonwhite_cons (by decide)]
    simp only [begun, and_self, if_true, List.append_assoc, one, Option.bind_some, further]
    simp

include reads in
/-- What is read behind the first entry. -/
theorem later_of_decEntries (fuel : Nat) (done out : List α) (text rest : List UInt8)
    (begun : done.isEmpty = false) (unpadded : Unpadded text)
    (decoded : decEntries close entry fuel done text = some (out, rest)) :
    ∃ more others, out = done ++ more ∧ List.Forall₂ spelling more others ∧
      text = others.flatMap (fun other => 0x2c :: other) ++ close :: rest := by
  induction fuel generalizing done text with
  | zero => cases decoded
  | succ fuel ih =>
    cases text with
    | nil => cases decoded
    | cons x after =>
      rw [decEntries, getNonwhite_cons (unpadded x rfl)] at decoded
      simp only [begun, and_true, Bool.false_eq_true, if_false] at decoded
      split_ifs at decoded with comma closed
      · obtain ⟨⟨next, left⟩, one, further⟩ := Option.bind_eq_some_iff.mp decoded
        obtain ⟨own, rfl, spelled, unpadded⟩ := reads.sound _ _ _ one
        obtain ⟨more, others, rfl, spelledMore, rfl⟩ :=
          ih (done ++ [next]) left (by simp) unpadded further
        exact ⟨next :: more, own :: others, by simp, .cons spelled spelledMore, by simp [comma]⟩
      · cases decoded
        exact ⟨[], [], by simp, .nil, by simp [closed]⟩

include reads bracket in
/-- The loop reads what is written between the brackets. -/
theorem decEntries_closes (entries : Entries close spelling) :
    Closes close (fun text => decEntries close entry (text.length + 1) [] text)
      (Written spelling) where
  complete := by
    intro result text rest written
    have room := length_le_of_written entries written
    cases result with
    | nil =>
      rw [decEntries, getNonwhite_append written, getNonwhite_cons bracket.1]
      simp
    | cons first more =>
      obtain ⟨own, others, rfl, spelled, spelledMore⟩ := written
      obtain ⟨left, x, core, rfl, padding, dark, other, spelled⟩ := entries.head first own spelled
      have one := reads.complete first (x :: core) _ spelled (ends_later bracket others rest)
      have further := decEntries_later reads bracket spelledMore
        ((left ++ x :: core ++ others.flatMap (fun other => 0x2c :: other)) ++ close :: rest).length
        (by simp only [List.length_append, List.length_cons] at room ⊢; omega) [first] rfl rest
      rw [decEntries]
      simp only [List.append_assoc, getNonwhite_append padding, List.cons_append,
        getNonwhite_cons dark, List.isEmpty_nil, Bool.true_eq_false, and_false, if_false, other,
        if_true] at one further ⊢
      rw [one, Option.bind_some, List.nil_append, further]
      rfl
  sound := by
    intro text result rest decoded
    rw [decEntries] at decoded
    cases got : getNonwhite text with
    | none => rw [got] at decoded; cases decoded
    | some found =>
      obtain ⟨x, after⟩ := found
      obtain ⟨left, rfl, padding, dark⟩ := getNonwhite_eq_some got
      rw [got] at decoded
      simp only [List.isEmpty_nil, Bool.true_eq_false, and_false, if_false, if_true] at decoded
      split_ifs at decoded with closed
      · cases decoded
        exact ⟨left, by rw [closed], padding⟩
      · obtain ⟨⟨next, behind⟩, one, further⟩ := Option.bind_eq_some_iff.mp decoded
        obtain ⟨own, split, spelled, unpadded⟩ := reads.sound _ _ _ one
        obtain ⟨more, others, rfl, spelledMore, rfl⟩ :=
          later_of_decEntries reads _ _ _ _ _ rfl unpadded further
        exact ⟨left ++ own ++ others.flatMap (fun other => 0x2c :: other), by simp [split],
          left ++ own, others, rfl, entries.pad next left own padding spelled, spelledMore⟩

end Entries

section Values

/-- A word is required byte by byte. -/
theorem reqStridx_eq_some_iff (word text rest : List UInt8) :
    reqStridx word text = some rest ↔ text = word ++ rest := by
  induction word generalizing text with
  | nil => simp [reqStridx]
  | cons p word ih =>
    cases text with
    | nil => simp [reqStridx]
    | cons x after =>
      by_cases same : p = x
      · simp [reqStridx, same, ih]
      · simp [reqStridx, same, Ne.symm same]

/-- The numeral goes up to the first other character. -/
theorem decNumber_append (read : List UInt8 → Option ν) {text : List UInt8}
    (characters : ∀ byte ∈ text, numeral byte = true) {rest : List UInt8} (stops : Stops rest) :
    decNumber read (text ++ rest) = (read text).map fun value => (.number value, rest) := by
  have taken : rest.takeWhile numeral = [] ∧ rest.dropWhile numeral = rest := by
    cases rest with
    | nil => exact ⟨rfl, rfl⟩
    | cons byte rest => simp [stops byte rfl]
  rw [decNumber, List.takeWhile_append_of_pos characters, List.dropWhile_append_of_pos characters,
    taken.1, taken.2, List.append_nil]

variable {read : List UInt8 → Option ν} {array : Reader (List (Document ν))}
  {object : Reader (List (List UInt8 × Document ν))}
  {items : List (Document ν) → List UInt8 → Prop}
  {members : List (List UInt8 × Document ν) → List UInt8 → Prop}
  (arrays : Closes 0x5d array items) (objects : Closes 0x7d object members)

include arrays objects in
/-- A spelling of a value is read. -/
theorem decBare_spells {document : Document ν} {text rest : List UInt8}
    (spells : Spells read items members document text) (stops : Stops rest) :
    decBare read array object (text ++ rest) = some (document, rest) := by
  cases spells with
  | null | yes | no => rfl
  | @number first digits number starts characters value =>
    have all : ∀ byte ∈ first :: digits, numeral byte = true := by
      intro byte member
      rcases List.mem_cons.mp member with rfl | later
      · exact numeral_of_starts starts
      · exact characters byte later
    have quote : first ≠ 0x22 := by
      rintro rfl
      revert starts
      decide
    rw [List.cons_append, decBare, if_neg quote, if_pos starts, ← List.cons_append,
      decNumber_append read all stops, value]
    rfl
  | @string body own quoted =>
    simp [decBare, decString_quoted quoted]
  | @array listed own written =>
    simp [decBare, digit, arrays.complete listed own rest written]
  | @object listed own written =>
    simp [decBare, digit, objects.complete listed own rest written]

include arrays objects in
/-- What is read is a spelling of the value. -/
theorem spells_of_decBare {document : Document ν} {text rest : List UInt8}
    (decoded : decBare read array object text = some (document, rest)) :
    ∃ own, text = own ++ rest ∧ Spells read items members document own := by
  cases text with
  | nil => cases decoded
  | cons x after =>
    rw [decBare] at decoded
    split_ifs at decoded with quote number yes no null curly square
    · obtain ⟨⟨text, left⟩, one, same⟩ := Option.map_eq_some_iff.mp decoded
      obtain ⟨body, own, rfl, rfl, quoted⟩ := quoted_of_decString one
      cases same
      exact ⟨0x22 :: (body ++ [0x22]), by simp [quote], .string quoted⟩
    · obtain ⟨value, one, same⟩ := Option.map_eq_some_iff.mp decoded
      cases same
      rw [List.takeWhile_cons_of_pos (numeral_of_starts number)] at one
      rw [List.dropWhile_cons_of_pos (numeral_of_starts number)]
      refine ⟨x :: after.takeWhile numeral, by simp, .number number ?_ one⟩
      exact fun byte member => List.mem_takeWhile_imp member
    · obtain ⟨left, one, same⟩ := Option.map_eq_some_iff.mp decoded
      rw [(reqStridx_eq_some_iff _ _ _).mp one, yes]
      cases same
      exact ⟨_, rfl, .yes⟩
    · obtain ⟨left, one, same⟩ := Option.map_eq_some_iff.mp decoded
      rw [(reqStridx_eq_some_iff _ _ _).mp one, no]
      cases same
      exact ⟨_, rfl, .no⟩
    · obtain ⟨left, one, same⟩ := Option.map_eq_some_iff.mp decoded
      rw [(reqStridx_eq_some_iff _ _ _).mp one, null]
      cases same
      exact ⟨_, rfl, .null⟩
    · obtain ⟨⟨listed, left⟩, one, same⟩ := Option.map_eq_some_iff.mp decoded
      obtain ⟨own, rfl, written⟩ := objects.sound _ _ _ one
      cases same
      exact ⟨0x7b :: (own ++ [0x7d]), by simp [curly], .object written⟩
    · obtain ⟨⟨listed, left⟩, one, same⟩ := Option.map_eq_some_iff.mp decoded
      obtain ⟨own, rfl, written⟩ := arrays.sound _ _ _ one
      cases same
      exact ⟨0x5b :: (own ++ [0x5d]), by simp [square], .array written⟩

include arrays objects in
/-- A value is read with the white space around it. -/
theorem decValue_reads :
    Reads (decValue read array object) fun document => Padded (Spells read items members document)
    where
  complete := by
    rintro document _ rest ⟨left, core, right, rfl, padding, behind, spells⟩ ends
    obtain ⟨first, more, rfl, dark, -⟩ := spells.head
    have unpadded : Unpadded ((first :: more) ++ (right ++ rest)) := by
      rintro byte ⟨⟩
      exact dark
    rw [List.append_assoc, List.append_assoc, decValue, eatWhite_append padding,
      eatWhite_unpadded unpadded,
      decBare_spells arrays objects spells (stops_append behind ends.2), Option.map_some]
    dsimp only
    rw [eatWhite_append behind, eatWhite_unpadded ends.1]
  sound := by
    intro text document rest decoded
    obtain ⟨⟨document, after⟩, bare, same⟩ := Option.map_eq_some_iff.mp decoded
    obtain ⟨core, split, spells⟩ := spells_of_decBare arrays objects bare
    obtain ⟨left, own, padding, -⟩ := eatWhite_split text
    obtain ⟨right, eaten, behind, unpadded⟩ := eatWhite_split after
    cases same
    refine ⟨left ++ core ++ right, ?_, ⟨left, core, right, rfl, padding, behind, spells⟩, unpadded⟩
    rw [own, split, List.append_assoc, List.append_assoc, ← eaten]

/-- A member is read when values are. -/
theorem decMember_reads {value : Reader (Document ν)} {spelling : Document ν → List UInt8 → Prop}
    (reads : Reads value spelling) : Reads (decMember value) (Member spelling) where
  complete := by
    rintro ⟨key, document⟩ _ rest ⟨left, body, middle, own, rfl, padding, quoted, behind, spelled⟩
      ends
    have one := reads.complete document own rest spelled ends
    rw [decMember]
    simp only [List.append_assoc, List.cons_append, getNonwhite_append padding,
      getNonwhite_cons (show white 0x22 = false by decide), decString_quoted quoted,
      Option.bind_some, getNonwhite_append behind,
      getNonwhite_cons (show white 0x3a = false by decide), one, Option.map_some, List.nil_append]
  sound := by
    intro text member rest decoded
    rw [decMember] at decoded
    split at decoded
    · rename_i after got
      obtain ⟨left, rfl, padding, -⟩ := getNonwhite_eq_some got
      obtain ⟨⟨key, behind⟩, name, further⟩ := Option.bind_eq_some_iff.mp decoded
      obtain ⟨body, own, rfl, rfl, quoted⟩ := quoted_of_decString name
      dsimp only at further
      split at further
      · rename_i colon
        obtain ⟨middle, rfl, between, -⟩ := getNonwhite_eq_some colon
        obtain ⟨⟨document, last⟩, one, same⟩ := Option.map_eq_some_iff.mp further
        obtain ⟨own, rfl, spelled, unpadded⟩ := reads.sound _ _ _ one
        cases same
        exact ⟨left ++ 0x22 :: (body ++ 0x22 :: (middle ++ 0x3a :: own)), by simp,
          ⟨left, body, middle, own, rfl, padding, quoted, between, spelled⟩, unpadded⟩
      · cases further
    · cases decoded

end Values

/-- With so many levels left, the decoder reads what is spelled in as many. -/
theorem decode_reads (read : List UInt8 → Option ν) (limit : Nat) :
    Reads (decode read limit) fun document => Padded (Spelled read limit document) := by
  induction limit with
  | zero => exact decValue_reads (closes_nothing 0x5d) (closes_nothing 0x7d)
  | succ limit ih =>
    refine decValue_reads ?_ ?_
    · exact decEntries_closes ih (by decide) (entries_padded _ fun document text => spelled_head)
    · exact decEntries_closes (decMember_reads ih) (by decide) (entries_member _)

/-- The texts that are parsed are those of the grammar, nested within the limit,
with white space around them; and each is parsed to what it spells. -/
theorem parses_iff_spelled (read : List UInt8 → Option ν) (recursionLimit : Nat)
    (text : List UInt8) (document : Document ν) :
    parse read recursionLimit text = some document ↔
      Padded (Spelled read recursionLimit document) text := by
  have reads := decode_reads read recursionLimit
  constructor
  · intro parsed
    unfold parse at parsed
    split at parsed
    · rename_i whole
      cases parsed
      obtain ⟨own, rfl, spelled, -⟩ := reads.sound _ _ _ whole
      rwa [List.append_nil]
    · cases parsed
  · intro spelled
    have ends : Ends [] := by constructor <;> rintro byte ⟨⟩
    have whole := reads.complete document text [] spelled ends
    rw [List.append_nil] at whole
    rw [parse, whole]

/-- `[1,]` and, with one level, `[[1]]`. -/
example : (parse (fun _ => some ()) 5 [0x5b, 0x31, 0x2c, 0x5d]).isNone ∧
    (parse (fun _ => some ()) 1 [0x5b, 0x5b, 0x31, 0x5d, 0x5d]).isNone := by decide

end Hadouken.JsonDecoding
