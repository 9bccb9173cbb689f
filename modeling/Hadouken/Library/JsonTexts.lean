import Hadouken.Library.ExtendedUtf8
import Mathlib.Data.List.Forall2

/-!
# JSON texts

The grammar of JSON over bytes: which texts spell which document. White space may
stand around every value, name and closing bracket. The numbers and their
numerals are a parameter; of strings, all bytes but the control characters, the
quotation mark and the backslash stand for themselves.

A spelling has a limit on nesting, which is counted down from level to level.
`Written` says what is written between two brackets, for any kind of entries.
-/

namespace Hadouken.JsonTexts

/-- What a JSON text spells. Strings are bytes. -/
inductive Document (ν : Type) where
  | null
  | boolean (value : Bool)
  | number (value : ν)
  | string (text : List UInt8)
  | array (items : List (Document ν))
  | object (members : List (List UInt8 × Document ν))

namespace Document

variable {ν : Type}

mutual

/-- How many arrays and objects stand inside each other. -/
def depth : Document ν → Nat
  | .null | .boolean _ | .number _ | .string _ => 0
  | .array items => depthItems items + 1
  | .object members => depthMembers members + 1

/-- The depth of the deepest item. -/
def depthItems : List (Document ν) → Nat
  | [] => 0
  | item :: rest => max item.depth (depthItems rest)

/-- The depth of the deepest member. -/
def depthMembers : List (List UInt8 × Document ν) → Nat
  | [] => 0
  | (_, value) :: rest => max value.depth (depthMembers rest)

end

mutual

/-- The strings and the names of members. -/
def strings : Document ν → List (List UInt8)
  | .null | .boolean _ | .number _ => []
  | .string text => [text]
  | .array items => stringsItems items
  | .object members => stringsMembers members

/-- The texts in the items. -/
def stringsItems : List (Document ν) → List (List UInt8)
  | [] => []
  | item :: rest => item.strings ++ stringsItems rest

/-- The texts in the members and their names. -/
def stringsMembers : List (List UInt8 × Document ν) → List (List UInt8)
  | [] => []
  | (name, value) :: rest => name :: value.strings ++ stringsMembers rest

end

mutual

/-- The numbers in a document. -/
def numbers : Document ν → List ν
  | .null | .boolean _ | .string _ => []
  | .number value => [value]
  | .array items => numbersItems items
  | .object members => numbersMembers members

/-- The numbers in the items. -/
def numbersItems : List (Document ν) → List ν
  | [] => []
  | item :: rest => item.numbers ++ numbersItems rest

/-- The numbers in the members. -/
def numbersMembers : List (List UInt8 × Document ν) → List ν
  | [] => []
  | (_, value) :: rest => value.numbers ++ numbersMembers rest

end

/-- Items are within a depth when each of them is. -/
theorem depthItems_le_iff (items : List (Document ν)) (bound : Nat) :
    depthItems items ≤ bound ↔ ∀ item ∈ items, item.depth ≤ bound := by
  induction items with
  | nil => simp [depthItems]
  | cons item rest ih => simp [depthItems, ih]

/-- Members are within a depth when each of them is. -/
theorem depthMembers_le_iff (members : List (List UInt8 × Document ν)) (bound : Nat) :
    depthMembers members ≤ bound ↔ ∀ member ∈ members, member.2.depth ≤ bound := by
  induction members with
  | nil => simp [depthMembers]
  | cons member rest ih => simp [depthMembers, ih]

/-- The texts of an item are among those of all. -/
theorem mem_stringsItems {items : List (Document ν)} {item : Document ν} (member : item ∈ items)
    {text : List UInt8} (own : text ∈ item.strings) : text ∈ stringsItems items := by
  induction member with
  | head rest => exact List.mem_append_left _ own
  | tail other _ ih => exact List.mem_append_right _ ih

/-- The name of a member and its texts are among those of all. -/
theorem mem_stringsMembers {members : List (List UInt8 × Document ν)}
    {name : List UInt8} {value : Document ν} (member : (name, value) ∈ members) :
    name ∈ stringsMembers members ∧ ∀ text ∈ value.strings, text ∈ stringsMembers members := by
  induction members with
  | nil => cases member
  | cons other rest ih =>
    rcases List.mem_cons.mp member with rfl | later
    · exact ⟨List.mem_cons_self, fun text own => List.mem_append_left _ (.tail _ own)⟩
    · obtain ⟨named, others⟩ := ih later
      exact ⟨List.mem_append_right _ named, fun text own => List.mem_append_right _ (others text own)⟩

/-- The numbers of an item are among those of all. -/
theorem mem_numbersItems {items : List (Document ν)} {item : Document ν} (member : item ∈ items)
    {number : ν} (own : number ∈ item.numbers) : number ∈ numbersItems items := by
  induction member with
  | head rest => exact List.mem_append_left _ own
  | tail other _ ih => exact List.mem_append_right _ ih

/-- The numbers of a member are among those of all. -/
theorem mem_numbersMembers {members : List (List UInt8 × Document ν)}
    {name : List UInt8} {value : Document ν} (member : (name, value) ∈ members)
    {number : ν} (own : number ∈ value.numbers) : number ∈ numbersMembers members := by
  induction members with
  | nil => cases member
  | cons other rest ih =>
    rcases List.mem_cons.mp member with rfl | later
    · exact List.mem_append_left _ own
    · exact List.mem_append_right _ (ih later)

end Document

/-- Space, line feed, carriage return and tabulator. -/
def white (byte : UInt8) : Bool := byte == 0x20 || byte == 0x0a || byte == 0x0d || byte == 0x09

/-- The decimal digits. -/
def digit (byte : UInt8) : Bool := 0x30 ≤ byte && byte ≤ 0x39

/-- The characters of numerals: digits and `.eE-+`. -/
def numeral (byte : UInt8) : Bool :=
  digit byte || byte == 0x2e || byte == 0x65 || byte == 0x45 || byte == 0x2d || byte == 0x2b

/-- Nothing but white space. -/
def White (text : List UInt8) : Prop := ∀ byte ∈ text, white byte = true

/-- No white space in front. -/
def Unpadded (text : List UInt8) : Prop := ∀ byte, text.head? = some byte → white byte = false

/-- No character of a numeral in front. -/
def Stops (text : List UInt8) : Prop := ∀ byte, text.head? = some byte → numeral byte = false

/-- What may follow a value and the white space behind it. -/
def Ends (text : List UInt8) : Prop := Unpadded text ∧ Stops text

/-- A character of a hexadecimal number, in small or capital letters. -/
def hexValue (byte : UInt8) : Option Nat :=
  if 0x30 ≤ byte ∧ byte ≤ 0x39 then some (byte.toNat - 0x30)
  else if 0x61 ≤ byte ∧ byte ≤ 0x66 then some (byte.toNat - 0x57)
  else if 0x41 ≤ byte ∧ byte ≤ 0x46 then some (byte.toNat - 0x37)
  else none

/-- The letters of the short escapes, and what they stand for: `"\/bfnrt`. -/
def escapes : List (UInt8 × UInt8) :=
  [(0x22, 0x22), (0x5c, 0x5c), (0x2f, 0x2f), (0x62, 0x08), (0x66, 0x0c), (0x6e, 0x0a),
    (0x72, 0x0d), (0x74, 0x09)]

/-- `Quoted body text`: between quotation marks, `body` spells `text`. -/
inductive Quoted : List UInt8 → List UInt8 → Prop
  | empty : Quoted [] []
  | plain {byte : UInt8} {body text : List UInt8} (printable : 0x20 ≤ byte)
      (quote : byte ≠ 0x22) (backslash : byte ≠ 0x5c) (more : Quoted body text) :
      Quoted (byte :: body) (byte :: text)
  | short {letter byte : UInt8} {body text : List UInt8} (listed : (letter, byte) ∈ escapes)
      (more : Quoted body text) : Quoted (0x5c :: letter :: body) (byte :: text)
  | unit {a b c d : UInt8} {high second third low : Nat} {body text : List UInt8}
      (first : hexValue a = some high) (next : hexValue b = some second)
      (after : hexValue c = some third) (last : hexValue d = some low) (more : Quoted body text) :
      Quoted (0x5c :: 0x75 :: a :: b :: c :: d :: body)
        (ExtendedUtf8.encode (((high * 16 + second) * 16 + third) * 16 + low) ++ text)

/-- White space on both sides. -/
def Padded (spelling : List UInt8 → Prop) (text : List UInt8) : Prop :=
  ∃ left core right, text = left ++ core ++ right ∧ White left ∧ White right ∧ spelling core

section Listings

variable {α : Type}

/-- Entries with commas between them, or white space if there are none. -/
def Written (spelling : α → List UInt8 → Prop) : List α → List UInt8 → Prop
  | [], text => White text
  | first :: more, text => ∃ own others, text = own ++ others.flatMap (fun other => 0x2c :: other) ∧
      spelling first own ∧ List.Forall₂ spelling more others

/-- White space may be put in front of an entry and taken away again. An entry
does not begin with what closes the listing. -/
structure Entries (close : UInt8) (spelling : α → List UInt8 → Prop) : Prop where
  pad : ∀ entry left text, White left → spelling entry text → spelling entry (left ++ text)
  head : ∀ entry text, spelling entry text → ∃ left first rest, text = left ++ first :: rest ∧
    White left ∧ white first = false ∧ first ≠ close ∧ spelling entry (first :: rest)

/-- The commas and the first entry are bytes of the text. -/
theorem length_le_of_written {close : UInt8} {spelling : α → List UInt8 → Prop}
    (entries : Entries close spelling) {listed : List α} {text : List UInt8}
    (written : Written spelling listed text) : listed.length ≤ text.length := by
  have commas : ∀ others : List (List UInt8),
      others.length ≤ (others.flatMap fun other => 0x2c :: other).length := by
    intro others
    induction others with
    | nil => exact Nat.le_refl _
    | cons other rest ih => simp only [List.flatMap_cons, List.length_append, List.length_cons]; omega
  cases listed with
  | nil => exact Nat.zero_le _
  | cons first more =>
    obtain ⟨own, others, rfl, spelled, later⟩ := written
    obtain ⟨left, byte, rest, rfl, -⟩ := entries.head first own spelled
    have count := later.length_eq
    have bound := commas others
    simp only [List.length_append, List.length_cons]
    omega

end Listings

section Spelling

variable {ν : Type}

/-- A name, a colon and a value. -/
def Member (value : Document ν → List UInt8 → Prop) (member : List UInt8 × Document ν)
    (text : List UInt8) : Prop :=
  ∃ left body middle own, text = left ++ 0x22 :: (body ++ 0x22 :: (middle ++ 0x3a :: own)) ∧
    White left ∧ Quoted body member.1 ∧ White middle ∧ value member.2 own

/-- `read` reads numerals, and `items` and `members` say what stands between the
brackets of arrays and objects. -/
inductive Spells (read : List UInt8 → Option ν) (items : List (Document ν) → List UInt8 → Prop)
    (members : List (List UInt8 × Document ν) → List UInt8 → Prop) :
    Document ν → List UInt8 → Prop
  | null : Spells read items members .null [0x6e, 0x75, 0x6c, 0x6c]
  | yes : Spells read items members (.boolean true) [0x74, 0x72, 0x75, 0x65]
  | no : Spells read items members (.boolean false) [0x66, 0x61, 0x6c, 0x73, 0x65]
  | number {first : UInt8} {rest : List UInt8} {number : ν}
      (starts : digit first = true ∨ first = 0x2d) (characters : ∀ byte ∈ rest, numeral byte = true)
      (value : read (first :: rest) = some number) :
      Spells read items members (.number number) (first :: rest)
  | string {body text : List UInt8} (quoted : Quoted body text) :
      Spells read items members (.string text) (0x22 :: (body ++ [0x22]))
  | array {listed : List (Document ν)} {text : List UInt8} (written : items listed text) :
      Spells read items members (.array listed) (0x5b :: (text ++ [0x5d]))
  | object {listed : List (List UInt8 × Document ν)} {text : List UInt8}
      (written : members listed text) :
      Spells read items members (.object listed) (0x7b :: (text ++ [0x7d]))

/-- Spelling with at most `limit` arrays and objects inside each other. -/
def Spelled (read : List UInt8 → Option ν) : Nat → Document ν → List UInt8 → Prop
  | 0 => Spells read (fun _ _ => False) fun _ _ => False
  | limit + 1 => Spells read (Written fun document => Padded (Spelled read limit document))
      (Written (Member fun document => Padded (Spelled read limit document)))

/-- No character of a numeral is white space. -/
theorem not_white_of_numeral {byte : UInt8} (character : numeral byte = true) :
    white byte = false := by
  simp only [numeral, digit, Bool.or_eq_true, Bool.and_eq_true, decide_eq_true_eq, beq_iff_eq]
    at character
  rcases character with ((((⟨low, high⟩ | rfl) | rfl) | rfl) | rfl) | rfl
  · simp only [white, Bool.or_eq_false_iff, beq_eq_false_iff_ne]
    refine ⟨⟨⟨?_, ?_⟩, ?_⟩, ?_⟩ <;> rintro rfl <;> revert low <;> decide
  all_goals decide

/-- White space behind a numeral ends it as well. -/
theorem stops_append {right rest : List UInt8} (padding : White right) (stops : Stops rest) :
    Stops (right ++ rest) := by
  cases right with
  | nil => exact stops
  | cons space right =>
    rintro byte ⟨⟩
    by_contra character
    have dark := not_white_of_numeral (Bool.eq_true_of_not_eq_false character)
    rw [padding space List.mem_cons_self] at dark
    cases dark

/-- What a numeral starts with is one of its characters. -/
theorem numeral_of_starts {first : UInt8} (starts : digit first = true ∨ first = 0x2d) :
    numeral first = true := by
  rcases starts with digits | rfl
  · simp [numeral, digits]
  · decide

/-- No value begins with white space or with the bracket that closes an array. -/
theorem Spells.head {read : List UInt8 → Option ν} {items : List (Document ν) → List UInt8 → Prop}
    {members : List (List UInt8 × Document ν) → List UInt8 → Prop} {document : Document ν}
    {text : List UInt8} (spells : Spells read items members document text) :
    ∃ first rest, text = first :: rest ∧ white first = false ∧ first ≠ 0x5d := by
  cases spells with
  | @number first rest number starts =>
    refine ⟨first, rest, rfl, not_white_of_numeral (numeral_of_starts starts), ?_⟩
    rintro rfl
    revert starts
    decide
  | _ => exact ⟨_, _, rfl, by decide, by decide⟩

/-- The same for every depth. -/
theorem spelled_head {read : List UInt8 → Option ν} {limit : Nat} {document : Document ν}
    {text : List UInt8} (spelled : Spelled read limit document text) :
    ∃ first rest, text = first :: rest ∧ white first = false ∧ first ≠ 0x5d := by
  cases limit with
  | zero => exact Spells.head spelled
  | succ limit => exact Spells.head spelled

/-- White space twice is white space. -/
theorem white_append {left right : List UInt8} (first : White left) (second : White right) :
    White (left ++ right) := by
  intro byte member
  exact (List.mem_append.mp member).elim (first byte) (second byte)

/-- Items of an array may be padded, and do not begin with its bracket. -/
theorem entries_padded (spelling : Document ν → List UInt8 → Prop)
    (head : ∀ document text, spelling document text →
      ∃ first rest, text = first :: rest ∧ white first = false ∧ first ≠ 0x5d) :
    Entries 0x5d fun document => Padded (spelling document) where
  pad := by
    rintro document left _ padding ⟨before, core, right, rfl, first, second, spelled⟩
    exact ⟨left ++ before, core, right, by simp, white_append padding first, second, spelled⟩
  head := by
    rintro document _ ⟨left, core, right, rfl, padding, behind, spelled⟩
    obtain ⟨first, rest, rfl, dark, other⟩ := head document core spelled
    refine ⟨left, first, rest ++ right, by simp, padding, dark, other, ?_⟩
    exact ⟨[], first :: rest, right, rfl, by simp [White], behind, spelled⟩

/-- Members may be padded, and do not begin with the bracket of an object. -/
theorem entries_member (value : Document ν → List UInt8 → Prop) :
    Entries 0x7d (Member value) where
  pad := by
    rintro member left _ padding ⟨before, body, middle, own, rfl, first, quoted⟩
    exact ⟨left ++ before, body, middle, own, by simp, white_append padding first, quoted⟩
  head := by
    rintro member _ ⟨left, body, middle, own, rfl, padding, quoted⟩
    refine ⟨left, 0x22, _, rfl, padding, by decide, by decide, ?_⟩
    exact ⟨[], body, middle, own, rfl, by simp [White], quoted⟩

/-- White space has no zero byte. -/
theorem zero_not_mem_white {text : List UInt8} (padding : White text) : 0 ∉ text := fun zero =>
  absurd (padding 0 zero) (by decide)

/-- What stands between quotation marks has none. -/
theorem zero_not_mem_quoted {body text : List UInt8} (quoted : Quoted body text) : 0 ∉ body := by
  have digits : ∀ byte number, hexValue byte = some number → byte ≠ 0 := by
    rintro _ number value rfl
    revert value
    simp [hexValue]
  induction quoted with
  | empty => exact List.not_mem_nil
  | @plain byte body text printable _ _ _ ih =>
    have dark : byte ≠ 0 := by
      rintro rfl
      revert printable
      decide
    simpa [dark.symm] using ih
  | @short letter byte body text listed _ ih =>
    have dark : letter ≠ 0 := (show ∀ pair ∈ escapes, pair.1 ≠ 0 by simp [escapes]) _ listed
    simpa [dark.symm] using ih
  | unit first next after last _ ih =>
    simpa [(digits _ _ first).symm, (digits _ _ next).symm, (digits _ _ after).symm,
      (digits _ _ last).symm] using ih

/-- A listing of entries without zero bytes has none. -/
theorem zero_not_mem_written {α : Type} {spelling : α → List UInt8 → Prop}
    (clean : ∀ entry text, spelling entry text → 0 ∉ text) {listed : List α} {text : List UInt8}
    (written : Written spelling listed text) : 0 ∉ text := by
  have later : ∀ (more : List α) (others : List (List UInt8)), List.Forall₂ spelling more others →
      0 ∉ others.flatMap fun other => 0x2c :: other := by
    intro more others spelled
    induction spelled with
    | nil => exact List.not_mem_nil
    | cons one _ ih => simpa [clean _ _ one] using ih
  cases listed with
  | nil => exact zero_not_mem_white written
  | cons first more =>
    obtain ⟨own, others, rfl, one, spelled⟩ := written
    simpa [clean _ _ one] using later more others spelled

/-- White space around a value adds none. -/
theorem zero_not_mem_padded {spelling : Document ν → List UInt8 → Prop}
    (clean : ∀ document text, spelling document text → 0 ∉ text) (document : Document ν)
    (text : List UInt8) (padded : Padded (spelling document) text) : 0 ∉ text := by
  obtain ⟨left, core, right, rfl, first, second, spelled⟩ := padded
  simp [zero_not_mem_white first, zero_not_mem_white second, clean _ _ spelled]

/-- A member has none where its value has none. -/
theorem zero_not_mem_member {value : Document ν → List UInt8 → Prop}
    (clean : ∀ document text, value document text → 0 ∉ text)
    (member : List UInt8 × Document ν) (text : List UInt8) (spelled : Member value member text) :
    0 ∉ text := by
  obtain ⟨left, body, middle, own, rfl, first, quoted, second, one⟩ := spelled
  simp [zero_not_mem_white first, zero_not_mem_white second, zero_not_mem_quoted quoted,
    clean _ _ one]

/-- A value has none where what stands between its brackets has none. -/
theorem zero_not_mem_spells {read : List UInt8 → Option ν}
    {items : List (Document ν) → List UInt8 → Prop}
    {members : List (List UInt8 × Document ν) → List UInt8 → Prop}
    (cleanItems : ∀ listed text, items listed text → 0 ∉ text)
    (cleanMembers : ∀ listed text, members listed text → 0 ∉ text) {document : Document ν}
    {text : List UInt8} (spells : Spells read items members document text) : 0 ∉ text := by
  cases spells with
  | null | yes | no => decide
  | @number first rest _ starts characters =>
    intro zero
    have character : numeral 0 = true := by
      rcases List.mem_cons.mp zero with same | later
      · rw [same]
        exact numeral_of_starts starts
      · exact characters 0 later
    exact absurd character (by decide)
  | string quoted => simp [zero_not_mem_quoted quoted]
  | array written => simp [cleanItems _ _ written]
  | object written => simp [cleanMembers _ _ written]

/-- No text of the grammar has a zero byte. -/
theorem zero_not_mem_spelled (read : List UInt8 → Option ν) (limit : Nat) (document : Document ν)
    (text : List UInt8) (spelled : Spelled read limit document text) : 0 ∉ text := by
  induction limit generalizing document text with
  | zero => exact zero_not_mem_spells (fun _ _ none => none.elim) (fun _ _ none => none.elim) spelled
  | succ limit ih =>
    have values := zero_not_mem_padded ih
    exact zero_not_mem_spells (fun _ _ => zero_not_mem_written values)
      (fun _ _ => zero_not_mem_written (zero_not_mem_member values)) spelled

end Spelling

end Hadouken.JsonTexts
