import Hadouken.Library.CodeUnits
import Mathlib.Logic.Function.Basic

/-!
# Data between scripts and native code

Buffers and texts are written to files and read back, resume data are stored in
the parameters of an add, and a piece comes with its alert. Sizes are counted
everywhere but in two places: a text that was read is pushed as a C string, and
a piece is copied like one. What is empty is taken for what is not there.

The engine holds a text as the bytes of its code units. File operations succeed.
-/

namespace Hadouken.BoundaryData

open CodeUnits

/-- A row of bytes. -/
abbrev Bytes := List UInt8

/-- The files of the disk, by their paths. -/
abbrev Disk := String → Option Bytes

/-- A script string, as its code units. -/
abbrev Text := List UInt16

/-- The bytes before the first zero byte. -/
def cBytes (bytes : Bytes) : Bytes := bytes.takeWhile fun byte => byte ≠ 0

section Files

/-- `write_impl`: the disk, and the number of bytes written. -/
def writeImpl (disk : Disk) (path : String) (data : Bytes) : Disk × Nat :=
  (Function.update disk path (some data), data.length)

/-- `read_impl`: the number of bytes read, and the allocated buffer, if there is
a file. -/
def readImpl (disk : Disk) (path : String) : Nat × Option Bytes :=
  match disk path with
  | some content => (content.length, some content)
  | none => (0, none)

/-- `writeBuffer`, with the number it returns. -/
def writeBuffer (disk : Disk) (path : String) (data : Bytes) : Disk × Option Nat :=
  let (written, size) := writeImpl disk path data
  (written, if size = data.length then some size else none)

/-- `readBuffer`. It has no result where it returns undefined. -/
def readBuffer (disk : Disk) (path : String) : Option Bytes :=
  let (size, buffer) := readImpl disk path
  if 0 < size then buffer else none

/-- `writeText`. -/
def writeText (disk : Disk) (path : String) (text : Text) : Disk × Option Nat :=
  writeBuffer disk path (encode text)

/-- `readText`: the data with a zero byte behind them, as a C string. -/
def readText (disk : Disk) (path : String) : Option Text :=
  let (size, data) := readImpl disk path
  if 0 < size then data.map fun data => decode (cBytes (data ++ [0])) else none

end Files

/-- `set_resume_data`, on the field of the parameters. -/
def setResumeData (_resumeData buffer : Bytes) : Bytes := buffer

/-- `get_resume_data`. -/
def getResumeData (resumeData : Bytes) : Option Bytes :=
  if resumeData.isEmpty then none else some resumeData

/-- `strncpy`: it stops at a zero byte, and fills up with zero bytes. -/
def strncpy (source : Bytes) (size : Nat) : Bytes :=
  let copied := cBytes (source.take size)
  copied ++ List.replicate (size - copied.length) 0

/-- The buffer of a `read_piece_alert`. -/
def pieceBuffer (content : Bytes) : Bytes := strncpy content content.length

/-- No byte but zero follows a zero byte. -/
def Padded (content : Bytes) : Prop :=
  ∀ front rest, content = front ++ 0 :: rest → ∀ byte ∈ rest, byte = 0

section Channels

variable (disk : Disk) (path : String)

/-- What is written is read, with its size. -/
theorem readImpl_writeImpl (data : Bytes) :
    readImpl (writeImpl disk path data).1 path = (data.length, some data) := by
  simp [readImpl, writeImpl]

/-- A buffer is read back unless it is empty. -/
theorem readBuffer_writeBuffer_iff (data : Bytes) :
    readBuffer (writeBuffer disk path data).1 path = some data ↔ data ≠ [] := by
  have read : readImpl (writeBuffer disk path data).1 path = (data.length, some data) :=
    readImpl_writeImpl disk path data
  rw [readBuffer, read]
  by_cases empty : data = []
  · simp [empty]
  · simp [empty, List.length_pos_iff]

/-- Resume data that are set are got back unless they are empty. -/
theorem getResumeData_iff (before data : Bytes) :
    getResumeData (setResumeData before data) = some data ↔ data ≠ [] := by
  cases data <;> simp [getResumeData, setResumeData]

/-- What is filled up is what was cut off. -/
theorem pieceBuffer_eq_iff (content : Bytes) : pieceBuffer content = content ↔ Padded content := by
  have whole : pieceBuffer content =
      cBytes content ++ List.replicate (content.length - (cBytes content).length) 0 := by
    simp [pieceBuffer, strncpy]
  have split : cBytes content ++ content.dropWhile (fun byte => byte ≠ 0) = content :=
    List.takeWhile_append_dropWhile
  rw [whole]
  constructor
  · intro same front rest place byte member
    have zeros : ∀ later ∈ List.replicate (content.length - (cBytes content).length) (0 : UInt8),
        later = 0 := fun later inside => (List.mem_replicate.mp inside).2
    rw [← same] at place
    rcases List.append_eq_append_iff.mp place with ⟨more, _, padding⟩ | ⟨more, copied, padding⟩
    · exact zeros byte (by rw [padding]; simp [member])
    · match more with
      | [] =>
        rw [List.nil_append] at padding
        exact zeros byte (by rw [← padding]; simp [member])
      | first :: more =>
        obtain rfl : 0 = first := (List.cons.inj padding).1
        have inside : (0 : UInt8) ∈ cBytes content := by rw [copied]; simp
        have given := List.mem_takeWhile_imp inside
        simp at given
  · intro padded
    cases left : content.dropWhile (fun byte => byte ≠ 0) with
    | nil =>
      rw [left, List.append_nil] at split
      rw [split]
      simp
    | cons first rest =>
      have zero : first = 0 := by
        have stopped := List.head_dropWhile_not (p := fun byte : UInt8 => decide (byte ≠ 0))
          (l := content) (by rw [left]; simp)
        simp only [left, List.head_cons, decide_eq_false_iff_not, not_not] at stopped
        exact stopped
      rw [left, zero] at split
      have length := congrArg List.length split
      rw [List.length_append] at length
      have filled : List.replicate (content.length - (cBytes content).length) (0 : UInt8) =
          0 :: rest := by
        refine (List.eq_replicate_iff.mpr ⟨by omega, fun byte member => ?_⟩).symm
        rcases List.mem_cons.mp member with rfl | later
        · rfl
        · exact padded _ rest split.symm byte later
      rw [filled, split]

/-- A text that is not empty has bytes. -/
theorem encode_ne_nil (text : Text) (given : text ≠ []) : 0 < (encode text).length := by
  cases text with
  | nil => exact absurd rfl given
  | cons unit rest =>
    rw [encode_cons, List.length_append]
    have some : 0 < (encodeUnit unit).length := by
      unfold encodeUnit
      dsimp only
      split
      · simp
      · split <;> simp
    omega

/-- A text is read up to its first zero, and not at all if it is empty. -/
theorem readText_writeText (text : Text) :
    readText (writeText disk path text).1 path =
      if text = [] then none else some (text.takeWhile fun unit => unit ≠ 0) := by
  have read : readImpl (writeText disk path text).1 path =
      ((encode text).length, some (encode text)) := readImpl_writeImpl disk path (encode text)
  have ended : cBytes (encode text ++ [0]) = encode (text.takeWhile fun unit => unit ≠ 0) := by
    rw [cBytes, ← takeWhile_encode, List.takeWhile_append]
    split
    · rename_i all
      rw [List.takeWhile_cons_of_neg (by decide), List.append_nil]
      exact (List.takeWhile_prefix _).eq_of_length all |>.symm
    · rfl
  rw [readText, read]
  by_cases empty : text = []
  · subst empty
    rfl
  · simp only [encode_ne_nil text empty, if_true, Option.map_some, ended, decode_encode,
      if_neg empty]

/-- A written text is read back exactly where it is not empty and has no NUL. -/
theorem readText_writeText_iff (text : Text) :
    readText (writeText disk path text).1 path = some text ↔ text ≠ [] ∧ 0 ∉ text := by
  rw [readText_writeText]
  by_cases empty : text = []
  · simp [empty]
  · rw [if_neg empty, Option.some.injEq, List.takeWhile_eq_self_iff]
    simp only [ne_eq, decide_eq_true_eq, empty, not_false_eq_true, true_and]
    exact ⟨fun all zero => all 0 zero rfl, fun none unit member same => none (same ▸ member)⟩

end Channels

/-- Each channel gives back what was put in: buffers and resume data where they
are not empty, a piece where no other byte follows a zero byte, and a text where
it is not empty and has no zero. -/
theorem crossings (disk : Disk) (path : String) (before data content : Bytes) (text : Text) :
    (readBuffer (writeBuffer disk path data).1 path = some data ↔ data ≠ []) ∧
    (getResumeData (setResumeData before data) = some data ↔ data ≠ []) ∧
    (pieceBuffer content = content ↔ Padded content) ∧
    (readText (writeText disk path text).1 path = some text ↔ text ≠ [] ∧ 0 ∉ text) :=
  ⟨readBuffer_writeBuffer_iff disk path data, getResumeData_iff before data,
    pieceBuffer_eq_iff content, readText_writeText_iff disk path text⟩

/-- An empty buffer, a piece with a zero byte in it and a text that goes on
behind a zero are changed on the way. -/
theorem crossings_fail :
    readBuffer (writeBuffer (fun _ => none) "a" []).1 "a" = none ∧
    getResumeData (setResumeData [] []) = none ∧
    pieceBuffer [1, 0, 2] = [1, 0, 0] ∧
    readText (writeText (fun _ => none) "a" [104, 0, 105]).1 "a" = some [104] := by
  refine ⟨rfl, rfl, by decide, ?_⟩
  rw [readText_writeText]
  decide

end Hadouken.BoundaryData
