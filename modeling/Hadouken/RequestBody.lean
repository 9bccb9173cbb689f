import Mathlib.Algebra.Ring.Int.Defs
import Mathlib.Algebra.Ring.Nat
import Mathlib.Data.List.Basic

/-!
# Bodies of HTTP requests

`connection_handler` takes the declared length of a request's body and reads
from the connection until that many bytes have come. The bytes still missing are
counted in a `size_t`, so that the count goes on from the top of its range when
a chunk is longer than what was missing.

The connection delivers a chunk, or an error, in answer to each read. What the
callback does with a body is outside this module.
-/

namespace Hadouken.RequestBody

/-- A header of a request. -/
structure Header where
  name : String
  value : String
deriving DecidableEq

/-- The value of a text of decimal digits. -/
def decimal (text : List Char) : Option Nat :=
  if text ≠ [] ∧ text.all Char.isDigit then
    some (text.foldl (fun value c => 10 * value + (c.toNat - 48)) 0)
  else none

/-- `boost::lexical_cast<int>`, which throws on what is no `int`. -/
def lexicalCast (text : String) : Option Int :=
  match text.toList with
  | '-' :: digits => (decimal digits).bind fun n => if n ≤ 2 ^ 31 then some (-n) else none
  | '+' :: digits => (decimal digits).bind fun n => if n < 2 ^ 31 then some n else none
  | digits => (decimal digits).bind fun n => if n < 2 ^ 31 then some n else none

/-- The answer to a read. -/
inductive Delivery where
  | chunk (bytes : List UInt8)
  | error

/-- `remaining - length` in `size_t`. -/
def subtract (remaining length : Nat) : Nat := (((remaining : Int) - length) % 2 ^ 64).toNat

/-- `read_complete` and the reads it starts: the bodies the callback is called
with. A read that is not answered has no outcome. -/
def readComplete (body : List UInt8) (remaining : Nat) : List Delivery → List (List UInt8)
  | [] => []
  | .error :: _ => []
  | .chunk bytes :: later =>
      let body := body ++ bytes
      let left := subtract remaining bytes.length
      if 0 < left then readComplete body left later else [body]

/-- `connection_handler::operator()`. An exception of the cast leaves it. -/
def operator (headers : List Header) (deliveries : List Delivery) : List (List UInt8) :=
  match headers.find? fun h => h.name = "Content-Length" with
  | none => []
  | some header =>
      match lexicalCast header.value with
      | none => []
      | some contentLength => readComplete [] (contentLength % 2 ^ 64).toNat deliveries

/-- The name of a header, whatever the case of its letters. -/
def Named (header : Header) : Prop :=
  header.name.toList.map Char.toLower = "content-length".toList

/-- The name is compared. -/
instance (header : Header) : Decidable (Named header) := by
  unfold Named; infer_instance

/-- One header declares the length of the body. -/
def Declares (headers : List Header) (header : Header) (n : Nat) : Prop :=
  (headers.filter fun h => Named h) = [header] ∧ decimal header.value.toList = some n

/-- A callback is called once, with the first bytes of the stream. -/
def Assembled (headers : List Header) (chunks : List (List UInt8)) (n : Nat) : Prop :=
  operator headers (chunks.map .chunk) = [chunks.flatten.take n]

/-- The header is spelled as the handler looks for it, the length is one of type
`int` and not zero, and a chunk ends where the body does. -/
def Aligned (header : Header) (chunks : List (List UInt8)) (n : Nat) : Prop :=
  header.name = "Content-Length" ∧ 0 < n ∧ n < 2 ^ 31 ∧
    ∃ k, (chunks.take k).flatten.length = n

/-- A counter that does not go below zero does not wrap. -/
theorem subtract_of_le (remaining length : Nat) (fits : length ≤ remaining)
    (range : remaining < 2 ^ 64) : subtract remaining length = remaining - length := by
  unfold subtract
  omega

/-- No byte that was read is left out of a body. -/
theorem length_le_of_mem_readComplete (deliveries : List Delivery) (body : List UInt8)
    (remaining : Nat) (result : List UInt8)
    (called : result ∈ readComplete body remaining deliveries) : body.length ≤ result.length := by
  induction deliveries generalizing body remaining with
  | nil => cases called
  | cons delivery later ih =>
    cases delivery with
    | error => cases called
    | chunk bytes =>
      rw [readComplete] at called
      have longer : body.length ≤ (body ++ bytes).length := by simp
      split at called
      · exact Nat.le_trans longer (ih _ _ called)
      · obtain rfl := List.mem_singleton.mp called
        exact longer

/-- With some bytes still missing, the body is assembled exactly when a chunk
ends at its end. The induction is on the chunks to come; one that goes beyond
the end stays in every later body. -/
theorem readComplete_iff (n : Nat) (range : n < 2 ^ 64) (chunks : List (List UInt8))
    (body : List UInt8) (missing : body.length < n) :
    readComplete body (n - body.length) (chunks.map .chunk) = [(body ++ chunks.flatten).take n] ↔
      ∃ k, body.length + (chunks.take k).flatten.length = n := by
  induction chunks generalizing body with
  | nil =>
    simp only [List.map_nil, readComplete, List.nil_eq, reduceCtorEq, List.take_nil,
      List.flatten_nil, List.length_nil, Nat.add_zero, exists_const, false_iff]
    omega
  | cons bytes later ih =>
    have total : (body ++ bytes).length = body.length + bytes.length := List.length_append
    have split : (∃ k, body.length + ((bytes :: later).take k).flatten.length = n) ↔
        ∃ k, (body ++ bytes).length + (later.take k).flatten.length = n := by
      constructor
      · rintro ⟨k, ends⟩
        cases k with
        | zero => simp at ends; omega
        | succ k => exact ⟨k, by simpa [Nat.add_assoc] using ends⟩
      · rintro ⟨k, ends⟩
        exact ⟨k + 1, by simpa [Nat.add_assoc] using ends⟩
    rw [split, List.map_cons, readComplete, List.flatten_cons, ← List.append_assoc]
    rcases Nat.lt_trichotomy (body ++ bytes).length n with short | exact_ | long
    · have left : subtract (n - body.length) bytes.length = n - (body ++ bytes).length := by
        rw [subtract_of_le _ _ (by omega) (by omega)]
        omega
      rw [left, if_pos (by omega)]
      exact ih _ short
    · have left : subtract (n - body.length) bytes.length = 0 := by
        rw [subtract_of_le _ _ (by omega) (by omega)]
        omega
      rw [left, if_neg (by omega)]
      refine iff_of_true ?_ ⟨0, by simpa using exact_⟩
      rw [List.take_append_of_le_length (by omega), List.take_of_length_le (by omega)]
    · refine iff_of_false ?_ ?_
      · intro same
        have called : (body ++ bytes ++ later.flatten).take n ∈
            [(body ++ bytes ++ later.flatten).take n] := List.mem_cons_self
        rw [← same] at called
        have whole : (body ++ bytes).length ≤ ((body ++ bytes ++ later.flatten).take n).length := by
          split at called
          · exact length_le_of_mem_readComplete _ _ _ _ called
          · exact Nat.le_of_eq (congrArg List.length (List.mem_singleton.mp called).symm)
        rw [List.length_take] at whole
        omega
      · rintro ⟨k, ends⟩
        omega

/-- A body of no bytes is never assembled: the first chunk is too long. -/
theorem readComplete_zero (chunks : List (List UInt8)) (nonempty : ∀ bytes ∈ chunks, bytes ≠ []) :
    readComplete [] 0 (chunks.map .chunk) ≠ [[]] := by
  cases chunks with
  | nil => simp [readComplete]
  | cons bytes later =>
    intro same
    have present := List.length_pos_iff.mpr (nonempty bytes List.mem_cons_self)
    have called : [] ∈ readComplete [] 0 ((bytes :: later).map .chunk) := by
      rw [same]
      exact List.mem_cons_self
    rw [List.map_cons, readComplete, List.nil_append] at called
    split at called
    · have whole := length_le_of_mem_readComplete _ _ _ _ called
      rw [List.length_nil] at whole
      omega
    · rw [← List.mem_singleton.mp called] at present
      exact absurd present (by simp)

/-- A text of digits is cast to its value, where the type has it. -/
theorem lexicalCast_decimal (text : String) (n : Nat) (digits : decimal text.toList = some n) :
    lexicalCast text = if n < 2 ^ 31 then some (n : Int) else none := by
  unfold lexicalCast
  split
  · rename_i rest spelled
    simp [spelled, decimal] at digits
  · rename_i rest spelled
    simp [spelled, decimal] at digits
  · rw [digits, Option.bind_some]

/-- The handler finds the declaring header exactly when it is spelled its way. -/
theorem find_eq (headers : List Header) (header : Header)
    (single : (headers.filter fun h => Named h) = [header]) :
    (headers.find? fun h => h.name = "Content-Length") =
      if header.name = "Content-Length" then some header else none := by
  have spelled : ∀ h : Header, h.name = "Content-Length" → Named h := by
    intro h same
    rw [Named, same]
    decide
  have narrowed : (headers.find? fun h => h.name = "Content-Length") =
      (headers.filter fun h => Named h).find? fun h => h.name = "Content-Length" := by
    rw [List.find?_filter]
    congr 1
    funext h
    by_cases same : h.name = "Content-Length" <;> simp [same, spelled h]
  rw [narrowed, single]
  by_cases same : header.name = "Content-Length" <;> simp [same]

/-- The body is assembled exactly when the header and the chunks are aligned. A
chunk that goes beyond the end of the body, as one with the start of the next
request does, makes the handler read on; so does any chunk where no byte was
declared. -/
theorem assembled_iff_aligned (headers : List Header) (header : Header) (n : Nat)
    (chunks : List (List UInt8)) (declares : Declares headers header n)
    (nonempty : ∀ bytes ∈ chunks, bytes ≠ []) :
    Assembled headers chunks n ↔ Aligned header chunks n := by
  obtain ⟨single, digits⟩ := declares
  rw [Assembled, operator, find_eq headers header single]
  by_cases spelled : header.name = "Content-Length"
  · rw [if_pos spelled]
    simp only [lexicalCast_decimal header.value n digits]
    by_cases range : n < 2 ^ 31
    · have remaining : ((n : Int) % 2 ^ 64).toNat = n := by omega
      rw [if_pos range]
      simp only [remaining, Aligned, spelled, range, true_and]
      rcases Nat.eq_zero_or_pos n with rfl | positive
      · simpa using readComplete_zero chunks nonempty
      · have complete := readComplete_iff n (by omega) chunks [] positive
        simpa [positive] using complete
    · rw [if_neg range]
      refine iff_of_false (by simp) ?_
      rintro ⟨_, _, small, _⟩
      exact range small
  · rw [if_neg spelled]
    simp [Aligned, spelled]

/-- Two chunks that end with the body. -/
theorem two_chunks_assembled :
    Assembled [⟨"Content-Length", "3"⟩] [[1, 2], [3], [4]] 3 := by
  refine (assembled_iff_aligned _ ⟨"Content-Length", "3"⟩ 3 _ ⟨by decide, by decide⟩
    (by decide)).mpr ?_
  exact ⟨rfl, by decide, by decide, 2, rfl⟩

/-- One chunk with a byte of the next request. -/
theorem trailing_byte_not_assembled :
    Declares [⟨"Content-Length", "1"⟩] ⟨"Content-Length", "1"⟩ 1 ∧
      (∀ bytes ∈ [[(1 : UInt8), 2]], bytes ≠ []) ∧ 1 ≤ [[(1 : UInt8), 2]].flatten.length ∧
      ¬ Assembled [⟨"Content-Length", "1"⟩] [[1, 2]] 1 := by
  refine ⟨⟨by decide, by decide⟩, by decide, by decide, ?_⟩
  unfold Assembled
  decide

end Hadouken.RequestBody
