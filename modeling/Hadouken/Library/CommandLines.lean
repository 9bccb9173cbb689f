import Mathlib.Algebra.GroupWithZero.Nat
import Mathlib.Data.List.Basic

/-!
# Command lines

A program of the Windows C runtime receives one text and splits it into its
arguments. Blanks outside double quotes separate them. Backslashes are literal
but in front of a double quote: there each two of them stand for one, and an odd
one makes the quote literal. Two quotes inside of quotes stand for one.

The name of the program comes first. In it quotes only protect blanks.

Splitting drops every separator, and at least one character for each pair of
quotes and for each literal quote: what is split is shorter than its line unless
the line has no quotes and single separators.
-/

namespace Hadouken.CommandLines

/-- A text, by its characters. -/
abbrev Text := List Char

/-- Space and tab separate arguments. -/
def isBlank (c : Char) : Bool := c == ' ' || c == '\t'

/-- Where the scan stands: outside of quotes, inside, or behind a quote that
closes them unless another follows. -/
inductive Mode where
  | plain
  | quoted
  | closed
deriving DecidableEq

/-- The mode behind a character that is no quote. -/
def Mode.next : Mode → Mode
  | .quoted => .quoted
  | _ => .plain

/-- So many backslashes. -/
def backslashes (count : Nat) : Text := List.replicate count '\\'

/-- Split a text into arguments. The backslashes last read are pending; without a
word the scan stands between two arguments. -/
def split : Mode → Nat → Option Text → Text → List Text
  | _, _, none, [] => []
  | _, slashes, some word, [] => [word ++ backslashes slashes]
  | mode, slashes, word, c :: rest =>
      let begun := word.getD []
      if c = '\\' then split mode.next (slashes + 1) (some begun) rest
      else if c = '"' then
        let halved := begun ++ backslashes (slashes / 2)
        if slashes % 2 = 1 then split mode.next 0 (some (halved ++ ['"'])) rest
        else match mode with
          | .plain => split .quoted 0 (some halved) rest
          | .quoted => split .closed 0 (some halved) rest
          | .closed => split .quoted 0 (some (halved ++ ['"'])) rest
      else if isBlank c ∧ mode ≠ .quoted then
        match word with
        | none => split .plain 0 none rest
        | some word => (word ++ backslashes slashes) :: split .plain 0 none rest
      else split mode.next 0 (some (begun ++ backslashes slashes ++ [c])) rest

/-- Read the name of the program, and split the rest. -/
def splitName : Bool → Text → Text → List Text
  | _, name, [] => [name]
  | quoted, name, c :: rest =>
      if c = '"' then splitName (!quoted) name rest
      else if isBlank c ∧ quoted = false then name :: split .plain 0 none rest
      else splitName quoted (name ++ [c]) rest

/-- The arguments of a command line, from the name of the program on. -/
def argumentVector (line : Text) : List Text := splitName false [] line

/-- Words with a space in front of each. -/
def spaced (words : List Text) : Text := words.flatMap fun word => ' ' :: word

/-- No character of the text has a meaning on a command line outside of quotes. -/
def Unspecial (text : Text) : Prop := ∀ c ∈ text, c ≠ '"' ∧ isBlank c = false

/-- The length of a list of words, with a place behind each. -/
def weight (words : List Text) : Nat := (words.map fun word => word.length + 1).sum

/-- No words have no weight. -/
@[simp] theorem weight_nil : weight [] = 0 := rfl

/-- A word weighs its characters and one place. -/
@[simp] theorem weight_cons (word : Text) (words : List Text) :
    weight (word :: words) = word.length + 1 + weight words := by
  simp [weight]

/-- There are so many of them. -/
@[simp] theorem length_backslashes (count : Nat) : (backslashes count).length = count := by
  simp [backslashes]

/-- Each word has a space in front of it. -/
theorem spaced_cons (word : Text) (words : List Text) :
    spaced (word :: words) = ' ' :: (word ++ spaced words) := List.flatMap_cons

/-- Words behind spaces are as long as their weight. -/
theorem length_spaced (words : List Text) : (spaced words).length = weight words := by
  induction words with
  | nil => rfl
  | cons word rest ih =>
    rw [spaced_cons, List.length_cons, List.length_append, ih, weight_cons]
    omega

section Splitting

variable (mode : Mode) (slashes : Nat) (word : Option Text) (rest : Text)

/-- A backslash is pending until it is known what follows it. -/
theorem split_slash : split mode slashes word ('\\' :: rest) =
    split mode.next (slashes + 1) (some (word.getD [])) rest := by
  cases word <;> simp [split]

/-- Behind an odd number of backslashes a quote stands for itself. -/
theorem split_literal (odd : slashes % 2 = 1) : split mode slashes word ('"' :: rest) =
    split mode.next 0 (some (word.getD [] ++ backslashes (slashes / 2) ++ ['"'])) rest := by
  cases word <;> simp [split, odd]

/-- Behind an even number a quote opens. -/
theorem split_open (even : slashes % 2 = 0) : split .plain slashes word ('"' :: rest) =
    split .quoted 0 (some (word.getD [] ++ backslashes (slashes / 2))) rest := by
  cases word <;> simp [split, even]

/-- In quotes the next one closes. -/
theorem split_close (even : slashes % 2 = 0) : split .quoted slashes word ('"' :: rest) =
    split .closed 0 (some (word.getD [] ++ backslashes (slashes / 2))) rest := by
  cases word <;> simp [split, even]

/-- A quote right behind a closing one stands for itself and opens again. -/
theorem split_doubled (even : slashes % 2 = 0) : split .closed slashes word ('"' :: rest) =
    split .quoted 0 (some (word.getD [] ++ backslashes (slashes / 2) ++ ['"'])) rest := by
  cases word <;> simp [split, even]

/-- Blanks are neither backslashes nor quotes. -/
theorem isBlank_ne {c : Char} (blank : isBlank c = true) : c ≠ '\\' ∧ c ≠ '"' := by
  constructor <;> rintro rfl <;> simp [isBlank] at blank

/-- Blanks between arguments are passed over. -/
theorem split_between {c : Char} (blank : isBlank c = true) (unquoted : mode ≠ .quoted) :
    split mode slashes none (c :: rest) = split .plain 0 none rest := by
  simp [split, isBlank_ne blank, blank, unquoted]

/-- A blank outside of quotes ends an argument. -/
theorem split_behind {c : Char} (blank : isBlank c = true) (unquoted : mode ≠ .quoted)
    (read : Text) : split mode slashes (some read) (c :: rest) =
      (read ++ backslashes slashes) :: split .plain 0 none rest := by
  simp [split, isBlank_ne blank, blank, unquoted]

/-- Any other character belongs to the argument, with the backslashes before it. -/
theorem split_letter {c : Char} (noSlash : c ≠ '\\') (noQuote : c ≠ '"')
    (inside : ¬ (isBlank c = true ∧ mode ≠ .quoted)) :
    split mode slashes word (c :: rest) =
      split mode.next 0 (some (word.getD [] ++ backslashes slashes ++ [c])) rest := by
  cases word <;> simp [split, noSlash, noQuote, inside]

end Splitting

section Weights

/-- The characters read into a word so far. -/
def pending (slashes : Nat) (word : Option Text) : Nat := (word.getD []).length + slashes

/-- A place for a quote, in a text that has one. -/
def quotePlace (text : Text) : Nat := if '"' ∈ text then 1 else 0

/-- There is at most one such place. -/
theorem quotePlace_le (text : Text) : quotePlace text ≤ 1 := by
  unfold quotePlace
  split <;> omega

/-- It does not depend on other characters. -/
theorem quotePlace_cons_of_ne {c : Char} (other : c ≠ '"') (rest : Text) :
    quotePlace (c :: rest) = quotePlace rest := by
  simp [quotePlace, Ne.symm other]

/-- Behind a character that is no quote none was just closed. -/
theorem Mode.next_ne_closed (mode : Mode) : mode.next ≠ .closed := by
  cases mode <;> simp [Mode.next]

/-- What is split fits into its text, a place for a quote apart. Behind a closing
quote the next one may stand for itself, so there the place is not counted. -/
def Fits (mode : Mode) (slashes : Nat) (word : Option Text) (text : Text) : Prop :=
  weight (split mode slashes word text) +
    (if mode = .closed then 0 else quotePlace text) ≤ pending slashes word + text.length + 1

/-- A bound with the place for a quote is enough. -/
theorem fits_of_le {mode : Mode} {slashes : Nat} {word : Option Text} {text : Text}
    (bound : weight (split mode slashes word text) + quotePlace text ≤
      pending slashes word + text.length + 1) : Fits mode slashes word text := by
  unfold Fits
  split <;> omega

/-- Where no quote was just closed, such a bound holds. -/
theorem le_of_fits {mode : Mode} {slashes : Nat} {word : Option Text} {text : Text}
    (fits : Fits mode slashes word text) (counted : mode ≠ .closed) :
    weight (split mode slashes word text) + quotePlace text ≤
      pending slashes word + text.length + 1 := by
  simpa [Fits, counted] using fits

/-- A quote takes a place of its own, unless it stands behind a closing one. -/
theorem fits_quote {rest : Text}
    (ih : ∀ mode slashes word, Fits mode slashes word rest) (mode : Mode) (slashes : Nat)
    (word : Option Text) : Fits mode slashes word ('"' :: rest) := by
  have start := quotePlace_le ('"' :: rest)
  by_cases odd : slashes % 2 = 1
  · have read := le_of_fits
      (ih mode.next 0 (some (word.getD [] ++ backslashes (slashes / 2) ++ ['"'])))
      mode.next_ne_closed
    apply fits_of_le
    rw [split_literal _ _ _ _ odd, List.length_cons]
    simp only [pending, Option.getD_some, List.length_append, List.length_cons,
      List.length_nil, length_backslashes] at read ⊢
    omega
  have even : slashes % 2 = 0 := by omega
  cases mode with
  | plain =>
    have read := le_of_fits
      (ih .quoted 0 (some (word.getD [] ++ backslashes (slashes / 2)))) (by simp)
    apply fits_of_le
    rw [split_open _ _ _ even, List.length_cons]
    simp only [pending, Option.getD_some, List.length_append,
      length_backslashes] at read ⊢
    omega
  | quoted =>
    have read := ih .closed 0 (some (word.getD [] ++ backslashes (slashes / 2)))
    apply fits_of_le
    rw [split_close _ _ _ even, List.length_cons]
    simp only [Fits, reduceIte, pending, Option.getD_some, List.length_append,
      length_backslashes] at read ⊢
    omega
  | closed =>
    have read := le_of_fits
      (ih .quoted 0 (some (word.getD [] ++ backslashes (slashes / 2) ++ ['"']))) (by simp)
    unfold Fits
    rw [split_doubled _ _ _ even, List.length_cons]
    simp only [reduceIte, pending, Option.getD_some, List.length_append, List.length_cons,
      List.length_nil, length_backslashes] at read ⊢
    omega

/-- Splitting never makes a text longer: characters are dropped or kept. -/
theorem fits_split (mode : Mode) (slashes : Nat) (word : Option Text) (text : Text) :
    Fits mode slashes word text := by
  induction text generalizing mode slashes word with
  | nil => cases word <;> simp [Fits, split, pending, quotePlace]
  | cons c rest ih =>
    by_cases slash : c = '\\'
    · subst slash
      have read := le_of_fits (ih mode.next (slashes + 1) (some (word.getD [])))
        mode.next_ne_closed
      have kept := quotePlace_cons_of_ne (c := '\\') (by decide) rest
      apply fits_of_le
      rw [split_slash, kept, List.length_cons]
      simp only [pending, Option.getD_some] at read ⊢
      omega
    by_cases quote : c = '"'
    · subst quote
      exact fits_quote ih mode slashes word
    have kept := quotePlace_cons_of_ne quote rest
    apply fits_of_le
    rw [kept, List.length_cons]
    by_cases blank : isBlank c = true ∧ mode ≠ .quoted
    · have read := le_of_fits (ih .plain 0 none) (by simp)
      cases word with
      | none =>
        rw [split_between _ _ _ blank.1 blank.2]
        simp only [pending, Option.getD_none, List.length_nil] at read ⊢
        omega
      | some word =>
        rw [split_behind _ _ _ blank.1 blank.2, weight_cons]
        simp only [pending, Option.getD_none, Option.getD_some, List.length_append,
          List.length_nil, length_backslashes] at read ⊢
        omega
    · have read := le_of_fits
        (ih mode.next 0 (some (word.getD [] ++ backslashes slashes ++ [c])))
        mode.next_ne_closed
      rw [split_letter _ _ _ _ slash quote blank]
      simp only [pending, Option.getD_some, List.length_append, List.length_cons,
        List.length_nil, length_backslashes] at read ⊢
      omega

/-- The same for a line that begins with the name of the program. -/
theorem weight_splitName (quoted : Bool) (name text : Text) :
    weight (splitName quoted name text) + quotePlace text ≤ name.length + text.length + 1 := by
  induction text generalizing quoted name with
  | nil => simp [splitName, quotePlace]
  | cons c rest ih =>
    have start := quotePlace_le (c :: rest)
    by_cases quote : c = '"'
    · have read := ih (!quoted) name
      simp only [splitName, quote, reduceIte, List.length_cons] at start ⊢
      omega
    have kept := quotePlace_cons_of_ne quote rest
    rw [kept, List.length_cons]
    by_cases blank : isBlank c = true ∧ quoted = false
    · have read := le_of_fits (fits_split .plain 0 none rest) (by simp)
      simp only [splitName, quote, blank, and_self, reduceIte, weight_cons]
      simp only [pending, Option.getD_none, List.length_nil] at read
      omega
    · have read := ih quoted (name ++ [c])
      rw [splitName, if_neg quote, if_neg blank]
      simp only [List.length_append, List.length_cons, List.length_nil] at read ⊢
      omega

/-- What a command line is split into is not longer than the line, and shorter
where the line has a quote. -/
theorem weight_argumentVector (line : Text) :
    weight (argumentVector line) + quotePlace line ≤ line.length + 1 := by
  have bound := weight_splitName false [] line
  rwa [List.length_nil, Nat.zero_add] at bound

end Weights

section Unquoted

/-- There is no blank in the text. -/
def NoBlank (text : Text) : Prop := ∀ c ∈ text, isBlank c = false

/-- Texts without blanks have none together. -/
theorem noBlank_append {front back : Text} (first : NoBlank front) (second : NoBlank back) :
    NoBlank (front ++ back) := List.forall_mem_append.mpr ⟨first, second⟩

/-- A character that is no blank makes a text without blanks. -/
theorem noBlank_single {c : Char} (blank : isBlank c = false) : NoBlank [c] := by
  intro d found
  rwa [List.mem_singleton.mp found]

/-- Backslashes are no blanks. -/
theorem noBlank_backslashes (count : Nat) : NoBlank (backslashes count) := by
  intro c found
  rw [(List.mem_replicate.mp found).2]
  decide

/-- Without quotes the words are what stands between blanks. -/
theorem noBlank_of_mem_split {slashes : Nat} {word : Option Text} {text : Text}
    (unquoted : '"' ∉ text) (read : NoBlank (word.getD []))
    (begun : ∀ w, word = some w → w ++ backslashes slashes ≠ []) :
    ∀ found ∈ split .plain slashes word text, NoBlank found ∧ found ≠ [] := by
  induction text generalizing slashes word with
  | nil =>
    cases word with
    | none => simp [split]
    | some word =>
      intro found member
      obtain rfl : found = word ++ backslashes slashes := by simpa [split] using member
      exact ⟨noBlank_append read (noBlank_backslashes slashes), begun word rfl⟩
  | cons c rest ih =>
    obtain ⟨quote, later⟩ := List.ne_and_not_mem_of_not_mem_cons unquoted
    by_cases slash : c = '\\'
    · subst slash
      rw [split_slash]
      apply ih later
      · exact read
      · simp [backslashes]
    by_cases blank : isBlank c = true
    · have between : ∀ found ∈ split .plain 0 none rest, NoBlank found ∧ found ≠ [] := by
        apply ih later
        · simp [NoBlank]
        · simp
      cases word with
      | none =>
        rw [split_between _ _ _ blank (by simp)]
        exact between
      | some word =>
        rw [split_behind _ _ _ blank (by simp)]
        intro found member
        rcases List.mem_cons.mp member with rfl | member
        · exact ⟨noBlank_append read (noBlank_backslashes slashes), begun word rfl⟩
        · exact between found member
    · rw [split_letter _ _ _ _ slash quote.symm (fun both => blank both.1)]
      apply ih later
      · apply noBlank_append (noBlank_append read (noBlank_backslashes slashes))
        exact noBlank_single (by simpa using blank)
      · simp

/-- Without quotes no argument has a blank, and only the name may be empty. -/
theorem noBlank_splitName (name : Text) {text : Text} (unquoted : '"' ∉ text)
    (read : NoBlank name) :
    ∃ first others, splitName false name text = first :: others ∧ NoBlank first ∧
      ∀ found ∈ others, NoBlank found ∧ found ≠ [] := by
  induction text generalizing name with
  | nil => exact ⟨name, [], by simp [splitName], read, by simp⟩
  | cons c rest ih =>
    obtain ⟨quote, later⟩ := List.ne_and_not_mem_of_not_mem_cons unquoted
    by_cases blank : isBlank c = true
    · refine ⟨name, split .plain 0 none rest, by simp [splitName, quote.symm, blank], read, ?_⟩
      apply noBlank_of_mem_split later
      · simp [NoBlank]
      · simp
    · have rule : splitName false name (c :: rest) = splitName false (name ++ [c]) rest := by
        simp [splitName, quote.symm, blank]
      rw [rule]
      exact ih (name ++ [c]) later
        (noBlank_append read (noBlank_single (by simpa using blank)))

end Unquoted

section Unspecials

/-- Behind a character the text still has no special one. -/
theorem Unspecial.tail {c : Char} {text : Text} (unspecial : Unspecial (c :: text)) :
    Unspecial text := fun d found => unspecial d (List.mem_cons_of_mem c found)

/-- A character without a meaning becomes the last pending one. -/
theorem split_unspecial_char {c : Char} (quote : c ≠ '"') (blank : isBlank c = false)
    (slashes : Nat) (word : Option Text) (rest : Text) :
    ∃ slashes' word', split .plain slashes word (c :: rest) =
        split .plain slashes' (some word') rest ∧
      word' ++ backslashes slashes' = word.getD [] ++ backslashes slashes ++ [c] := by
  by_cases slash : c = '\\'
  · subst slash
    refine ⟨slashes + 1, word.getD [], split_slash .plain slashes word rest, ?_⟩
    rw [backslashes, List.replicate_succ', ← backslashes, List.append_assoc]
  · refine ⟨0, word.getD [] ++ backslashes slashes ++ [c], ?_, by simp [backslashes]⟩
    exact split_letter .plain slashes word rest slash quote (by simp [blank])

/-- A word without special characters is read to its end. -/
theorem split_unspecial {c : Char} {text : Text} (unspecial : Unspecial (c :: text))
    (slashes : Nat) (word : Option Text) (rest : Text) :
    ∃ slashes' word', split .plain slashes word (c :: text ++ rest) =
        split .plain slashes' (some word') rest ∧
      word' ++ backslashes slashes' = word.getD [] ++ backslashes slashes ++ c :: text := by
  induction text generalizing c slashes word with
  | nil =>
    obtain ⟨quote, blank⟩ := unspecial c (by simp)
    exact split_unspecial_char quote blank slashes word rest
  | cons d text ih =>
    obtain ⟨quote, blank⟩ := unspecial c (by simp)
    obtain ⟨slashes₁, word₁, first, pending₁⟩ :=
      split_unspecial_char quote blank slashes word (d :: text ++ rest)
    obtain ⟨slashes₂, word₂, others, pending₂⟩ := ih unspecial.tail slashes₁ (some word₁)
    refine ⟨slashes₂, word₂, ?_, ?_⟩
    · exact first.trans others
    · rw [pending₂, Option.getD_some, pending₁]
      simp

/-- The first word ends where the words behind it begin. -/
theorem split_first {first : Text} {others : List Text} (unspecial : Unspecial first)
    (nonempty : first ≠ []) (later : ∀ slashes word,
      split .plain slashes (some word) (spaced others) =
        (word ++ backslashes slashes) :: others) :
    split .plain 0 none (first ++ spaced others) = first :: others := by
  obtain ⟨c, text, rfl⟩ := List.exists_cons_of_ne_nil nonempty
  obtain ⟨slashes, word, read, whole⟩ := split_unspecial unspecial 0 none (spaced others)
  rw [read, later, whole]
  simp [backslashes]

/-- Words without special characters are found again behind the word being read. -/
theorem split_spaced {words : List Text} (plain : ∀ word ∈ words, Unspecial word ∧ word ≠ [])
    (slashes : Nat) (word : Text) : split .plain slashes (some word) (spaced words) =
      (word ++ backslashes slashes) :: words := by
  induction words generalizing slashes word with
  | nil => simp [spaced, split]
  | cons first others ih =>
    obtain ⟨⟨unspecial, nonempty⟩, rest⟩ := List.forall_mem_cons.mp plain
    rw [spaced_cons, split_behind _ _ _ (by decide) (by decide),
      split_first unspecial nonempty (ih rest)]

/-- A name without special characters is read to its end. -/
theorem splitName_unspecial {text : Text} (unspecial : Unspecial text) (name rest : Text) :
    splitName false name (text ++ rest) = splitName false (name ++ text) rest := by
  induction text generalizing name with
  | nil => simp
  | cons c text ih =>
    obtain ⟨quote, blank⟩ := unspecial c (by simp)
    rw [List.cons_append, splitName, if_neg quote, if_neg (by simp [blank]),
      ih unspecial.tail]
    simp

/-- Words without special characters are found again behind the name. -/
theorem splitName_spaced {words : List Text}
    (plain : ∀ word ∈ words, Unspecial word ∧ word ≠ []) (name : Text) :
    splitName false name (spaced words) = name :: words := by
  cases words with
  | nil => simp [spaced, splitName]
  | cons first others =>
    obtain ⟨⟨unspecial, nonempty⟩, rest⟩ := List.forall_mem_cons.mp plain
    rw [spaced_cons, splitName, if_neg (by decide), if_pos (by decide),
      split_first unspecial nonempty (split_spaced rest)]

end Unspecials

/-- Splitting never makes more of a line than there is in it, also where only the
front of the line was read. -/
theorem weight_of_front {line executable : Text} {arguments : List Text}
    (front : line <+: executable ++ spaced arguments) :
    weight (argumentVector line) ≤ weight (executable :: arguments) := by
  have bound := weight_argumentVector line
  have short := front.length_le
  rw [List.length_append, length_spaced] at short
  rw [weight_cons]
  omega

/-- The front of a line that has its parts one behind the other, with a space in
between, gives the parts back exactly where it is the whole line and no part needs
quotes. -/
theorem argumentVector_eq_iff {line executable : Text} {arguments : List Text}
    (front : line <+: executable ++ spaced arguments) :
    argumentVector line = executable :: arguments ↔
      line = executable ++ spaced arguments ∧ Unspecial executable ∧
        ∀ argument ∈ arguments, Unspecial argument ∧ argument ≠ [] := by
  constructor
  · intro parts
    have bound := weight_argumentVector line
    have short := front.length_le
    rw [parts, weight_cons] at bound
    rw [List.length_append, length_spaced] at short
    have unquoted : '"' ∉ line := by
      intro quote
      simp only [quotePlace, quote, reduceIte] at bound
      omega
    have whole : line = executable ++ spaced arguments := by
      apply front.eq_of_length
      rw [List.length_append, length_spaced]
      omega
    obtain ⟨first, others, read, clean, cleans⟩ :=
      noBlank_splitName [] unquoted (by simp [NoBlank])
    obtain ⟨rfl, rfl⟩ : first = executable ∧ others = arguments := by
      simpa using read.symm.trans parts
    rw [whole] at unquoted
    refine ⟨whole, ?_, ?_⟩
    · intro c found
      refine ⟨?_, clean c found⟩
      rintro rfl
      exact unquoted (List.mem_append_left _ found)
    · intro argument member
      refine ⟨?_, (cleans argument member).2⟩
      intro c found
      refine ⟨?_, (cleans argument member).1 c found⟩
      rintro rfl
      apply unquoted (List.mem_append_right _ _)
      exact List.mem_flatMap.mpr ⟨argument, member, List.mem_cons_of_mem _ found⟩
  · rintro ⟨rfl, unspecial, others⟩
    rw [argumentVector, splitName_unspecial unspecial, List.nil_append]
    exact splitName_spaced others executable

end Hadouken.CommandLines
