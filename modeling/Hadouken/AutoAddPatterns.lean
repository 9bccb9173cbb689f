import Hadouken.Library.LexicalPaths
import Hadouken.Library.Searches
import Hadouken.AutoAdd

/-!
# The patterns of AutoAdd

A folder's pattern is tested against what `fs.getFiles` returns, which is the
path of a file with its folder in front. An anchor at the beginning, and all else
that depends on where the name begins, then looks at the folder.

The default pattern is written in a string, where the backslash is dropped. What
it asks for in front of the extension is any character, which may be the last
separator.

The engine's regular expressions have no look-behind; they are a parameter.
-/

namespace Hadouken.AutoAddPatterns

open Script LexicalPaths Patterns Searches AbortingLoop LoadTorrents AutoAdd

variable {γ : Type}

/-- The characters that `.` leaves out. -/
def lineTerminators : List Char := ['\n', '\r', Char.ofNat 0x2028, Char.ofNat 0x2029]

/-- What a dot of a pattern matches. -/
def anyCharacter (c : Char) : Bool := decide (c ∉ lineTerminators)

/-- The extension of torrent files. -/
def extension : List Char := "torrent".toList

/-- What is left of the default pattern, which ends in an anchor. -/
def defaultItems : Pattern Char :=
  ⟨anyCharacter, .many⟩ :: ⟨anyCharacter, .once⟩ :: literal extension

/-- The engine's regular expressions without flags. A text that is none has no
compilation. -/
structure RegExps where
  compile : String → Option (Attempt Char)
  default : compile ".*.torrent$" = some (toEnd defaultItems)

/-- `new RegExp(pattern)`, as the function `test`. -/
def RegExps.regExp (regExps : RegExps) (conversions : Conversions) (pattern : Value) :
    Option (String → Bool) := do
  let attempt ← regExps.compile (← conversions.concatText pattern)
  return fun text => search attempt text.toList

/-- The plugin with these regular expressions. -/
def withRegExps (plugin : Plugin γ) (regExps : RegExps) : Plugin γ :=
  { plugin with regExp := regExps.regExp plugin.conversions }

/-- A file of a folder that exists. -/
structure Entry where
  folder : List Char
  name : List Char
  exists_folder : folder ≠ []
  named : name ≠ []
  plain : '/' ∉ name

/-- The path that `directory_iterator` gives. -/
def Entry.path (entry : Entry) : List Char := append entry.folder entry.name

/-- What stands in front of the name. -/
def Entry.front (entry : Entry) : List Char :=
  if entry.folder.getLast? = some '/' then entry.folder else entry.folder ++ ['/']

/-- A scan that has come to the file reads it and makes use of what it reads. -/
def PickedUp (plugin : Plugin γ) (folder : Value) (earlier : List (FoundFile γ)) (entry : Entry)
    (buffer : γ) : Prop :=
  checkFiles plugin folder (earlier ++ [⟨.ofList entry.path, .content buffer⟩]) ≠
    checkFiles plugin folder (earlier ++ [⟨.ofList entry.path, .nothing⟩])

/-- A name that the configured pattern matches, or one with the extension where
there is no pattern. -/
def Wanted (regExps : RegExps) (conversions : Conversions) (folder : Value) (name : List Char) :
    Prop :=
  let pattern := setting folder "pattern"
  if pattern.truthy then
    ∃ attempt, (conversions.concatText pattern).bind regExps.compile = some attempt ∧
      search attempt name = true
  else '.' :: extension <:+ name

/-- The name begins with the extension, or it is not a dot that stands before
it. -/
def Undotted (name : List Char) : Prop :=
  ∃ front, name = front ++ extension ∧
    ∀ c, front.getLast? = some c → c ≠ '.' ∧ anyCharacter c = true

/-- The folder in front makes no difference. The pattern matches from behind the
first character of the name on; or else it matches the beginning of the name
alone as it matches there, or in the folder. Without a pattern the extension has
a dot. -/
def Indifferent (regExps : RegExps) (conversions : Conversions) (folder : Value)
    (entry : Entry) : Prop :=
  let pattern := setting folder "pattern"
  if pattern.truthy then
    ∀ attempt, (conversions.concatText pattern).bind regExps.compile = some attempt →
      beginsAfter attempt entry.name = true ∨ (attempt none entry.name = true ↔
        (beginsIn attempt none entry.front entry.name = true ∨
          attempt (some '/') entry.name = true))
  else ¬ Undotted entry.name

section Paths

variable (entry : Entry)

/-- The path is the folder and the name. -/
theorem Entry.path_eq : entry.path = entry.front ++ entry.name := by
  have noSlash : entry.name.head? ≠ some '/' := fun slash =>
    entry.plain (List.mem_of_head? slash)
  rw [path, append, if_neg entry.exists_folder, if_neg entry.named, front]
  by_cases separated : entry.folder.getLast? = some '/'
  · rw [if_pos (.inl separated), if_pos separated]
  · rw [if_neg (by simp [separated, noSlash]), if_neg separated, List.append_assoc,
      List.singleton_append]

/-- The folder ends with a slash. -/
theorem Entry.getLast?_front : entry.front.getLast? = some '/' := by
  unfold front
  split
  · assumption
  · simp

end Paths

section Default

/-- The default pattern, with any character for the dot. -/
theorem search_default_iff (text : List Char) : search (toEnd defaultItems) text = true ↔
    ∃ c, c :: extension <:+ text ∧ anyCharacter c = true := by
  rw [search_toEnd_iff]
  constructor
  · rintro ⟨ending, inside, matched⟩
    rw [defaultItems, language_cons, language_cons, Language.mem_mul] at matched
    obtain ⟨own, _, rest, matched, rfl⟩ := matched
    obtain ⟨single, taken, fixed, matched, rfl⟩ := Language.mem_mul.mp matched
    have literally := (mem_literal_append [] fixed extension).mp (by rwa [List.append_nil])
    obtain ⟨last, rfl, empty⟩ := literally
    obtain rfl : last = [] := by simpa [language] using empty
    rw [mem_language_item, Item.takes, Bool.and_eq_true, decide_eq_true_eq,
      List.length_eq_one_iff] at taken
    obtain ⟨accepted, c, rfl⟩ := taken
    rw [List.append_nil] at inside
    exact ⟨c, (List.suffix_append own _).trans inside, by simpa using accepted⟩
  · rintro ⟨c, inside, accepted⟩
    refine ⟨c :: extension, inside, ?_⟩
    rw [defaultItems, language_cons, language_cons, Language.mem_mul]
    refine ⟨[], by simp [mem_language_item, Item.takes], c :: extension, ?_, rfl⟩
    rw [Language.mem_mul]
    refine ⟨[c], by simp [mem_language_item, Item.takes, accepted], extension, ?_, rfl⟩
    have fixed := (mem_literal_append [] extension extension).mpr
      ⟨[], (List.append_nil _).symm, by simp [language]⟩
    rwa [List.append_nil] at fixed

/-- In a path the character may be the separator. -/
theorem search_default_path_iff (entry : Entry) :
    search (toEnd defaultItems) entry.path = true ↔
      ∃ front, entry.name = front ++ extension ∧
        ∀ c, front.getLast? = some c → anyCharacter c = true := by
  rw [search_default_iff, entry.path_eq]
  have separated := entry.getLast?_front
  constructor
  · rintro ⟨c, ⟨before, same⟩, accepted⟩
    rcases List.append_eq_append_iff.mp same with ⟨beyond, front, name⟩ | ⟨beyond, before, name⟩
    · match beyond with
      | [] =>
        refine ⟨[c], by simpa using name.symm, fun d last => ?_⟩
        obtain rfl : c = d := by simpa using last
        exact accepted
      | [d] =>
        refine ⟨[], by simpa using (List.cons.inj name).2.symm, fun d last => by cases last⟩
      | d :: e :: more =>
        have slash : '/' ∈ extension := by
          rw [(List.cons.inj name).2]
          refine List.mem_append_left _ (List.mem_of_getLast? ?_)
          rw [front, List.getLast?_append_of_ne_nil _ (by simp)] at separated
          simpa [List.getLast?_cons_cons] using separated
        exact absurd slash (by decide)
    · refine ⟨beyond ++ [c], by simpa using name, fun d last => ?_⟩
      obtain rfl : c = d := by simpa using last
      exact accepted
  · rintro ⟨front, name, accepted⟩
    rcases List.eq_nil_or_concat front with rfl | ⟨body, c, rfl⟩
    · obtain ⟨rest, ended⟩ := List.getLast?_eq_some_iff.mp separated
      refine ⟨'/', ⟨rest, ?_⟩, by decide⟩
      rw [ended, name]
      simp
    · refine ⟨c, ⟨entry.front ++ body, ?_⟩, accepted c (by simp)⟩
      rw [name]
      simp

/-- The default pattern picks the names with the extension, and the undotted. -/
theorem search_default_path_iff_suffix (entry : Entry) :
    (search (toEnd defaultItems) entry.path = true ↔ '.' :: extension <:+ entry.name) ↔
      ¬ Undotted entry.name := by
  rw [search_default_path_iff]
  constructor
  · rintro same ⟨front, name, undotted⟩
    obtain ⟨body, ended⟩ := same.mp ⟨front, name, fun c last => (undotted c last).2⟩
    have front_eq : front = body ++ ['.'] := by
      have whole : front ++ extension = body ++ ['.'] ++ extension := by
        rw [← name, ← ended]
        simp
      exact List.append_cancel_right whole
    exact (undotted '.' (by simp [front_eq])).1 rfl
  · intro dotted
    constructor
    · rintro ⟨front, name, accepted⟩
      by_contra other
      refine dotted ⟨front, name, fun c last => ⟨?_, accepted c last⟩⟩
      rintro rfl
      obtain ⟨body, rfl⟩ := List.getLast?_eq_some_iff.mp last
      exact other ⟨body, by rw [name]; simp⟩
    · rintro ⟨body, ended⟩
      refine ⟨body ++ ['.'], by rw [← ended]; simp, fun c last => ?_⟩
      obtain rfl : '.' = c := by simpa using last
      decide

end Default

section Scans

variable (plugin : Plugin γ) (folder : Value) (earlier : List (FoundFile γ))

/-- Where the pattern compiles, the files of a folder are checked one after the other. -/
theorem checkFiles_of_compiled (test : String → Bool)
    (compiled : plugin.regExp ((setting folder "pattern").orElse defaultPattern) = some test)
    (files : List (FoundFile γ)) : checkFiles plugin folder files =
      ⟨(effects (checkFile plugin folder test) files).flatten,
        completes (checkFile plugin folder test) files⟩ := by
  cases files with
  | nil => rfl
  | cons file rest => simp [checkFiles, compiled]

/-- A file that the scan comes to is picked up where the pattern matches its
path. -/
theorem pickedUp_iff (reached : (checkFiles plugin folder earlier).returned = true)
    (entry : Entry) (buffer : γ) : PickedUp plugin folder earlier entry buffer ↔
      ∃ test, plugin.regExp ((setting folder "pattern").orElse defaultPattern) = some test ∧
        test (.ofList entry.path) = true := by
  unfold PickedUp
  cases compiled : plugin.regExp ((setting folder "pattern").orElse defaultPattern) with
  | none =>
    have refused : ∀ last, checkFiles plugin folder (earlier ++ [last]) = ⟨[], false⟩ := by
      intro last
      cases earlier with
      | nil => simp [checkFiles, compiled]
      | cons file rest => simp [checkFiles, compiled]
    simp [refused]
  | some test =>
    have scanned := checkFiles_of_compiled plugin folder test compiled
    have complete : completes (checkFile plugin folder test) earlier = true := by
      rwa [scanned] at reached
    simp only [scanned, effects_concat _ earlier _ complete, completes_concat _ earlier _ complete,
      List.flatten_append, List.flatten_singleton, ne_eq, Scan.mk.injEq, List.append_cancel_left_eq,
      Option.some.injEq, exists_eq_left']
    by_cases matched : test (.ofList entry.path) = true
    · -- what is read is added, or ends the scan
      cases built : readParams plugin folder buffer <;> simp [checkFile, matched, built]
    · simp [checkFile, matched]

end Scans

/-- The files of a folder whose pattern matches their names are picked up, and
no others, exactly where the folder makes no difference. -/
theorem pickedUp_iff_wanted_iff (plugin : Plugin γ) (regExps : RegExps) (folder : Value)
    (earlier : List (FoundFile γ))
    (reached : (checkFiles (withRegExps plugin regExps) folder earlier).returned = true)
    (entry : Entry) (buffer : γ) :
    (PickedUp (withRegExps plugin regExps) folder earlier entry buffer ↔
        Wanted regExps plugin.conversions folder entry.name) ↔
      Indifferent regExps plugin.conversions folder entry := by
  rw [pickedUp_iff _ folder earlier reached]
  unfold Wanted Indifferent
  by_cases configured : (setting folder "pattern").truthy = true
  · have tested : (withRegExps plugin regExps).regExp
        ((setting folder "pattern").orElse defaultPattern) =
        ((plugin.conversions.concatText (setting folder "pattern")).bind regExps.compile).map
          fun attempt text => search attempt text.toList := by
      rw [Value.orElse_truthy _ configured]
      cases spelled : plugin.conversions.concatText (setting folder "pattern") with
      | none => simp [withRegExps, RegExps.regExp, spelled]
      | some text =>
        cases compiled : regExps.compile text <;>
          simp [withRegExps, RegExps.regExp, spelled, compiled]
    rw [tested, if_pos configured, if_pos configured]
    cases compiled : (plugin.conversions.concatText (setting folder "pattern")).bind
      regExps.compile with
    | none => simp
    | some attempt =>
      simp only [Option.map_some, Option.some.injEq, exists_eq_left', forall_eq',
        String.toList_ofList, entry.path_eq]
      exact search_append_iff attempt entry.front entry.name '/' entry.getLast?_front
  · have tested : (withRegExps plugin regExps).regExp
        ((setting folder "pattern").orElse defaultPattern) =
        some fun text => search (toEnd defaultItems) text.toList := by
      rw [Value.orElse_falsy _ (by simpa using configured)]
      simp [withRegExps, RegExps.regExp, defaultPattern, regExps.default,
        plugin.conversions.concatText_string]
    rw [tested, if_neg configured, if_neg configured]
    simp only [Option.some.injEq, exists_eq_left', String.toList_ofList]
    exact search_default_path_iff_suffix entry

/-- `^debian-.*\.torrent$`, the pattern of the documentation. -/
def debianPattern : Value := .string "^debian-.*\\.torrent$"

/-- What it matches, at the beginning of a text alone. -/
def debianAttempt : Attempt Char := fun before rest =>
  before.isNone && isMatch
    (literal "debian-".toList ++ ⟨anyCharacter, .many⟩ :: literal ".torrent".toList) rest

/-- The default pattern and the documented one. -/
def documented : RegExps where
  compile text :=
    if text = ".*.torrent$" then some (toEnd defaultItems)
    else if text = "^debian-.*\\.torrent$" then some debianAttempt
    else none
  default := if_pos rfl

/-- The file of the documentation's example. -/
def debianFile : Entry where
  folder := "/watch".toList
  name := "debian-9.torrent".toList
  exists_folder := by decide
  named := by decide
  plain := by decide

/-- A name in which the extension has no dot. -/
def undottedFile : Entry where
  folder := "/watch".toList
  name := "mytorrent".toList
  exists_folder := by decide
  named := by decide
  plain := by decide

/-- A file without the dot of its extension. -/
theorem pickedUp_iff_wanted_iff_undotted :
    (PickedUp (withRegExps watching documented) (.object []) [] undottedFile () ↔
        Wanted documented plainConversions (.object []) undottedFile.name) ↔
      Indifferent documented plainConversions (.object []) undottedFile :=
  pickedUp_iff_wanted_iff watching documented (.object []) [] rfl undottedFile ()

/-- The documented file is not picked up, and a name without a dot is. -/
theorem anchored_pattern_misses :
    (Wanted documented plainConversions (.object [("pattern", debianPattern)]) debianFile.name ∧
      ¬ PickedUp (withRegExps watching documented) (.object [("pattern", debianPattern)]) []
        debianFile ()) ∧
    ¬ Wanted documented plainConversions (.object []) undottedFile.name ∧
      PickedUp (withRegExps watching documented) (.object []) [] undottedFile () := by
  have pattern : setting (.object [("pattern", debianPattern)]) "pattern" = debianPattern := rfl
  have none : setting (.object []) "pattern" = .undefined := rfl
  refine ⟨⟨?_, ?_⟩, ?_, ?_⟩
  · rw [Wanted, pattern, if_pos (by decide)]
    exact ⟨debianAttempt, rfl, by decide⟩
  · rw [pickedUp_iff _ _ [] rfl]
    rintro ⟨test, compiled, matched⟩
    have tested : (withRegExps watching documented).regExp (debianPattern.orElse defaultPattern) =
        some fun text => search debianAttempt text.toList := rfl
    obtain rfl := Option.some.inj (tested.symm.trans compiled)
    revert matched
    decide
  · rw [Wanted, none, if_neg (by decide)]
    decide
  · rw [pickedUp_iff _ _ [] rfl]
    refine ⟨_, rfl, by decide⟩

end Hadouken.AutoAddPatterns
