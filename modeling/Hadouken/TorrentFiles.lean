import Hadouken.Library.Files
import Hadouken.Library.Separation

/-!
# Files of the torrents directory

A torrent is saved under its info hash in three files of one directory: the
torrent file and its two companions, resume data and metadata. On a start the
companions' paths are computed from the path of the torrent file by two regular
expressions, of which one is not anchored at the end.
-/

namespace Hadouken.TorrentFiles

open Files

/-- The digits a hash is written with. -/
def hexDigits : List Char := "0123456789abcdef".toList

/-- An info hash as the 40 hexadecimal digits it is written with. -/
structure InfoHash where
  hex : List Char
  length_eq : hex.length = 40
  digits : ∀ c ∈ hex, c ∈ hexDigits
deriving DecidableEq

/-- The hash an expired torrent handle reports. -/
def InfoHash.zero : InfoHash where
  hex := List.replicate 40 '0'
  length_eq := List.length_replicate
  digits c member := by
    rw [List.eq_of_mem_replicate member]
    decide

/-- A hash of a torrent, for runs on fixed inputs. -/
def InfoHash.ones : InfoHash where
  hex := List.replicate 40 '1'
  length_eq := List.length_replicate
  digits c member := by
    rw [List.eq_of_mem_replicate member]
    decide

/-- A hash is its digits. -/
theorem InfoHash.ext_hex {first second : InfoHash} (same : first.hex = second.hex) :
    first = second := by
  cases first
  cases second
  simp_all

/-- The text a torrent handle gives for the hash. -/
def InfoHash.text (infoHash : InfoHash) : String := .ofList infoHash.hex

/-- Hashes are told apart by their texts. -/
theorem InfoHash.text_inj (first second : InfoHash) :
    first.text = second.text ↔ first = second := by
  constructor
  · intro same
    exact InfoHash.ext_hex (String.ofList_injective same)
  · rintro rfl
    rfl

/-- Different hashes have different texts. -/
theorem InfoHash.text_ne {first second : InfoHash} (distinct : first ≠ second) :
    first.text ≠ second.text := fun same => distinct ((text_inj first second).mp same)

/-- A character of another kind does not occur in a hash. -/
theorem InfoHash.not_mem_hex (infoHash : InfoHash) (c : Char) (other : c ∉ hexDigits) :
    c ∉ infoHash.hex := fun member => other (infoHash.digits c member)

/-- The ending of a torrent file. -/
def torrentSuffix : List Char := ".torrent".toList

/-- The ending of its resume data. -/
def resumeSuffix : List Char := ".resume".toList

/-- The ending of its metadata. -/
def metadataSuffix : List Char := ".metadata".toList

/-- The ending begins with its dot. -/
theorem torrentSuffix_eq : torrentSuffix = '.' :: "torrent".toList := rfl

/-- Eight characters. -/
@[simp] theorem length_torrentSuffix : torrentSuffix.length = 8 := rfl

/-- Seven characters. -/
@[simp] theorem length_resumeSuffix : resumeSuffix.length = 7 := rfl

/-- Nine characters. -/
@[simp] theorem length_metadataSuffix : metadataSuffix.length = 9 := rfl

/-- The file of a hash with a given ending. -/
def savedFile (suffix : List Char) (torrentsPath : Path) (infoHash : InfoHash) : Path :=
  combine torrentsPath (infoHash.hex ++ suffix)

/-- The torrent file of a hash. -/
def torrentFile : Path → InfoHash → Path := savedFile torrentSuffix

/-- The resume data of a hash. -/
def resumeFile : Path → InfoHash → Path := savedFile resumeSuffix

/-- The metadata of a hash. -/
def metadataFile : Path → InfoHash → Path := savedFile metadataSuffix

/-- `file.endsWith(".torrent")`. -/
def isTorrentFile (file : Path) : Bool := torrentSuffix.isSuffixOf file

/-- `file.replace(/\.torrent/i, ".metadata")`: the first occurrence, in any
letter case, wherever it stands. -/
def metadataFileOf : Path → Path
  | [] => []
  | c :: rest =>
      if ((c :: rest).take 8).map Char.toLower = torrentSuffix then
        metadataSuffix ++ (c :: rest).drop 8
      else c :: metadataFileOf rest

/-- `file.replace(/\.torrent$/i, ".resume")` on a path with that ending. -/
def resumeFileOf (file : Path) : Path := file.take (file.length - 8) ++ resumeSuffix

/-- Files with one ending are told apart by their hashes. -/
theorem savedFile_injective (suffix : List Char) (torrentsPath : Path) {first second : InfoHash}
    (same : savedFile suffix torrentsPath first = savedFile suffix torrentsPath second) :
    first = second := by
  have names : first.hex ++ suffix = second.hex ++ suffix := by
    simpa [savedFile, combine] using same
  exact InfoHash.ext_hex (List.append_cancel_right names)

/-- Torrent files are told apart by their hashes. -/
@[simp] theorem torrentFile_inj (torrentsPath : Path) (first second : InfoHash) :
    torrentFile torrentsPath first = torrentFile torrentsPath second ↔ first = second :=
  ⟨savedFile_injective _ _, fun same => by rw [same]⟩

/-- So are metadata files. -/
@[simp] theorem metadataFile_inj (torrentsPath : Path) (first second : InfoHash) :
    metadataFile torrentsPath first = metadataFile torrentsPath second ↔ first = second :=
  ⟨savedFile_injective _ _, fun same => by rw [same]⟩

/-- The length of a saved file's path, which tells the three endings apart. -/
theorem length_savedFile (suffix : List Char) (torrentsPath : Path) (infoHash : InfoHash) :
    (savedFile suffix torrentsPath infoHash).length = torrentsPath.length + 41 + suffix.length := by
  simp only [savedFile, combine, List.length_append, List.length_cons, infoHash.length_eq]
  omega

/-- No torrent file is resume data. -/
@[simp] theorem torrentFile_ne_resumeFile (torrentsPath : Path) (first second : InfoHash) :
    torrentFile torrentsPath first ≠ resumeFile torrentsPath second := by
  intro same
  have lengths := congrArg List.length same
  rw [torrentFile, resumeFile, length_savedFile, length_savedFile] at lengths
  simp only [length_torrentSuffix, length_resumeSuffix] at lengths
  omega

/-- No torrent file is a metadata file. -/
@[simp] theorem torrentFile_ne_metadataFile (torrentsPath : Path) (first second : InfoHash) :
    torrentFile torrentsPath first ≠ metadataFile torrentsPath second := by
  intro same
  have lengths := congrArg List.length same
  rw [torrentFile, metadataFile, length_savedFile, length_savedFile] at lengths
  simp only [length_torrentSuffix, length_metadataSuffix] at lengths
  omega

/-- No metadata file is resume data. -/
@[simp] theorem metadataFile_ne_resumeFile (torrentsPath : Path) (first second : InfoHash) :
    metadataFile torrentsPath first ≠ resumeFile torrentsPath second := by
  intro same
  have lengths := congrArg List.length same
  rw [metadataFile, resumeFile, length_savedFile, length_savedFile] at lengths
  simp only [length_metadataSuffix, length_resumeSuffix] at lengths
  omega

/-- A torrent file has the ending of one. -/
theorem isTorrentFile_torrentFile (torrentsPath : Path) (infoHash : InfoHash) :
    isTorrentFile (torrentFile torrentsPath infoHash) = true := by
  rw [isTorrentFile, List.isSuffixOf_iff_suffix]
  exact ⟨torrentsPath ++ '/' :: infoHash.hex, by simp [torrentFile, savedFile, combine]⟩

/-- Saved files are entries of the directory. -/
theorem isEntryOf_savedFile (suffix : List Char) (torrentsPath : Path) (infoHash : InfoHash)
    (plain : '/' ∉ suffix) :
    isEntryOf torrentsPath (savedFile suffix torrentsPath infoHash) = true := by
  apply isEntryOf_combine
  intro member
  rcases List.mem_append.mp member with digit | ending
  · exact infoHash.not_mem_hex '/' (by decide) digit
  · exact plain ending

/-- The path of a torrent file, its ending apart. -/
theorem torrentFile_eq (torrentsPath : Path) (infoHash : InfoHash) :
    torrentFile torrentsPath infoHash = (torrentsPath ++ '/' :: infoHash.hex) ++ torrentSuffix := by
  simp [torrentFile, savedFile, combine]

/-- The resume file is found again from the path of the torrent file. -/
theorem resumeFileOf_torrentFile (torrentsPath : Path) (infoHash : InfoHash) :
    resumeFileOf (torrentFile torrentsPath infoHash) = resumeFile torrentsPath infoHash := by
  have shorter : ((torrentsPath ++ '/' :: infoHash.hex) ++ torrentSuffix).length - 8 =
      (torrentsPath ++ '/' :: infoHash.hex).length := by
    rw [List.length_append, length_torrentSuffix]
    omega
  rw [resumeFileOf, torrentFile_eq, shorter, List.take_left]
  simp [resumeFile, savedFile, combine]

/-- An occurrence of the pattern that starts before the ending does not reach
over into it, since the pattern has no second dot. -/
theorem occurrence_before_ending (c : Char) (rest : List Char)
    (found : ((c :: (rest ++ torrentSuffix)).take 8).map Char.toLower = torrentSuffix) :
    7 ≤ rest.length := by
  by_contra short
  obtain ⟨extra, count⟩ : ∃ extra, 7 - rest.length = extra + 1 := ⟨6 - rest.length, by omega⟩
  have tail : ((rest ++ torrentSuffix).take 7).map Char.toLower = "torrent".toList := by
    rw [← (List.cons.inj (found.trans torrentSuffix_eq)).2]
  rw [List.take_append, count, torrentSuffix_eq, List.take_succ_cons, List.map_append,
    List.map_cons] at tail
  have dot : '.' ∈ "torrent".toList := by
    rw [← tail]
    exact List.mem_append_right _ List.mem_cons_self
  exact absurd dot (by decide)

/-- The unanchored pattern finds the ending when it does not occur before it. -/
theorem metadataFileOf_append (front : List Char)
    (absent : ¬ torrentSuffix <:+: front.map Char.toLower) :
    metadataFileOf (front ++ torrentSuffix) = front ++ metadataSuffix := by
  induction front with
  | nil => decide
  | cons c rest ih =>
    have later : ¬ torrentSuffix <:+: rest.map Char.toLower := fun inside =>
      absent (inside.trans (List.suffix_cons _ _).isInfix)
    have mismatch :
        ((c :: (rest ++ torrentSuffix)).take 8).map Char.toLower ≠ torrentSuffix := by
      intro found
      have long := occurrence_before_ending c rest found
      apply absent
      have inside : (c :: (rest ++ torrentSuffix)).take 8 = (c :: rest).take 8 := by
        rw [← List.cons_append, List.take_append_of_le_length (by simp; omega)]
      rw [inside, List.map_take] at found
      rw [← found]
      exact (List.take_prefix _ _).isInfix
    rw [List.cons_append, metadataFileOf, if_neg mismatch, ih later, List.cons_append]

/-- Either the ending was replaced, or something before it and the ending is
still there. -/
theorem metadataFileOf_cases (front : List Char) :
    metadataFileOf (front ++ torrentSuffix) = front ++ metadataSuffix ∨
      isTorrentFile (metadataFileOf (front ++ torrentSuffix)) = true := by
  simp only [isTorrentFile, List.isSuffixOf_iff_suffix]
  induction front with
  | nil => exact .inl (by decide)
  | cons c rest ih =>
    rw [List.cons_append, metadataFileOf]
    split
    · rename_i found
      have long := occurrence_before_ending c rest found
      refine .inr ⟨metadataSuffix ++ rest.drop 7, ?_⟩
      rw [List.drop_succ_cons, List.drop_append_of_le_length long, List.append_assoc]
    · rcases ih with replaced | kept
      · exact .inl (by rw [replaced, List.cons_append])
      · exact .inr (kept.trans (List.suffix_cons _ _))

/-- The replacement is one character longer than what it replaces. -/
theorem length_metadataFileOf (front : List Char) :
    (metadataFileOf (front ++ torrentSuffix)).length = front.length + 9 := by
  induction front with
  | nil => decide
  | cons c rest ih =>
    rw [List.cons_append, metadataFileOf]
    split
    · rw [List.length_append, List.length_drop, length_metadataSuffix, List.length_cons,
        List.length_append, length_torrentSuffix, List.length_cons]
      omega
    · rw [List.length_cons, ih, List.length_cons]

/-- Where the pattern does not occur in the directory's path, the metadata file
is found again from the path of the torrent file. -/
theorem metadataFileOf_torrentFile (torrentsPath : Path) (infoHash : InfoHash)
    (absent : ¬ torrentSuffix <:+: torrentsPath.map Char.toLower) :
    metadataFileOf (torrentFile torrentsPath infoHash) = metadataFile torrentsPath infoHash := by
  have inFront : ¬ torrentSuffix <:+: (torrentsPath ++ '/' :: infoHash.hex).map Char.toLower := by
    rw [List.map_append, List.map_cons]
    intro found
    obtain inPath | inHash := Separation.infix_of_infix_append_cons (by decide) found
    · exact absent inPath
    · obtain ⟨c, member, lower⟩ := List.mem_map.mp
        (inHash.subset (torrentSuffix_eq ▸ List.mem_cons_self : '.' ∈ torrentSuffix))
      have noDot : (hexDigits.all fun c => c.toLower ≠ '.') = true := by decide
      exact of_decide_eq_true (List.all_eq_true.mp noDot c (infoHash.digits c member)) lower
  rw [torrentFile_eq, metadataFileOf_append _ inFront]
  simp [metadataFile, savedFile, combine]

/-- A file with another last character is no torrent file. -/
theorem not_isTorrentFile_savedFile (suffix : List Char) (torrentsPath : Path)
    (infoHash : InfoHash) (other : suffix.getLast? ≠ some 't') (ending : suffix ≠ []) :
    isTorrentFile (savedFile suffix torrentsPath infoHash) = false := by
  rw [Bool.eq_false_iff]
  intro torrent
  rw [isTorrentFile, List.isSuffixOf_iff_suffix] at torrent
  obtain ⟨front, whole⟩ := torrent
  have last := congrArg List.getLast? whole
  rw [List.getLast?_append_of_ne_nil _ (by decide)] at last
  apply other
  rw [← List.getLast?_append_of_ne_nil (torrentsPath ++ '/' :: infoHash.hex) ending]
  have same : torrentsPath ++ '/' :: infoHash.hex ++ suffix =
      savedFile suffix torrentsPath infoHash := by simp [savedFile, combine]
  rw [same, ← last]
  decide

/-- Resume data have not. -/
theorem not_isTorrentFile_resumeFile (torrentsPath : Path) (infoHash : InfoHash) :
    isTorrentFile (resumeFile torrentsPath infoHash) = false :=
  not_isTorrentFile_savedFile _ _ _ (by decide) (by decide)

/-- Metadata have not. -/
theorem not_isTorrentFile_metadataFile (torrentsPath : Path) (infoHash : InfoHash) :
    isTorrentFile (metadataFile torrentsPath infoHash) = false :=
  not_isTorrentFile_savedFile _ _ _ (by decide) (by decide)

/-- The metadata path computed for a torrent is no torrent file of another. -/
theorem metadataFileOf_ne_torrentFile (torrentsPath : Path) (first second : InfoHash) :
    metadataFileOf (torrentFile torrentsPath first) ≠ torrentFile torrentsPath second := by
  intro same
  have lengths := congrArg List.length same
  rw [torrentFile_eq, length_metadataFileOf, torrentFile, length_savedFile,
    length_torrentSuffix] at lengths
  simp only [List.length_append, List.length_cons, first.length_eq] at lengths
  omega

/-- Nor is it any resume file. -/
theorem metadataFileOf_ne_resumeFile (torrentsPath : Path) (first second : InfoHash) :
    metadataFileOf (torrentFile torrentsPath first) ≠ resumeFile torrentsPath second := by
  intro same
  have lengths := congrArg List.length same
  rw [torrentFile_eq, length_metadataFileOf, resumeFile, length_savedFile,
    length_resumeSuffix] at lengths
  simp only [List.length_append, List.length_cons, first.length_eq] at lengths
  omega

/-- Where it is the metadata file of a torrent at all, it is that of its own. -/
theorem metadataFileOf_eq_metadataFile (torrentsPath : Path) (first second : InfoHash)
    (same : metadataFileOf (torrentFile torrentsPath first) = metadataFile torrentsPath second) :
    second = first := by
  have parts := metadataFileOf_cases (torrentsPath ++ '/' :: first.hex)
  rw [← torrentFile_eq] at parts
  rcases parts with replaced | kept
  · have own : metadataFile torrentsPath first =
        torrentsPath ++ '/' :: first.hex ++ metadataSuffix := by
      simp [metadataFile, savedFile, combine]
    rw [replaced, ← own, metadataFile_inj] at same
    exact same.symm
  · rw [same, not_isTorrentFile_metadataFile] at kept
    exact Bool.noConfusion kept

end Hadouken.TorrentFiles
