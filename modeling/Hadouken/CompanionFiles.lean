import Hadouken.AddTorrent
import Hadouken.Library.NormalPaths

/-!
# Companions of a torrent file

Saving and removing a torrent join the torrents directory with the name of each
companion. Loading computes the companions from the path of the torrent file, by
two regular expressions on the whole of it: that for the resume data is anchored
at the end, that for the metadata is not, and finds the first `.torrent` of the
directory's path where there is one.

Paths are separated by slashes. `fs.combine` normalises what it joined, and the
entries of a directory are listed below the path it was opened with.
-/

namespace Hadouken.CompanionFiles

open ValueStack LexicalPaths TorrentFiles AddTorrent

section Paths

variable (normalizer : Normalizer)

/-- The state path, with its default. -/
def stateDirectory (statePath : String) : String :=
  if statePath = "" then "state" else statePath

/-- `getTorrentsPath`. -/
def getTorrentsPath (statePath : String) : String :=
  combine normalizer (stateDirectory statePath) "torrents"

/-- The metadata and the resume file of a torrent. -/
@[ext]
structure Companions where
  metadataFile : String
  resumeFile : String
deriving DecidableEq

/-- The path of an entry in the list of `fs.getFiles`. -/
def entryPath (directory name : String) : String :=
  cString (.ofList (append (cString directory).toList name.toList))

/-- The companions `loadTorrents` looks for. -/
def companionsOf (file : String) : Companions where
  metadataFile := .ofList (metadataFileOf file.toList)
  resumeFile := .ofList (resumeFileOf file.toList)

/-- The companions `saveTorrents` writes. -/
def savedCompanions (torrentsPath infoHash : String) : Companions where
  metadataFile := combine normalizer torrentsPath (infoHash ++ ".metadata")
  resumeFile := combine normalizer torrentsPath (infoHash ++ ".resume")

/-- The files the handler of `torrent.removed` deletes. -/
structure Removed extends Companions where
  torrentFile : String
deriving DecidableEq

/-- The handler's paths. -/
def removedFiles (torrentsPath infoHash : String) : Removed where
  torrentFile := combine normalizer torrentsPath (infoHash ++ ".torrent")
  resumeFile := combine normalizer torrentsPath (infoHash ++ ".resume")
  metadataFile := combine normalizer torrentsPath (infoHash ++ ".metadata")

/-- An info hash in hexadecimal digits of either letter case. -/
def Hexadecimal (infoHash : String) : Prop :=
  infoHash.toList.length = 40 ∧ ∀ c ∈ infoHash.toList, c.toLower ∈ hexDigits

end Paths

section Joining

variable (normalizer : NameNormalizer)

/-- The directory has no NUL. -/
theorem cString_getTorrentsPath (statePath : String) :
    cString (getTorrentsPath normalizer.toNormalizer statePath) =
      getTorrentsPath normalizer.toNormalizer statePath := by
  rw [getTorrentsPath, combine, cString_cString]

/-- The directory is below the one of the state. -/
theorem toList_getTorrentsPath (statePath : String) :
    (getTorrentsPath normalizer.toNormalizer statePath).toList =
      normalizer.normalize
        (append (cString (stateDirectory statePath)).toList "torrents".toList) := by
  have plain : cString "torrents" = "torrents" := by decide
  rw [getTorrentsPath, toList_combine, plain]

/-- `torrents` names an entry. -/
theorem named_torrents : Named "torrents".toList := by decide

/-- The torrents directory is the last name of its path. -/
theorem torrents_suffix (statePath : String) :
    "torrents".toList <:+ (getTorrentsPath normalizer.toNormalizer statePath).toList := by
  rw [toList_getTorrentsPath]
  exact normalizer.name_last _ _ named_torrents

/-- A name in the torrents directory needs no normalisation. -/
theorem combine_torrentsPath (statePath : String) {name : String} (named : Named name.toList)
    (free : cString name = name) :
    (combine normalizer.toNormalizer (getTorrentsPath normalizer.toNormalizer statePath)
        name).toList =
      (getTorrentsPath normalizer.toNormalizer statePath).toList ++ '/' :: name.toList := by
  have directory := toList_getTorrentsPath normalizer statePath
  rw [toList_combine, free, cString_getTorrentsPath, directory,
    normalizer.normalize_below _ _ _ named_torrents named, ← directory]
  exact append_of_suffix (torrents_suffix normalizer statePath) named_torrents named

/-- An entry of the torrents directory is listed under the path that joining gives. -/
theorem entryPath_torrentsPath (statePath : String) {name : String} (named : Named name.toList)
    (free : cString name = name) :
    (entryPath (getTorrentsPath normalizer.toNormalizer statePath) name).toList =
      (getTorrentsPath normalizer.toNormalizer statePath).toList ++ '/' :: name.toList := by
  have whole := cString_getTorrentsPath normalizer statePath
  have joined := append_of_suffix (torrents_suffix normalizer statePath) named_torrents named
  rw [entryPath, whole, joined, cString_ofList, String.toList_ofList]
  intro c member
  rcases List.mem_append.mp member with base | own
  · rw [← whole] at base
    exact nul_not_mem_cString _ c base
  · rcases List.mem_cons.mp own with rfl | inside
    · decide
    · exact (cString_eq_iff name).mp free c inside

end Joining

section Replacement

/-- An occurrence before the ending is replaced in its place: the ending stays. -/
theorem metadataFileOf_keeps (front : List Char)
    (present : torrentSuffix <:+: front.map Char.toLower) :
    torrentSuffix <:+ metadataFileOf (front ++ torrentSuffix) := by
  induction front with
  | nil => exact absurd (List.infix_nil.mp present) (by decide)
  | cons c rest ih =>
    rw [List.cons_append, metadataFileOf]
    split
    · rename_i found
      have long := occurrence_before_ending c rest found
      refine ⟨metadataSuffix ++ rest.drop 7, ?_⟩
      rw [List.drop_succ_cons, List.drop_append_of_le_length long, List.append_assoc]
    · rename_i mismatch
      rw [List.map_cons, List.infix_cons_iff] at present
      rcases present with start | later
      · have wider : torrentSuffix <+: (c :: (rest ++ torrentSuffix)).map Char.toLower := by
          refine start.trans ⟨torrentSuffix.map Char.toLower, ?_⟩
          simp
        rw [List.prefix_iff_eq_take, length_torrentSuffix, ← List.map_take] at wider
        exact absurd wider.symm mismatch
      · exact (ih later).trans (List.suffix_cons _ _)

/-- The ending that is replaced is the last one where there is no other in front. -/
theorem metadataFileOf_iff (front : List Char) :
    metadataFileOf (front ++ torrentSuffix) = front ++ metadataSuffix ↔
      ¬ torrentSuffix <:+: front.map Char.toLower := by
  constructor
  · intro replaced present
    have kept := metadataFileOf_keeps front present
    rw [replaced] at kept
    have inside := List.suffix_of_suffix_length_le kept (List.suffix_append front _) (by decide)
    exact absurd inside (by decide)
  · exact metadataFileOf_append front

/-- The ending at the end is replaced. -/
theorem resumeFileOf_append (front : List Char) :
    resumeFileOf (front ++ torrentSuffix) = front ++ resumeSuffix := by
  have shorter : (front ++ torrentSuffix).length - 8 = front.length := by
    rw [List.length_append, length_torrentSuffix]
    omega
  rw [resumeFileOf, shorter, List.take_left]

end Replacement

section Agreement

/-- A hash has no other characters. -/
theorem Hexadecimal.not_mem {infoHash : String} (hexadecimal : Hexadecimal infoHash) {c : Char}
    (other : c.toLower ∉ hexDigits) : c ∉ infoHash.toList :=
  fun member => other (hexadecimal.2 c member)

/-- A hash with an ending names a file. -/
theorem Hexadecimal.named {infoHash : String} (hexadecimal : Hexadecimal infoHash)
    {ending : String} (plain : '/' ∉ ending.toList) : Named (infoHash ++ ending).toList := by
  have long : 40 ≤ (infoHash ++ ending).toList.length := by
    rw [String.toList_append, List.length_append, hexadecimal.1]
    omega
  refine ⟨?_, ?_, ?_, ?_⟩
  · intro same
    simp [same] at long
  · intro same
    simp [same, here] at long
  · intro same
    simp [same, parent] at long
  · rw [String.toList_append, List.mem_append, not_or]
    exact ⟨hexadecimal.not_mem (by decide), plain⟩

/-- A hash has no NUL. -/
theorem Hexadecimal.free {infoHash : String} (hexadecimal : Hexadecimal infoHash)
    {ending : String} (plain : cString ending = ending) :
    cString (infoHash ++ ending) = infoHash ++ ending := by
  rw [cString_eq_iff] at plain ⊢
  intro c member zero
  rw [String.toList_append] at member
  rcases List.mem_append.mp member with digit | last
  · have nul : c = Char.ofNat 0 := by rw [← zero, Char.ofNat_toNat]
    rw [nul] at digit
    exact hexadecimal.not_mem (by decide) digit
  · exact plain c last zero

variable (normalizer : NameNormalizer) (statePath : String) {infoHash : String}

/-- The path of the torrents directory. -/
def directoryOf : List Char := (getTorrentsPath normalizer.toNormalizer statePath).toList

/-- The path that a scan of the directory gives for the torrent file. -/
theorem entryPath_hash (hexadecimal : Hexadecimal infoHash) :
    (entryPath (getTorrentsPath normalizer.toNormalizer statePath)
        (infoHash ++ ".torrent")).toList =
      (directoryOf normalizer statePath ++ '/' :: infoHash.toList) ++ torrentSuffix := by
  rw [entryPath_torrentsPath normalizer statePath (hexadecimal.named (by decide))
    (hexadecimal.free (by decide)), String.toList_append, List.append_assoc]
  rfl

/-- The path that is put together for a file of the torrent. -/
theorem combine_hash (hexadecimal : Hexadecimal infoHash) {ending : String}
    (slash : '/' ∉ ending.toList) (nul : cString ending = ending) :
    combine normalizer.toNormalizer (getTorrentsPath normalizer.toNormalizer statePath)
        (infoHash ++ ending) =
      .ofList ((directoryOf normalizer statePath ++ '/' :: infoHash.toList) ++
        ending.toList) := by
  apply String.toList_injective
  rw [combine_torrentsPath normalizer statePath (hexadecimal.named slash)
    (hexadecimal.free nul), String.toList_ofList, String.toList_append, List.append_assoc]
  rfl

/-- The pattern does not occur in a hash, nor across the separator. -/
theorem infix_file_iff (hexadecimal : Hexadecimal infoHash) (directory : List Char) :
    torrentSuffix <:+: (directory ++ '/' :: infoHash.toList).map Char.toLower ↔
      torrentSuffix <:+: directory.map Char.toLower := by
  rw [List.map_append, List.map_cons]
  constructor
  · intro found
    obtain inside | inHash := Separation.infix_of_infix_append_cons (by decide) found
    · exact inside
    · obtain ⟨c, member, lower⟩ := List.mem_map.mp
        (inHash.subset (torrentSuffix_eq ▸ List.mem_cons_self : '.' ∈ torrentSuffix))
      have digit := hexadecimal.2 c member
      rw [lower] at digit
      exact absurd digit (by decide)
  · intro found
    exact found.trans (List.prefix_append _ _).isInfix

/-- Loading finds the resume file again under every path. -/
theorem resumeFile_agrees (hexadecimal : Hexadecimal infoHash) :
    (companionsOf (entryPath (getTorrentsPath normalizer.toNormalizer statePath)
        (infoHash ++ ".torrent"))).resumeFile =
      (savedCompanions normalizer.toNormalizer
        (getTorrentsPath normalizer.toNormalizer statePath) infoHash).resumeFile := by
  change String.ofList (resumeFileOf _) = combine _ _ (infoHash ++ ".resume")
  rw [entryPath_hash normalizer statePath hexadecimal,
    combine_hash normalizer statePath hexadecimal (by decide) (by decide)]
  exact congrArg String.ofList (resumeFileOf_append _)

/-- The two metadata files agree where the directory has no ending of a torrent file
inside. -/
theorem metadataFile_agrees_iff (hexadecimal : Hexadecimal infoHash) :
    (companionsOf (entryPath (getTorrentsPath normalizer.toNormalizer statePath)
        (infoHash ++ ".torrent"))).metadataFile =
      (savedCompanions normalizer.toNormalizer
        (getTorrentsPath normalizer.toNormalizer statePath) infoHash).metadataFile ↔
    ¬ torrentSuffix <:+: (directoryOf normalizer statePath).map Char.toLower := by
  change String.ofList (metadataFileOf _) = combine _ _ (infoHash ++ ".metadata") ↔ _
  rw [entryPath_hash normalizer statePath hexadecimal,
    combine_hash normalizer statePath hexadecimal (by decide) (by decide),
    String.ofList_inj, ← infix_file_iff hexadecimal]
  exact metadataFileOf_iff _

/-- Loading looks for the companions that saving writes and removing deletes exactly
where `.torrent` does not occur in the path of the torrents directory. -/
theorem companions_agree_iff (hexadecimal : Hexadecimal infoHash) :
    (companionsOf (entryPath (getTorrentsPath normalizer.toNormalizer statePath)
          (infoHash ++ ".torrent")) =
        savedCompanions normalizer.toNormalizer
          (getTorrentsPath normalizer.toNormalizer statePath) infoHash ∧
      companionsOf (entryPath (getTorrentsPath normalizer.toNormalizer statePath)
          (infoHash ++ ".torrent")) =
        (removedFiles normalizer.toNormalizer
          (getTorrentsPath normalizer.toNormalizer statePath) infoHash).toCompanions) ↔
    ¬ torrentSuffix <:+: (directoryOf normalizer statePath).map Char.toLower := by
  rw [← metadataFile_agrees_iff normalizer statePath hexadecimal]
  have resume := resumeFile_agrees normalizer statePath hexadecimal
  have same : (removedFiles normalizer.toNormalizer
      (getTorrentsPath normalizer.toNormalizer statePath) infoHash).toCompanions =
      savedCompanions normalizer.toNormalizer
        (getTorrentsPath normalizer.toNormalizer statePath) infoHash := rfl
  rw [same, and_self, Companions.ext_iff]
  exact and_iff_left resume

/-- The pattern has no slash, in any letter case. -/
theorem pattern_iff_segment (path : List Char) :
    torrentSuffix <:+: path.map Char.toLower ↔
      ∃ segment ∈ segments path, torrentSuffix <:+: segment.map Char.toLower := by
  simp only [List.infix_map_iff]
  have inSegment (part : List Char) (same : torrentSuffix = part.map Char.toLower) :
      part <:+: path ↔ ∃ segment ∈ segments path, part <:+: segment := by
    apply infix_iff_segment
    · intro slash
      have lower := List.mem_map_of_mem (f := Char.toLower) slash
      rw [← same] at lower
      exact absurd lower (by decide)
    · have length := congrArg List.length same
      rw [length_torrentSuffix, List.length_map] at length
      omega
  constructor
  · rintro ⟨part, found, same⟩
    obtain ⟨segment, member, inside⟩ := (inSegment part same).mp found
    exact ⟨segment, member, part, inside, same⟩
  · rintro ⟨segment, member, part, inside, same⟩
    exact ⟨part, (inSegment part same).mpr ⟨segment, member, inside⟩, same⟩

/-- The directory is one segment below the one of the state. -/
theorem segments_directoryOf
    (down : parent ∉ segments (cString (stateDirectory statePath)).toList) :
    segments (directoryOf normalizer statePath) =
      segments (cString (stateDirectory statePath)).toList ++ ["torrents".toList] := by
  have joined := segments_append (cString (stateDirectory statePath)).toList "torrents".toList
  rw [segments_name named_torrents] at joined
  rw [directoryOf, toList_getTorrentsPath, normalizer.normalize_segments, joined]
  rw [joined, List.mem_append, not_or]
  exact ⟨down, by decide⟩

/-- Where the state path has no `..`, the condition is one on the state path. -/
theorem pattern_directoryOf_iff
    (down : parent ∉ segments (cString (stateDirectory statePath)).toList) :
    torrentSuffix <:+: (directoryOf normalizer statePath).map Char.toLower ↔
      torrentSuffix <:+: (cString (stateDirectory statePath)).toList.map Char.toLower := by
  have last : ¬ torrentSuffix <:+: "torrents".toList.map Char.toLower := by decide
  rw [pattern_iff_segment, pattern_iff_segment, segments_directoryOf normalizer statePath down]
  constructor
  · rintro ⟨segment, member, found⟩
    rcases List.mem_append.mp member with base | own
    · exact ⟨segment, base, found⟩
    · rw [List.mem_singleton.mp own] at found
      exact absurd found last
  · rintro ⟨segment, member, found⟩
    exact ⟨segment, List.mem_append_left _ member, found⟩

/-- A hash is hexadecimal. -/
theorem hexadecimal_infoHash (hash : InfoHash) : Hexadecimal hash.text := by
  have lower : (hexDigits.all fun c => c.toLower ∈ hexDigits) = true := by decide
  rw [Hexadecimal, InfoHash.text, String.toList_ofList]
  refine ⟨hash.length_eq, fun c member => ?_⟩
  exact of_decide_eq_true (List.all_eq_true.mp lower c (hash.digits c member))

/-- The handler of `torrent.removed` deletes the torrent file that is listed. -/
theorem removedFiles_torrentFile (hexadecimal : Hexadecimal infoHash) :
    (removedFiles normalizer.toNormalizer (getTorrentsPath normalizer.toNormalizer statePath)
        infoHash).torrentFile =
      entryPath (getTorrentsPath normalizer.toNormalizer statePath) (infoHash ++ ".torrent") := by
  have named : Named (infoHash ++ ".torrent").toList := hexadecimal.named (by decide)
  have free : cString (infoHash ++ ".torrent") = infoHash ++ ".torrent" :=
    hexadecimal.free (by decide)
  apply String.toList_injective
  rw [entryPath_torrentsPath normalizer statePath named free]
  exact combine_torrentsPath normalizer statePath named free

/-- The paths that `fs.combine` makes are those of the saved files. -/
theorem savedCompanions_infoHash (hash : InfoHash) :
    savedCompanions normalizer.toNormalizer (getTorrentsPath normalizer.toNormalizer statePath)
        hash.text =
      ⟨.ofList (metadataFile (directoryOf normalizer statePath) hash),
        .ofList (resumeFile (directoryOf normalizer statePath) hash)⟩ := by
  have hexadecimal := hexadecimal_infoHash hash
  have text : hash.text.toList = hash.hex := String.toList_ofList
  unfold savedCompanions
  rw [combine_hash normalizer statePath hexadecimal (by decide) (by decide),
    combine_hash normalizer statePath hexadecimal (by decide) (by decide), text]
  simp only [metadataFile, resumeFile, savedFile, Files.combine, List.append_assoc,
    List.cons_append]
  rfl

/-- The directory of a usual installation. -/
theorem companions_agree_plain :
    Hexadecimal InfoHash.ones.text ∧
      companionsOf (entryPath (getTorrentsPath spelling "/var/lib/hadouken")
          (InfoHash.ones.text ++ ".torrent")) =
        savedCompanions spelling (getTorrentsPath spelling "/var/lib/hadouken")
          InfoHash.ones.text := by
  have plain : ¬ torrentSuffix <:+:
      (directoryOf spellingNames "/var/lib/hadouken").map Char.toLower := by decide
  have hash := hexadecimal_infoHash .ones
  exact ⟨hash, ((companions_agree_iff spellingNames "/var/lib/hadouken" hash).mpr plain).1⟩

/-- Below a directory whose name ends in `.torrents` the metadata is looked for in
another directory. -/
theorem not_companions_agree :
    ¬ ∀ (normalizer : NameNormalizer) (statePath infoHash : String), Hexadecimal infoHash →
      companionsOf (entryPath (getTorrentsPath normalizer.toNormalizer statePath)
          (infoHash ++ ".torrent")) =
        savedCompanions normalizer.toNormalizer
          (getTorrentsPath normalizer.toNormalizer statePath) infoHash := by
  intro agree
  have hash := hexadecimal_infoHash .ones
  have same := congrArg Companions.metadataFile
    (agree spellingNames "/data/my.torrents/state" InfoHash.ones.text hash)
  have plain := (metadataFile_agrees_iff spellingNames "/data/my.torrents/state" hash).mp same
  exact plain (by decide)

end Agreement

end Hadouken.CompanionFiles
