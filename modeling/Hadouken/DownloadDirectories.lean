import Hadouken.AddTorrent
import Hadouken.Library.LeadingItems

/-!
# Indices of download directories

`webui.listDirectories` lists the download directories that exist, the default
save path first. `webui.addTorrent` takes an index into all of them. The two
agree as long as nothing is missing in front of a directory that exists.

A client gives an index as a number; the list of directories is a script array.
-/

namespace Hadouken.DownloadDirectories

open Script ValueStack LoadTorrents AddTorrent LeadingItems

/-- A site whose download directories, with the default one, fit in an array. -/
structure ArraySite extends Site where
  bounded : downloadDirectories.length < 4294967295

/-- What the method asks the disk about a path. -/
structure Disk where
  directoryExists : String → Bool
  available : String → Nat

/-- A row of the answer. -/
structure DirectoryEntry where
  available : Nat
  path : String
deriving DecidableEq

/-- The default save path and the download directories, as configured. -/
def directories (site : Site) : List String :=
  (getDefault site.defaults : AddTorrentParams Unit).savePath :: site.downloadDirectories

/-- `webui.listDirectories`. -/
def listDirectories (site : Site) (disk : Disk) : List DirectoryEntry :=
  ((directories site).filter fun dir => disk.directoryExists (cString dir)).map fun dir =>
    ⟨disk.available (cString dir), dir⟩

/-- A torrent added with the index of a listed directory, and no path below it,
is saved to the listed path. -/
def IndicesAgree (site : Site) (disk : Disk) : Prop :=
  ∀ (i : Nat) (entry : DirectoryEntry), (listDirectories site disk)[i]? = some entry →
    ∀ (type data : Value) (params : Members) (added : NewTorrent),
      params.lookup "savePath" = some (.integer i) →
      ((params.lookup "subPath").getD .undefined).truthy = false →
      addTorrent site type data (.object params) = some added → added.savePath = entry.path

/-- No directory is missing in front of one that exists, and the paths of those
that exist are C strings. -/
def InOrder (site : Site) (disk : Disk) : Prop :=
  (∀ dir ∈ directories site, disk.directoryExists (cString dir) = true → cString dir = dir) ∧
    Leading (fun dir => disk.directoryExists (cString dir)) (directories site)

/-- The save path an index stands for, with no path below it. -/
theorem savePath_index (site : ArraySite) (i : Nat) (dir : String) (subPath : Value)
    (stands : (directories site.toSite)[i]? = some dir) (nothing : subPath.truthy = false) :
    savePath site.toSite (.integer i) subPath = some (cString dir) := by
  cases i with
  | zero =>
    obtain rfl := Option.some.inj stands
    have default : selectDirectory site.toSite (.integer (0 : Nat)) = some none := by
      simp [selectDirectory]
    simp only [savePath, default, nothing]
    rfl
  | succ i =>
    have found : site.downloadDirectories[i]? = some dir := stands
    obtain ⟨inside, _⟩ := List.getElem?_eq_some_iff.mp found
    have parsed : site.conversions.parseInt (.integer (i + 1 : Nat)) =
        some (.finite ((i + 1 : Nat) : ℤ)) := by
      apply site.conversions.parseInt_integer
      have bounded := site.bounded
      omega
    have index : 0 < (((i + 1 : Nat) : ℤ) : ℚ) ∧
        (((i + 1 : Nat) : ℤ) : ℚ) ≤ site.downloadDirectories.length := by
      constructor
      · exact_mod_cast Nat.succ_pos i
      · exact_mod_cast inside
    have selects : selectDirectory site.toSite (.integer (i + 1 : Nat)) =
        some (some (cString dir)) := by
      have some : Value.truthy (.integer (i + 1 : Nat)) = true := by
        rw [Value.truthy_integer, decide_eq_true_eq]
        omega
      have position : (((i + 1 : Nat) : ℤ) : ℚ).num.toNat - 1 = i := by
        rw [Rat.num_intCast]
        omega
      simp only [selectDirectory, if_pos some, parsed, Option.bind_eq_bind, Option.bind_some,
        if_pos index, Rat.den_intCast, if_true, position, found, Option.map_some]
    simp only [savePath, selects, nothing]
    rfl

/-- Reading a listed entry by its place among the kept directories. -/
theorem listDirectories_getElem (site : Site) (disk : Disk) (i : Nat) (entry : DirectoryEntry) :
    (listDirectories site disk)[i]? = some entry ↔
      ∃ dir, ((directories site).filter fun dir =>
          disk.directoryExists (cString dir))[i]? = some dir ∧
        (⟨disk.available (cString dir), dir⟩ : DirectoryEntry) = entry := by
  rw [listDirectories, List.getElem?_map, Option.map_eq_some_iff]

/-- The indices agree exactly when no directory is missing in front of one that
exists and the paths of those that exist hold no NUL. -/
theorem indicesAgree_iff_inOrder (site : ArraySite) (disk : Disk) :
    IndicesAgree site.toSite disk ↔ InOrder site.toSite disk := by
  rw [InOrder, ← filter_getElem_iff _ cString _ fun dir => by rw [cString_cString]]
  constructor
  · intro agree i kept whole inKept inWhole
    have found := savePath_index site i whole .undefined inWhole rfl
    obtain ⟨added, done, same⟩ := addTorrent_url site.toSite [("savePath", .integer i)] _ found
    have entry := (listDirectories_getElem site.toSite disk i _).mpr ⟨kept, inKept, rfl⟩
    rw [← same]
    exact agree i _ entry _ _ _ added rfl rfl done
  · intro agree i entry listed type data params added index nothing done
    obtain ⟨kept, inKept, rfl⟩ := (listDirectories_getElem site.toSite disk i entry).mp listed
    have shorter : i < (directories site.toSite).length := by
      have inside := (List.getElem?_eq_some_iff.mp inKept).1
      have fewer := List.length_filter_le
        (fun dir => disk.directoryExists (cString dir)) (directories site.toSite)
      omega
    have inWhole := List.getElem?_eq_getElem shorter
    have found := savePath_index site i _ _ inWhole nothing
    have own := savePath_of_added site.toSite type data params added done
    rw [index, Option.getD_some, found] at own
    rw [← Option.some.inj own]
    exact agree i kept _ inKept inWhole

/-- A site whose default directory is missing and whose one other directory is
there. -/
def missingDefault : ArraySite where
  conversions := plainConversions
  normalizer := LexicalPaths.spelling
  torrentInfo _ := none
  defaults := ⟨0, some "/srv/media", false⟩
  downloadDirectories := ["/srv/films"]
  bounded := by decide

/-- The first listed directory is then `/srv/films`, and a torrent added with
index 0 is saved to `/srv/media`. -/
theorem missing_default_indices_differ :
    ¬ IndicesAgree missingDefault.toSite ⟨fun path => path == "/srv/films", fun _ => 0⟩ := by
  intro agree
  have found : savePath missingDefault.toSite (.integer 0) .undefined = some "/srv/media" := by
    decide
  obtain ⟨added, done, same⟩ :=
    addTorrent_url missingDefault.toSite [("savePath", .integer 0)] _ found
  have listed : (listDirectories missingDefault.toSite
      ⟨fun path => path == "/srv/films", fun _ => 0⟩)[0]? = some ⟨0, "/srv/films"⟩ := by
    decide
  have saved := agree 0 _ listed _ _ _ added rfl rfl done
  rw [same] at saved
  exact absurd saved (by decide)

end Hadouken.DownloadDirectories
