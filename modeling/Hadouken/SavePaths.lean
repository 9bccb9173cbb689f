import Hadouken.AddTorrent

/-!
# Confinement of save paths

A client of `webui.addTorrent` chooses a base directory by its index and a path
below it. Whether the torrent's save path lies below the default save path or
the chosen directory is decided by the client's path read lexically: how many
levels it climbs, and which names it goes down after that.
-/

namespace Hadouken.SavePaths

open Script ValueStack LexicalPaths AddTorrent

/-- The save path lies at or below the default one or the selected directory. -/
def Confined (site : Site) (selected : Value) (path : String) : Prop :=
  Within (locate (defaultSavePath site).toList) (locate path.toList) ∨
    ∃ directory, selectDirectory site selected = some (some directory) ∧
      Within (locate directory.toList) (locate path.toList)

/-- Where a path below a directory leads. -/
def destination (directory name : List Char) : Location :=
  if directory = [] then locate name else (locate directory).move (relative name)

/-- The client's path stays in the directory it is appended to, or leads from a
selected directory to below the default save path. -/
def StaysInside (site : Site) (selected : Value) (name : List Char) : Prop :=
  match selectDirectory site selected with
  | some (some directory) =>
      Stays directory.toList name ∨
        Within (locate (defaultSavePath site).toList) (destination directory.toList name)
  | _ => Stays (defaultSavePath site).toList name

/-- `fs.combine` leads where the joined path does. -/
theorem locate_combine (normalizer : Normalizer) (path name : String) :
    locate (combine normalizer path name).toList =
      locate (append (cString path).toList (cString name).toList) := by
  rw [toList_combine, normalizer.locate_normalize]

/-- A name behind a directory leads to its destination. -/
theorem locate_append_eq (directory name : List Char) :
    locate (append directory name) = destination directory name := by
  rw [destination]
  split
  · rename_i empty
    rw [empty]
    rfl
  · rename_i some
    exact locate_append directory name some

/-- A selected directory is an entry of the list, as a C string. -/
theorem selected_spec (site : Site) (selected : Value) (directory : String)
    (found : selectDirectory site selected = some (some directory)) :
    ∃ entry ∈ site.downloadDirectories, directory = cString entry := by
  rw [selectDirectory] at found
  split at found
  · cases index : site.conversions.parseInt selected with
    | none => simp [index] at found
    | some number =>
      cases number with
      | finite idx =>
        simp only [index, Option.bind_eq_bind, Option.bind_some, Option.pure_def] at found
        split at found
        · split at found
          · obtain ⟨entry, stands, same⟩ := Option.map_eq_some_iff.mp found
            exact ⟨entry, List.mem_of_getElem? stands, (Option.some.inj same).symm⟩
          · cases found
        · cases found
      | nan => simp [index] at found
      | infinite negative => simp [index] at found
  · cases found

/-- Where the save path of an added torrent leads: from the base directory by
the path below it, which may be empty. -/
theorem locate_savePath (site : Site) (selected : Value) (name path : String)
    (chosen : Option String) (base : selectDirectory site selected = some chosen)
    (found : savePath site selected (.string name) = some path) :
    locate path.toList =
      locate (append (chosen.getD (defaultSavePath site)).toList (cString name).toList) := by
  have whole : cString (chosen.getD (defaultSavePath site)) = chosen.getD (defaultSavePath site) := by
    cases chosen with
    | none => exact cString_cString _
    | some directory =>
      obtain ⟨entry, _, rfl⟩ := selected_spec site selected directory base
      exact cString_cString entry
  simp only [savePath, base, Option.bind_eq_bind, Option.bind_some, Option.pure_def] at found
  split at found
  · obtain rfl := Option.some.inj found
    rw [show cString (combine site.normalizer (chosen.getD (defaultSavePath site)) name) =
      combine site.normalizer (chosen.getD (defaultSavePath site)) name from cString_cString _,
      locate_combine, whole]
  · rename_i empty
    obtain rfl : name = "" := by simpa [Value.truthy] using empty
    obtain rfl := Option.some.inj found
    have nothing : (cString "").toList = [] := by decide
    have same : ∀ base : List Char, append base [] = base := fun base => by
      unfold append
      split
      · rename_i none
        exact none.symm
      · rfl
    rw [nothing, same]

/-- The save path made from the two parameters is confined exactly when the
client's path stays inside. -/
theorem savePath_confined_iff (site : Site) (selected : Value) (name path : String)
    (found : savePath site selected (.string name) = some path) :
    Confined site selected path ↔ StaysInside site selected (cString name).toList := by
  cases base : selectDirectory site selected with
  | none => simp [savePath, base] at found
  | some chosen =>
    have leads := locate_savePath site selected name path chosen base found
    cases chosen with
    | none =>
      simp only [Confined, StaysInside, base, leads, Option.getD_none, Option.some.injEq,
        reduceCtorEq, false_and, exists_false, or_false]
      exact within_append_iff _ _
    | some directory =>
      simp only [Confined, StaysInside, base, leads, Option.getD_some, Option.some.injEq,
        exists_eq_left', ← locate_append_eq]
      rw [within_append_iff]
      exact or_comm

/-- A path that never goes up stays in every directory that is not empty. -/
theorem stays_of_no_parent (directory name : List Char) (descending : parent ∉ segments name)
    (some : directory ≠ []) : Stays directory name := by
  have named : ∀ segment ∈ segments name, Named segment := fun segment member =>
    named_of_mem_segments name segment member fun goesUp => descending (goesUp ▸ member)
  have moved : relative name = ⟨false, 0, segments name⟩ := by
    rw [relative, Location.follow_names _ _ named]
    rfl
  refine ⟨fun empty => absurd empty some, ?_, ?_⟩
  · rw [moved]
    exact .inr (Nat.zero_le _)
  · rw [moved]
    simp

/-- Where no configured directory is empty, a client's path that never goes up
is confined. -/
theorem staysInside_of_no_parent (site : Site) (selected : Value) (name : List Char)
    (descending : parent ∉ segments name) (default : (defaultSavePath site).toList ≠ [])
    (others : ∀ entry ∈ site.downloadDirectories, (cString entry).toList ≠ []) :
    StaysInside site selected name := by
  unfold StaysInside
  split
  · rename_i directory chosen
    obtain ⟨entry, member, rfl⟩ := selected_spec site selected directory chosen
    exact .inl (stays_of_no_parent _ name descending (others entry member))
  · exact stays_of_no_parent _ name descending default

/-- A torrent's save path is confined exactly when the client's path stays
inside: it climbs out of no directory it does not name again, or it leads from
the selected directory to below the default one. -/
theorem confined_iff_staysInside (site : Site) (type data : Value) (params : Members)
    (name : String) (added : NewTorrent)
    (given : params.lookup "subPath" = some (.string name))
    (done : addTorrent site type data (.object params) = some added) :
    Confined site ((params.lookup "savePath").getD .undefined) added.savePath ↔
      StaysInside site ((params.lookup "savePath").getD .undefined) (cString name).toList := by
  have found := savePath_of_added site type data params added done
  rw [given, Option.getD_some] at found
  exact savePath_confined_iff site _ name added.savePath found

/-- A site with a default save path and one further directory. -/
def mediaSite : Site where
  conversions := plainConversions
  normalizer := spelling
  torrentInfo _ := none
  defaults := ⟨0, some "/srv/media", false⟩
  downloadDirectories := ["/srv/films"]

/-- A sub-directory of the selected directory is below it. -/
theorem subdirectory_confined :
    ∃ added, addTorrent mediaSite (.string "url") (.string "")
        (.object [("savePath", .integer 1), ("subPath", .string "old/../new")]) = some added ∧
      Confined mediaSite (.integer 1) added.savePath := by
  have found : savePath mediaSite (.integer 1) (.string "old/../new") = some "/srv/films/new" := by
    decide
  obtain ⟨added, done, _⟩ := addTorrent_url mediaSite
    [("savePath", .integer 1), ("subPath", .string "old/../new")] "/srv/films/new" found
  have confined := confined_iff_staysInside mediaSite _ _ _ "old/../new" added rfl done
  refine ⟨added, done, confined.mpr ?_⟩
  have selects : selectDirectory mediaSite (.integer 1) = some (some "/srv/films") := by decide
  have read : (List.lookup "savePath" [("savePath", Value.integer 1),
      ("subPath", .string "old/../new")]).getD .undefined = .integer 1 := rfl
  rw [read, StaysInside, selects]
  exact .inl (by decide)

/-- A client's path that climbs two levels leads to `/etc`. -/
theorem climbing_not_confined :
    ∃ added, addTorrent mediaSite (.string "url") (.string "")
        (.object [("subPath", .string "../../etc")]) = some added ∧
      ¬ Confined mediaSite .undefined added.savePath := by
  have found : savePath mediaSite .undefined (.string "../../etc") = some "/etc" := by decide
  obtain ⟨added, done, same⟩ :=
    addTorrent_url mediaSite [("subPath", .string "../../etc")] "/etc" found
  refine ⟨added, done, ?_⟩
  rw [same, savePath_confined_iff mediaSite .undefined "../../etc" "/etc" found]
  have default : ¬ Stays (defaultSavePath mediaSite).toList (cString "../../etc").toList := by
    decide
  exact default

end Hadouken.SavePaths
