import Hadouken.MetadataStore
import Hadouken.TorrentFiles

/-!
# Saving resume data at shutdown

`saveTorrents` of core.js requests resume data from the torrents that need it
and then takes alerts from the session until as many answers came as it made
requests. An answer with data writes the resume file, and the metadata file as
a by-product.

The alerts the session has ready at each wait are the environment's choice. A
wait that times out repeats and is not shown. Log lines are left out; the name
they read is there for every torrent with resume data.
-/

namespace Hadouken.SaveTorrents

open Files TorrentFiles Script MetadataStore

variable {γ : Type}

/-- What the first loop reads of a torrent in the session. -/
structure TorrentEntry where
  infoHash : InfoHash
  isValid : Bool
  hasMetadata : Bool
  needSaveResume : Bool

/-- The torrents whose resume data is requested. -/
def requested (torrents : List TorrentEntry) : List TorrentEntry :=
  torrents.filter fun t => t.isValid && t.hasMetadata && t.needSaveResume

/-- The alerts as `getAlerts` returns them: `null` for a kind it does not know,
and the encoded resume data of a successful answer, if it has any. -/
inductive SaveAlert (γ : Type) where
  | unknown
  | torrentPaused
  | saveResumeDataFailed
  | saveResumeData (infoHash : InfoHash) (resumeData : Option γ)
  | other

/-- The number of answers still to come, and the files written so far. -/
structure Saving (γ : Type) where
  num : Int
  files : FileSystem γ

/-- The text written for a torrent's metadata, if it has any. -/
def metadataText (print : Json → γ) (store : Store) (infoHash : InfoHash) : Option γ :=
  let data := metadata store infoHash.text
  if data.truthy then (Json.ofValue data).map print else none

/-- The body of the loop over the alerts of one batch. -/
def handleAlert (print : Json → γ) (store : Store) (torrentsPath : Path) (saving : Saving γ) :
    SaveAlert γ → Saving γ
  | .unknown | .torrentPaused | .other => saving
  | .saveResumeDataFailed => { saving with num := saving.num - 1 }
  | .saveResumeData infoHash resumeData =>
      let num := saving.num - 1
      match resumeData with
      | none => { saving with num := num }
      | some buffer =>
          let files :=
            match metadataText print store infoHash with
            | some text => writeFile saving.files (metadataFile torrentsPath infoHash) text
            | none => saving.files
          { num := num, files := writeFile files (resumeFile torrentsPath infoHash) buffer }

/-- The waiting loop over the batches of alerts it takes. It has no result while
answers are still missing, and takes no batch after the last of them. -/
def awaitAlerts (print : Json → γ) (store : Store) (torrentsPath : Path) :
    Saving γ → List (List (SaveAlert γ)) → Option (FileSystem γ)
  | saving, [] => if 0 < saving.num then none else some saving.files
  | saving, alerts :: later =>
      if 0 < saving.num then
        awaitAlerts print store torrentsPath
          (alerts.foldl (handleAlert print store torrentsPath) saving) later
      else none

/-- `saveTorrents`, with the batches of alerts its waits bring. -/
def saveTorrents (print : Json → γ) (store : Store) (torrentsPath : Path)
    (torrents : List TorrentEntry) (files : FileSystem γ) (batches : List (List (SaveAlert γ))) :
    Option (FileSystem γ) :=
  awaitAlerts print store torrentsPath ⟨(requested torrents).length, files⟩ batches

/-- A loop that ends has handled all alerts of its batches, in order. -/
theorem awaitAlerts_eq_foldl (print : Json → γ) (store : Store) (torrentsPath : Path)
    (batches : List (List (SaveAlert γ))) (saving : Saving γ) (files : FileSystem γ)
    (ended : awaitAlerts print store torrentsPath saving batches = some files) :
    files = (batches.flatten.foldl (handleAlert print store torrentsPath) saving).files := by
  induction batches generalizing saving with
  | nil =>
    simp only [awaitAlerts, Option.ite_none_left_eq_some, Option.some.injEq] at ended
    exact ended.2.symm
  | cons alerts later ih =>
    simp only [awaitAlerts, Option.ite_none_right_eq_some] at ended
    rw [List.flatten_cons, List.foldl_append]
    exact ih _ ended.2

/-- The torrent an alert brings resume data of. -/
def SaveAlert.answers : SaveAlert γ → Option InfoHash
  | .saveResumeData infoHash (some _) => some infoHash
  | _ => none

/-- The saving of a torrent's resume data came to an answer with data. -/
def Answered (batches : List (List (SaveAlert γ))) (infoHash : InfoHash) : Prop :=
  some infoHash ∈ batches.flatten.map SaveAlert.answers

/-- The batches are searched. -/
instance (batches : List (List (SaveAlert γ))) (infoHash : InfoHash) :
    Decidable (Answered batches infoHash) := by
  unfold Answered; infer_instance

/-- One alert writes at most the two companions of the torrent it is about. -/
theorem lookup_handleAlert_of_ne (print : Json → γ) (store : Store) (torrentsPath : Path)
    (saving : Saving γ) (alert : SaveAlert γ) (path : Path)
    (noResume : ∀ infoHash, path ≠ resumeFile torrentsPath infoHash)
    (noMetadata : ∀ infoHash, path ≠ metadataFile torrentsPath infoHash) :
    (handleAlert print store torrentsPath saving alert).files.lookup path =
      saving.files.lookup path := by
  cases alert with
  | saveResumeData infoHash resumeData =>
    cases resumeData with
    | none => rfl
    | some buffer =>
      simp only [handleAlert, writeFile]
      rw [lookup_assign_of_ne _ _ _ _ (noResume infoHash)]
      cases metadataText print store infoHash with
      | none => rfl
      | some text => exact lookup_assign_of_ne _ _ _ _ (noMetadata infoHash)
  | _ => rfl

/-- The metadata file of a torrent is written by answers about it alone. -/
theorem lookup_metadataFile_handleAlert (print : Json → γ) (store : Store) (torrentsPath : Path)
    (saving : Saving γ) (alert : SaveAlert γ) (infoHash : InfoHash) :
    (handleAlert print store torrentsPath saving alert).files.lookup
        (metadataFile torrentsPath infoHash) =
      if alert.answers = some infoHash then
        ((metadataText print store infoHash).map fun text => Node.file (some text)).or
          (saving.files.lookup (metadataFile torrentsPath infoHash))
      else saving.files.lookup (metadataFile torrentsPath infoHash) := by
  cases alert with
  | saveResumeData answered resumeData =>
    cases resumeData with
    | none => rfl
    | some buffer =>
      simp only [handleAlert, writeFile, SaveAlert.answers, Option.some.injEq]
      rw [lookup_assign_of_ne _ _ _ _ (metadataFile_ne_resumeFile torrentsPath infoHash answered)]
      by_cases own : answered = infoHash
      · subst own
        cases metadataText print store answered <;> simp
      · have distinct : metadataFile torrentsPath infoHash ≠ metadataFile torrentsPath answered :=
          fun same => own ((metadataFile_inj _ _ _).mp same).symm
        rw [if_neg own]
        cases metadataText print store answered with
        | none => rfl
        | some text => exact lookup_assign_of_ne _ _ _ _ distinct
  | _ => rfl

/-- After the alerts, the metadata file holds the torrent's metadata when one of
them answered with data, and otherwise what it held before. -/
theorem lookup_metadataFile_foldl (print : Json → γ) (store : Store) (torrentsPath : Path)
    (infoHash : InfoHash) (alerts : List (SaveAlert γ)) (saving : Saving γ) :
    (alerts.foldl (handleAlert print store torrentsPath) saving).files.lookup
        (metadataFile torrentsPath infoHash) =
      if some infoHash ∈ alerts.map SaveAlert.answers then
        ((metadataText print store infoHash).map fun text => Node.file (some text)).or
          (saving.files.lookup (metadataFile torrentsPath infoHash))
      else saving.files.lookup (metadataFile torrentsPath infoHash) := by
  induction alerts generalizing saving with
  | nil => simp
  | cons alert rest ih =>
    rw [List.foldl_cons, ih, lookup_metadataFile_handleAlert]
    cases text : metadataText print store infoHash with
    | none => simp
    | some own =>
      by_cases here : alert.answers = some infoHash
      · simp [here]
      · simp [here, Ne.symm here]

/-- A path that is no companion of a torrent is as it was. -/
theorem lookup_foldl_of_ne (print : Json → γ) (store : Store) (torrentsPath : Path) (path : Path)
    (noResume : ∀ infoHash, path ≠ resumeFile torrentsPath infoHash)
    (noMetadata : ∀ infoHash, path ≠ metadataFile torrentsPath infoHash)
    (alerts : List (SaveAlert γ)) (saving : Saving γ) :
    (alerts.foldl (handleAlert print store torrentsPath) saving).files.lookup path =
      saving.files.lookup path := by
  induction alerts generalizing saving with
  | nil => rfl
  | cons alert rest ih =>
    rw [List.foldl_cons, ih, lookup_handleAlert_of_ne _ _ _ _ _ _ noResume noMetadata]

/-- Saving leaves every torrent file as it was. -/
theorem lookup_torrentFile_saveTorrents (print : Json → γ) (store : Store) (torrentsPath : Path)
    (torrents : List TorrentEntry) (files saved : FileSystem γ)
    (batches : List (List (SaveAlert γ))) (infoHash : InfoHash)
    (ended : saveTorrents print store torrentsPath torrents files batches = some saved) :
    saved.lookup (torrentFile torrentsPath infoHash) =
      files.lookup (torrentFile torrentsPath infoHash) := by
  rw [awaitAlerts_eq_foldl print store torrentsPath batches _ saved ended]
  exact lookup_foldl_of_ne print store torrentsPath _ (torrentFile_ne_resumeFile _ _)
    (torrentFile_ne_metadataFile _ _) _ _

end Hadouken.SaveTorrents
