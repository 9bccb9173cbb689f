import Hadouken.SaveTorrents
import Mathlib.Data.List.Perm.Basic

/-!
# Accounting of resume data at shutdown

`saveTorrents` counts its requests and takes alerts until the count is back at
zero. The session answers each request with one alert, in any order and spread
over any batches, among alerts about other things. `getAlerts` turns the alerts
of a batch into script objects, with `null` for a kind that has no wrapper.
-/

namespace Hadouken.ResumeAccounting

open Files TorrentFiles Script MetadataStore SaveTorrents

variable {γ : Type}

/-- An alert in the session's queue. The resume data of a successful answer is
given as it will be encoded; a `save_resume_data_alert` always has some. -/
inductive Popped (γ : Type) where
  | saveResumeData (infoHash : InfoHash) (resumeData : γ)
  | saveResumeDataFailed (infoHash : InfoHash)
  | torrentPaused
  | wrapped
  | unwrapped

/-- `alert_wrapper::construct`. -/
def Popped.construct : Popped γ → SaveAlert γ
  | .saveResumeData infoHash resumeData => .saveResumeData infoHash (some resumeData)
  | .saveResumeDataFailed _ => .saveResumeDataFailed
  | .torrentPaused => .torrentPaused
  | .wrapped => .other
  | .unwrapped => .unknown

/-- `session_wrapper::get_alerts`. -/
def getAlerts (alerts : List (Popped γ)) : List (SaveAlert γ) := alerts.map Popped.construct

/-- The torrent whose request the alert completes. -/
def Popped.completes : Popped γ → Option InfoHash
  | .saveResumeData infoHash _ => some infoHash
  | .saveResumeDataFailed infoHash => some infoHash
  | _ => none

/-- The requests completed by some alerts, in their order. -/
def completions (alerts : List (Popped γ)) : List InfoHash := alerts.filterMap Popped.completes

/-- The torrents of a session. The valid ones have different info hashes. -/
structure SessionTorrents where
  torrents : List TorrentEntry
  distinct : ((torrents.filter TorrentEntry.isValid).map TorrentEntry.infoHash).Nodup

/-- The info hashes whose resume data is requested. -/
def SessionTorrents.requests (session : SessionTorrents) : List InfoHash :=
  (requested session.torrents).map TorrentEntry.infoHash

/-- Each request is completed by exactly one alert of the batches. -/
def OneEach (session : SessionTorrents) (batches : List (List (Popped γ))) : Prop :=
  (completions batches.flatten).Perm session.requests

/-- The last completion is in the last batch taken, if there is any. -/
def EndsWithLast (taken later : List (List (Popped γ))) : Prop :=
  completions later.flatten = [] ∧ ∀ last, taken.getLast? = some last → completions last ≠ []

/-- The files after the loop: resume data of the torrents whose request
succeeded, the metadata of those that have any, and nothing else. -/
structure Written (print : Json → γ) (store : Store) (torrentsPath : Path)
    (alerts : List (Popped γ)) (before after : FileSystem γ) : Prop where
  resume : ∀ infoHash resumeData, .saveResumeData infoHash resumeData ∈ alerts →
    after.lookup (resumeFile torrentsPath infoHash) = some (.file (some resumeData))
  metadata : ∀ infoHash resumeData text, .saveResumeData infoHash resumeData ∈ alerts →
    metadataText print store infoHash = some text →
    after.lookup (metadataFile torrentsPath infoHash) = some (.file (some text))
  untouched : ∀ path, (∀ infoHash resumeData, .saveResumeData infoHash resumeData ∈ alerts →
      path ≠ resumeFile torrentsPath infoHash ∧
      (path = metadataFile torrentsPath infoHash → metadataText print store infoHash = none)) →
    after.lookup path = before.lookup path

/-- No alert, no completion. -/
@[simp] theorem completions_nil : completions ([] : List (Popped γ)) = [] := rfl

/-- Completions of alerts in two parts. -/
@[simp] theorem completions_append (first second : List (Popped γ)) :
    completions (first ++ second) = completions first ++ completions second :=
  List.filterMap_append

/-- The completions of a batch and of the later ones. -/
theorem length_completions_cons (alerts : List (Popped γ)) (rest : List (List (Popped γ))) :
    (completions (alerts :: rest).flatten).length =
      (completions alerts).length + (completions rest.flatten).length := by
  rw [List.flatten_cons, completions_append, List.length_append]

/-- A batch more ends with the last completion when the rest does and some
completion was to come. -/
theorem endsWithLast_cons (alerts : List (Popped γ)) (rest later : List (List (Popped γ))) :
    EndsWithLast (alerts :: rest) later ↔
      0 < (completions (alerts :: (rest ++ later)).flatten).length ∧ EndsWithLast rest later := by
  have total : (completions (alerts :: (rest ++ later)).flatten).length =
      (completions alerts).length + (completions rest.flatten).length +
        (completions later.flatten).length := by
    rw [length_completions_cons, List.flatten_append, completions_append, List.length_append]
    omega
  rw [total]
  cases rest with
  | nil =>
    simp only [EndsWithLast, List.getLast?_singleton, Option.some.injEq, forall_eq',
      List.getLast?_nil, reduceCtorEq, false_implies, implies_true, and_true,
      ← List.length_pos_iff, ← List.length_eq_zero_iff, List.flatten_nil, completions_nil,
      List.length_nil]
    omega
  | cons second others =>
    have same : EndsWithLast (alerts :: second :: others) later ↔
        EndsWithLast (second :: others) later := by
      simp [EndsWithLast]
    rw [same]
    constructor
    · rintro ⟨done, last⟩
      refine ⟨?_, done, last⟩
      obtain ⟨front, final, whole⟩ :=
        (List.eq_nil_or_concat (second :: others)).resolve_left (by simp)
      have own : 0 < (completions final).length :=
        List.length_pos_iff.mpr (last final (by rw [whole]; simp))
      rw [whole]
      simp only [List.concat_eq_append, List.flatten_append, List.flatten_cons, List.flatten_nil,
        List.append_nil, completions_append, List.length_append]
      omega
    · exact And.right

section Handling

variable (print : Json → γ) (store : Store) (torrentsPath : Path)

/-- One alert counts down exactly when it completes a request. -/
theorem num_handleAlert (saving : Saving γ) (alert : Popped γ) :
    (handleAlert print store torrentsPath saving alert.construct).num =
      saving.num - (completions [alert]).length := by
  cases alert <;>
    simp [handleAlert, Popped.construct, completions, Popped.completes, List.filterMap_cons]

/-- The counter after some alerts. -/
theorem num_foldl (alerts : List (Popped γ)) (saving : Saving γ) :
    ((getAlerts alerts).foldl (handleAlert print store torrentsPath) saving).num =
      saving.num - (completions alerts).length := by
  induction alerts generalizing saving with
  | nil => simp [getAlerts]
  | cons alert rest ih =>
    have split : completions (alert :: rest) = completions [alert] ++ completions rest :=
      completions_append [alert] rest
    have folded := ih (handleAlert print store torrentsPath saving alert.construct)
    rw [num_handleAlert] at folded
    rw [split, List.length_append]
    simp only [getAlerts, List.map_cons, List.foldl_cons] at folded ⊢
    rw [folded]
    omega

/-- The loop leaves after the given batches exactly when the last completion is
in the last of them. The counter is the number of completions to come. -/
theorem awaitAlerts_isSome_iff (taken later : List (List (Popped γ))) (saving : Saving γ)
    (counted : saving.num = (completions (taken ++ later).flatten).length) :
    (awaitAlerts print store torrentsPath saving (taken.map getAlerts)).isSome = true ↔
      EndsWithLast taken later := by
  induction taken generalizing saving with
  | nil =>
    have waiting : saving.num = (completions later.flatten).length := by simpa using counted
    simp only [List.map_nil, awaitAlerts, EndsWithLast, List.getLast?_nil, reduceCtorEq,
      false_implies, implies_true, and_true, ← List.length_eq_zero_iff]
    split
    · simp only [Option.isSome_none, Bool.false_eq_true, false_iff]
      omega
    · simp only [Option.isSome_some, true_iff]
      omega
  | cons alerts rest ih =>
    have next : ((getAlerts alerts).foldl (handleAlert print store torrentsPath) saving).num =
        (completions (rest ++ later).flatten).length := by
      rw [num_foldl, counted, List.cons_append, length_completions_cons]
      omega
    rw [List.map_cons, awaitAlerts, endsWithLast_cons, ← List.cons_append]
    split
    · rw [ih _ next]
      exact ⟨fun ends => ⟨by omega, ends⟩, And.right⟩
    · simp only [Option.isSome_none, Bool.false_eq_true, false_iff, not_and]
      omega

/-- Paths that no answer writes are as they were. -/
theorem lookup_foldl_untouched (path : Path) (alerts : List (Popped γ)) (saving : Saving γ)
    (free : ∀ infoHash resumeData, .saveResumeData infoHash resumeData ∈ alerts →
      path ≠ resumeFile torrentsPath infoHash ∧
      (path = metadataFile torrentsPath infoHash → metadataText print store infoHash = none)) :
    ((getAlerts alerts).foldl (handleAlert print store torrentsPath) saving).files.lookup path =
      saving.files.lookup path := by
  induction alerts generalizing saving with
  | nil => rfl
  | cons alert rest ih =>
    have later := ih (handleAlert print store torrentsPath saving alert.construct)
      fun infoHash resumeData member => free infoHash resumeData (List.mem_cons_of_mem _ member)
    simp only [getAlerts, List.map_cons, List.foldl_cons] at later ⊢
    rw [later]
    cases alert with
    | saveResumeData infoHash resumeData =>
      obtain ⟨noResume, noMetadata⟩ := free infoHash resumeData List.mem_cons_self
      simp only [Popped.construct, handleAlert, writeFile]
      rw [lookup_assign_of_ne _ _ _ _ noResume]
      cases text : metadataText print store infoHash with
      | none => rfl
      | some own =>
        refine lookup_assign_of_ne _ _ _ _ fun here => ?_
        rw [noMetadata here] at text
        cases text
    | _ => rfl

/-- What the answers of all batches have written, when each torrent is answered
at most once. -/
theorem written_foldl (alerts : List (Popped γ)) (saving : Saving γ)
    (once : (completions alerts).Nodup) :
    Written print store torrentsPath alerts saving.files
      ((getAlerts alerts).foldl (handleAlert print store torrentsPath) saving).files := by
  constructor
  · intro infoHash resumeData member
    obtain ⟨earlier, later, rfl⟩ := List.append_of_mem member
    have answered : completions (.saveResumeData infoHash resumeData :: later) =
        infoHash :: completions later := rfl
    rw [completions_append, answered] at once
    have noOther : infoHash ∉ completions later := (List.nodup_cons.mp (List.nodup_append.mp once).2.1).1
    have kept := lookup_foldl_untouched print store torrentsPath
      (resumeFile torrentsPath infoHash) later
      (handleAlert print store torrentsPath
        ((getAlerts earlier).foldl (handleAlert print store torrentsPath) saving)
        (.saveResumeData infoHash (some resumeData))) fun other otherData answers => by
      refine ⟨fun same => noOther ?_, fun same => ?_⟩
      · rw [savedFile_injective _ _ same]
        exact List.mem_filterMap.mpr ⟨_, answers, rfl⟩
      · exact absurd same.symm (metadataFile_ne_resumeFile _ _ _)
    simp only [getAlerts, List.map_append, List.map_cons, List.foldl_append, List.foldl_cons,
      Popped.construct] at kept ⊢
    rw [kept]
    simp [handleAlert, writeFile]
  · intro infoHash resumeData text member own
    have answers : some infoHash ∈ (getAlerts alerts).map SaveAlert.answers := by
      simp only [getAlerts, List.map_map, List.mem_map]
      exact ⟨_, member, rfl⟩
    rw [lookup_metadataFile_foldl, if_pos answers, own]
    rfl
  · intro path free
    exact lookup_foldl_untouched print store torrentsPath path alerts saving free

end Handling

/-- The requests of a session are for different torrents. -/
theorem nodup_requests (session : SessionTorrents) : session.requests.Nodup := by
  have fewer : (requested session.torrents).Sublist
      (session.torrents.filter TorrentEntry.isValid) := by
    refine List.monotone_filter_right _ fun torrent wanted => ?_
    simp only [Bool.and_eq_true] at wanted
    exact wanted.1.1
  exact (fewer.map _).nodup session.distinct

/-- Some batch holds the last completion, unless there is none at all. -/
theorem exists_endsWithLast (batches : List (List (Popped γ))) :
    ∃ taken later, batches = taken ++ later ∧ EndsWithLast taken later := by
  induction batches with
  | nil => exact ⟨[], [], rfl, by simp [EndsWithLast]⟩
  | cons alerts rest ih =>
    obtain ⟨taken, later, rfl, ends⟩ := ih
    by_cases some : 0 < (completions (alerts :: (taken ++ later)).flatten).length
    · exact ⟨alerts :: taken, later, rfl, (endsWithLast_cons _ _ _).mpr ⟨some, ends⟩⟩
    · refine ⟨[], alerts :: (taken ++ later), rfl, ?_, by simp⟩
      exact List.length_eq_zero_iff.mp (by omega)

/-- A loop that has left with the last completion has written what all of the
alerts together ask for: the batches it did not take ask for nothing. -/
theorem written_saveTorrents (print : Json → γ) (store : Store) (torrentsPath : Path)
    (torrents : List TorrentEntry) (files : FileSystem γ) (taken later : List (List (Popped γ)))
    (once : (completions (taken ++ later).flatten).Nodup)
    (done : completions later.flatten = []) (saved : FileSystem γ)
    (ended : saveTorrents print store torrentsPath torrents files (taken.map getAlerts) =
      some saved) :
    Written print store torrentsPath (taken ++ later).flatten files saved := by
  have inTaken : ∀ infoHash resumeData,
      Popped.saveResumeData infoHash resumeData ∈ (taken ++ later).flatten ↔
        Popped.saveResumeData infoHash resumeData ∈ taken.flatten := by
    intro infoHash resumeData
    rw [List.flatten_append, List.mem_append, or_iff_left]
    intro late
    have completed : infoHash ∈ completions later.flatten :=
      List.mem_filterMap.mpr ⟨_, late, rfl⟩
    rw [done] at completed
    cases completed
  rw [List.flatten_append, completions_append] at once
  have written := written_foldl print store torrentsPath taken.flatten
    ⟨(requested torrents).length, files⟩ (List.nodup_append.mp once).1
  have handled : (taken.map getAlerts).flatten = getAlerts taken.flatten :=
    List.map_flatten.symm
  rw [awaitAlerts_eq_foldl print store torrentsPath _ _ saved ended, handled]
  constructor
  · exact fun infoHash resumeData member =>
      written.resume infoHash resumeData ((inTaken _ _).mp member)
  · exact fun infoHash resumeData text member =>
      written.metadata infoHash resumeData text ((inTaken _ _).mp member)
  · exact fun path free => written.untouched path fun infoHash resumeData member =>
      free infoHash resumeData ((inTaken _ _).mpr member)

/-- The loop takes batches up to the one with the last completion and leaves
there, its counter is never negative, and it has then written the files of the
torrents whose requests succeeded and no others. The batches after that one are
left to whoever pops them next. -/
theorem saveTorrents_accounts (print : Json → γ) (store : Store) (torrentsPath : Path)
    (session : SessionTorrents) (files : FileSystem γ) (batches : List (List (Popped γ)))
    (answered : OneEach session batches) :
    (∃ taken later, batches = taken ++ later ∧ EndsWithLast taken later) ∧
    (∀ taken later, batches = taken ++ later →
      ((saveTorrents print store torrentsPath session.torrents files
          (taken.map getAlerts)).isSome = true ↔ EndsWithLast taken later) ∧
      ∀ saved, saveTorrents print store torrentsPath session.torrents files
          (taken.map getAlerts) = some saved →
        Written print store torrentsPath batches.flatten files saved) ∧
    ∀ handled, handled <+: batches.flatten →
      0 ≤ ((getAlerts handled).foldl (handleAlert print store torrentsPath)
        ⟨(requested session.torrents).length, files⟩).num := by
  have total : (completions batches.flatten).length = (requested session.torrents).length := by
    rw [answered.length_eq, SessionTorrents.requests, List.length_map]
  have once : (completions batches.flatten).Nodup :=
    answered.nodup_iff.mpr (nodup_requests session)
  refine ⟨exists_endsWithLast batches, ?_, ?_⟩
  · rintro taken later rfl
    have leaves := awaitAlerts_isSome_iff print store torrentsPath taken later
      ⟨(requested session.torrents).length, files⟩ (by rw [← total])
    refine ⟨leaves, fun saved ended => ?_⟩
    have done := (leaves.mp (by rw [← saveTorrents, ended]; rfl)).1
    exact written_saveTorrents print store torrentsPath session.torrents files taken later once done
      saved ended
  · rintro handled ⟨rest, whole⟩
    rw [← whole, completions_append, List.length_append] at total
    rw [num_foldl]
    simp only
    omega

/-- A session of one torrent that needs its resume data saved. -/
def single : SessionTorrents where
  torrents := [⟨InfoHash.zero, true, true, true⟩]
  distinct := by decide

/-- The answer comes with the second batch, among alerts of other kinds: the
loop leaves after that batch and the third one is not taken. -/
theorem second_batch_ends :
    OneEach single [[.wrapped], [.unwrapped, .saveResumeData InfoHash.zero 7], [.torrentPaused]] ∧
    (saveTorrents (fun _ => 0) (fun _ => none) [] single.torrents []
      ([[.wrapped], [.unwrapped, .saveResumeData InfoHash.zero 7]].map getAlerts)).isSome = true := by
  have answered : OneEach single
      [[.wrapped], [.unwrapped, .saveResumeData InfoHash.zero 7], [.torrentPaused]] := by
    simp [OneEach, completions, Popped.completes, single, SessionTorrents.requests, requested,
      List.filterMap_cons]
  have accounts := saveTorrents_accounts (fun _ => 0) (fun _ => none) [] single [] _ answered
  refine ⟨answered, (accounts.2.1 _ [[.torrentPaused]] rfl).1.mpr ?_⟩
  simp [EndsWithLast, completions, Popped.completes, List.filterMap_cons]

end Hadouken.ResumeAccounting
