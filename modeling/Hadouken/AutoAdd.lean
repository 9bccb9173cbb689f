import Hadouken.Library.ValueStack
import Hadouken.LoadTorrents

/-!
# The tick and AutoAdd

Once a second `script_host::tick` emits a tick, on which timer.js calls its
callbacks in the order they were added. The plugins are loaded before `load`
adds the callback that posts torrent updates, so that AutoAdd scans its folders
first. What a callback throws ends the tick.

What the plugin finds in its folders is the environment's choice at each tick:
for each folder whether it exists, the files in it, and what reading them gives.
Regular expressions and the parser of torrent files are parameters.
-/

namespace Hadouken.AutoAdd

open Script ValueStack AbortingLoop LoadTorrents

variable {γ : Type}

/-- The operator `%`, with the sign of the dividend. -/
def remainder : Number → Number → Number
  | .finite left, .finite right =>
      if right = 0 then .nan
      else .finite (left - right * ((left / right).num.tdiv (left / right).den : ℤ))
  | .finite left, .infinite _ => .finite left
  | _, _ => .nan

/-- What `fs.readBuffer` does with a file. It gives a content, or `undefined`
for a file that is empty or gone. A directory, and a file that cannot be opened,
has the size -1, for which the engine throws. -/
inductive Reading (γ : Type) where
  | content (buffer : γ)
  | nothing
  | throws

/-- A file in a folder, and what reading it does. -/
structure FoundFile (γ : Type) where
  path : String
  reading : Reading γ

/-- What a scan finds under each position of the list of folders: nothing where
the folder does not exist. What is in a folder that exists can be listed. -/
abbrev Contents (γ : Type) := Nat → Option (List (FoundFile γ))

/-- The configured plugin and what it depends on. -/
structure Plugin (γ : Type) where
  conversions : Conversions
  regExp : Value → Option (String → Bool)
  torrentInfo : γ → Option TorrentInfo
  defaults : Defaults
  folders : List Value
  intervalSetting : Value

/-- `config.getNumber("extensions.autoadd.interval") || 5`. -/
def Plugin.interval (plugin : Plugin γ) : Value := plugin.intervalSetting.orElse (.integer 5)

/-- `defaultPattern`: in a string the backslash in front of the dot is dropped. -/
def defaultPattern : Value := .string ".*.torrent$"

/-- What a scan asks of the session and of the file system. -/
inductive Call (γ : Type) where
  | addTorrent (params : AddTorrentParams γ)
  | deleteFile (path : String)

/-- The save path a torrent of the folder gets. -/
def savePath (folder : Value) (initial : String) : Option String :=
  overrideSavePath (setting folder "savePath") initial

/-- The metadata a torrent of the folder is added with. -/
def metadataOf (folder : Value) : Members :=
  let label := setting folder "label"
  let tags := setting folder "tags"
  let labelled : Members := if label.truthy then [("label", label)] else []
  if tags.truthy then assign "tags" tags labelled else labelled

/-- The parameters for a file that was read, unless it is no torrent or the
save path is refused. -/
def readParams (plugin : Plugin γ) (folder : Value) (buffer : γ) :
    Option (AddTorrentParams γ) := do
  let params : AddTorrentParams γ := getDefault plugin.defaults
  let torrent ← plugin.torrentInfo buffer
  let path ← savePath folder params.savePath
  return {
    params with
    torrent := some torrent
    savePath := path
    metadata := Json.ofValue (.object (metadataOf folder)) }

/-- The body of the loop over the files of a folder. -/
def checkFile (plugin : Plugin γ) (folder : Value) (pattern : String → Bool)
    (file : FoundFile γ) : Iteration (Call γ) :=
  if pattern file.path then
    match file.reading with
    | .throws => ⟨[], false⟩
    | .nothing => ⟨[], true⟩
    | .content buffer =>
        match readParams plugin folder buffer with
        | none => ⟨[], false⟩
        | some params =>
            ⟨.addTorrent params ::
              if (setting folder "keep").truthy then [] else [.deleteFile file.path], true⟩
  else ⟨[], true⟩

/-- What a scan has called, and whether it came back without an exception. -/
structure Scan (γ : Type) where
  calls : List (Call γ)
  returned : Bool

/-- `checkFiles`. -/
def checkFiles (plugin : Plugin γ) (folder : Value) (files : List (FoundFile γ)) : Scan γ :=
  match files with
  | [] => ⟨[], true⟩
  | files =>
      match plugin.regExp ((setting folder "pattern").orElse defaultPattern) with
      | none => ⟨[], false⟩
      | some pattern =>
          let body := checkFile plugin folder pattern
          ⟨(effects body files).flatten, completes body files⟩

/-- `checkFolders`, from a position of the list on. It returns at the first
folder that does not exist. -/
def checkFolders (plugin : Plugin γ) (contents : Contents γ) : Nat → List Value → Scan γ
  | _, [] => ⟨[], true⟩
  | i, folder :: rest =>
      match folder.member "path" with
      | some (.string _) =>
          match contents i with
          | none => ⟨[], true⟩
          | some files =>
              let own := checkFiles plugin folder files
              if own.returned then
                let later := checkFolders plugin contents (i + 1) rest
                ⟨own.calls ++ later.calls, later.returned⟩
              else own
      | _ => ⟨[], false⟩

/-- The plugin's counter, and what has been called so far. -/
structure State (γ : Type) where
  currentTick : Nat
  calls : List (Call γ)
  posted : Nat

/-- A callback of the timer: the state it leaves, and whether it returned. -/
abbrev Callback (γ : Type) := Contents γ → State γ → State γ × Bool

/-- `currentTick % interval === 0`. -/
def due (plugin : Plugin γ) (currentTick : Nat) : Option Bool :=
  (plugin.conversions.toNumber plugin.interval).map fun interval =>
    decide (remainder (.finite currentTick) interval = .finite 0)

/-- The callback of the plugin. The counter goes on only after a scan that
returned. -/
def scan (plugin : Plugin γ) : Callback γ := fun contents state =>
  match due plugin state.currentTick with
  | none => (state, false)
  | some false => ({ state with currentTick := state.currentTick + 1 }, true)
  | some true =>
      let found := checkFolders plugin contents 0 plugin.folders
      let calls := state.calls ++ found.calls
      if found.returned then
        ({ state with currentTick := state.currentTick + 1, calls := calls }, true)
      else ({ state with calls := calls }, false)

/-- The callback `load` adds: `session.postTorrentUpdates()`. -/
def postTorrentUpdates : Callback γ := fun _ state =>
  ({ state with posted := state.posted + 1 }, true)

/-- The callbacks after `load`, with AutoAdd enabled. -/
def callbacks (plugin : Plugin γ) : List (Callback γ) := [scan plugin, postTorrentUpdates]

/-- One tick: the callbacks in their order, until one throws. -/
def tick : List (Callback γ) → Contents γ → State γ → State γ
  | [], _, state => state
  | callback :: rest, contents, state =>
      let (next, returned) := callback contents state
      if returned then tick rest contents next else next

/-- Ticks one after the other, with what each finds. -/
def ticks (callbacks : List (Callback γ)) (found : List (Contents γ)) (state : State γ) : State γ :=
  found.foldl (fun state contents => tick callbacks contents state) state

/-- The folder's save path, if it has one, is a text. -/
def SavePathAccepted (folder : Value) : Prop :=
  (setting folder "savePath").truthy = true → ∃ path, setting folder "savePath" = .string path

/-- The file can be opened, and it is a torrent unless there is nothing in it. -/
def Genuine (plugin : Plugin γ) : Reading γ → Prop
  | .content buffer => (plugin.torrentInfo buffer).isSome = true
  | .nothing => True
  | .throws => False

/-- The files of a folder can be scanned: its pattern compiles, and what matches
can be opened and is a torrent, for which the folder's save path is accepted, if
there is anything in it. -/
def FilesSafe (plugin : Plugin γ) (folder : Value) (files : List (FoundFile γ)) : Prop :=
  files ≠ [] → ∃ pattern,
    plugin.regExp ((setting folder "pattern").orElse defaultPattern) = some pattern ∧
    ∀ file ∈ files, pattern file.path = true →
      Genuine plugin file.reading ∧
        ∀ buffer, file.reading = .content buffer → SavePathAccepted folder

/-- A scan meets no obstacle: each folder it comes to, which is up to the first
that does not exist, has a path and files that can be scanned. -/
def ScanSafe (plugin : Plugin γ) (contents : Contents γ) (first : Nat) (folders : List Value) :
    Prop :=
  ∀ i folder, folders[i]? = some folder → (∀ j < i, (contents (first + j)).isSome = true) →
    (∃ path, folder.member "path" = some (.string path)) ∧
    ∀ files, contents (first + i) = some files → FilesSafe plugin folder files

/-- The plugin does not throw at a tick: its interval is a number, and where a
scan is due it is safe. -/
def TickSafe (plugin : Plugin γ) (contents : Contents γ) (currentTick : Nat) : Prop :=
  ∃ now, due plugin currentTick = some now ∧
    (now = true → ScanSafe plugin contents 0 plugin.folders)

section Scanning

variable (plugin : Plugin γ) (folder : Value)

/-- The parameters can be built when the content is a torrent and the save path
is accepted. -/
theorem readParams_isSome_iff (buffer : γ) :
    (readParams plugin folder buffer).isSome = true ↔
      (plugin.torrentInfo buffer).isSome = true ∧ SavePathAccepted folder := by
  unfold SavePathAccepted
  cases parsed : plugin.torrentInfo buffer with
  | none => simp [readParams, parsed]
  | some torrent =>
    have chosen := overrideSavePath_isSome_iff (setting folder "savePath")
      (getDefault plugin.defaults : AddTorrentParams γ).savePath
    rw [← chosen]
    cases path : overrideSavePath (setting folder "savePath")
      (getDefault plugin.defaults : AddTorrentParams γ).savePath <;>
      simp [readParams, parsed, savePath, path]

/-- The loop goes on past a file unless it matches and either cannot be opened or
is refused. -/
theorem checkFile_goesOn_iff (pattern : String → Bool) (file : FoundFile γ) :
    (checkFile plugin folder pattern file).goesOn = true ↔
      (pattern file.path = true →
        Genuine plugin file.reading ∧
          ∀ buffer, file.reading = .content buffer → SavePathAccepted folder) := by
  by_cases matched : pattern file.path = true
  · cases read : file.reading with
    | throws => simp [checkFile, Genuine, matched, read]
    | nothing => simp [checkFile, Genuine, matched, read]
    | content buffer =>
      have accepted := readParams_isSome_iff plugin folder buffer
      cases built : readParams plugin folder buffer <;>
        simpa [checkFile, Genuine, matched, read, built] using accepted
  · simp [checkFile, matched]

/-- A folder is scanned to its end exactly when its files are safe. -/
theorem checkFiles_returned_iff (files : List (FoundFile γ)) :
    (checkFiles plugin folder files).returned = true ↔ FilesSafe plugin folder files := by
  cases files with
  | nil => simp [checkFiles, FilesSafe]
  | cons first others =>
    cases compiled : plugin.regExp ((setting folder "pattern").orElse defaultPattern) with
    | none => simp [checkFiles, FilesSafe, compiled]
    | some pattern =>
      simp only [checkFiles, compiled, completes, List.all_eq_true, checkFile_goesOn_iff,
        FilesSafe, ne_eq, reduceCtorEq, not_false_eq_true, true_implies, Option.some.injEq,
        exists_eq_left']

/-- A folder more is scanned safely when it has a path and, unless it is
missing, its files and the folders behind it are safe. -/
theorem scanSafe_cons_iff (contents : Contents γ) (first : Nat) (rest : List Value) :
    ScanSafe plugin contents first (folder :: rest) ↔
      (∃ path, folder.member "path" = some (.string path)) ∧
      ∀ files, contents first = some files →
        FilesSafe plugin folder files ∧ ScanSafe plugin contents (first + 1) rest := by
  constructor
  · intro safe
    obtain ⟨path, own⟩ := safe 0 folder rfl (by simp)
    refine ⟨path, fun files here => ⟨own files here, ?_⟩⟩
    intro i other stands present
    have later := safe (i + 1) other stands fun j before => ?_
    · rwa [show first + (i + 1) = first + 1 + i by omega] at later
    · cases j with
      | zero => simp [here]
      | succ j =>
        rw [show first + (j + 1) = first + 1 + j by omega]
        exact present j (by omega)
  · rintro ⟨path, safe⟩ i other stands present
    cases i with
    | zero =>
      obtain rfl := Option.some.inj stands
      exact ⟨path, fun files here => (safe files here).1⟩
    | succ i =>
      obtain ⟨files, here⟩ := Option.isSome_iff_exists.mp (present 0 (by omega))
      have later := (safe files here).2 i other stands fun j before => ?_
      · rwa [show first + 1 + i = first + (i + 1) by omega] at later
      · rw [show first + 1 + j = first + (j + 1) by omega]
        exact present (j + 1) (by omega)

/-- A scan returns exactly when it meets no obstacle. -/
theorem checkFolders_returned_iff (contents : Contents γ) (folders : List Value) (first : Nat) :
    (checkFolders plugin contents first folders).returned = true ↔
      ScanSafe plugin contents first folders := by
  induction folders generalizing first with
  | nil => simp [checkFolders, ScanSafe]
  | cons folder rest ih =>
    rw [scanSafe_cons_iff]
    by_cases named : ∃ path, folder.member "path" = some (.string path)
    · obtain ⟨path, own⟩ := named
      cases here : contents first with
      | none => simp [checkFolders, own, here]
      | some files =>
        have scanned := checkFiles_returned_iff plugin folder files
        cases returned : (checkFiles plugin folder files).returned with
        | true =>
          rw [returned] at scanned
          simp [checkFolders, own, here, returned, ih, ← scanned]
        | false =>
          rw [returned] at scanned
          simp [checkFolders, own, here, returned, ← scanned]
    · have refused : (checkFolders plugin contents first (folder :: rest)).returned = false := by
        rw [checkFolders]
        split
        · rename_i path own
          exact absurd ⟨path, own⟩ named
        · rfl
      simp [refused, named]

/-- The callback of the plugin returns at the ticks that are safe; it then counts
the tick, and never posts updates itself. -/
theorem scan_spec (contents : Contents γ) (state : State γ) :
    ((scan plugin contents state).2 = true ↔ TickSafe plugin contents state.currentTick) ∧
    (scan plugin contents state).1.posted = state.posted ∧
    (scan plugin contents state).1.currentTick =
      if (scan plugin contents state).2 then state.currentTick + 1 else state.currentTick := by
  unfold scan TickSafe
  cases now : due plugin state.currentTick with
  | none => simp
  | some scans =>
    cases scans with
    | false => simp
    | true =>
      have returned := checkFolders_returned_iff plugin contents plugin.folders 0
      cases found : (checkFolders plugin contents 0 plugin.folders).returned with
      | true =>
        rw [found] at returned
        simp [found, ← returned]
      | false =>
        rw [found] at returned
        simp [found, ← returned]

/-- A safe tick is counted and posts the updates; another is not counted and
posts none. -/
theorem tick_spec (contents : Contents γ) (state : State γ) :
    (TickSafe plugin contents state.currentTick →
      (tick (callbacks plugin) contents state).posted = state.posted + 1 ∧
      (tick (callbacks plugin) contents state).currentTick = state.currentTick + 1) ∧
    (¬ TickSafe plugin contents state.currentTick →
      (tick (callbacks plugin) contents state).posted = state.posted ∧
      (tick (callbacks plugin) contents state).currentTick = state.currentTick) := by
  obtain ⟨returns, posted, counted⟩ := scan_spec plugin contents state
  rw [← returns]
  cases returned : (scan plugin contents state).2 with
  | true => simp [tick, callbacks, returned, postTorrentUpdates, posted, counted]
  | false => simp [tick, callbacks, returned, posted, counted]

/-- No more updates are posted than there are ticks. -/
theorem posted_ticks_le (found : List (Contents γ)) (state : State γ) :
    (ticks (callbacks plugin) found state).posted ≤ state.posted + found.length := by
  induction found generalizing state with
  | nil => simp [ticks]
  | cons contents rest ih =>
    have later := ih (tick (callbacks plugin) contents state)
    have own : (tick (callbacks plugin) contents state).posted ≤ state.posted + 1 := by
      obtain ⟨safe, disturbed⟩ := tick_spec plugin contents state
      by_cases quiet : TickSafe plugin contents state.currentTick
      · exact (safe quiet).1.le
      · have same := (disturbed quiet).1
        omega
    rw [ticks, List.foldl_cons, List.length_cons]
    rw [ticks] at later
    omega

/-- From any count of ticks on, the updates are posted at every tick exactly
when every tick is safe. -/
theorem posted_ticks_iff (found : List (Contents γ)) (state : State γ) :
    (ticks (callbacks plugin) found state).posted = state.posted + found.length ↔
      ∀ t contents, found[t]? = some contents →
        TickSafe plugin contents (state.currentTick + t) := by
  induction found generalizing state with
  | nil => simp [ticks]
  | cons contents rest ih =>
    obtain ⟨safe, disturbed⟩ := tick_spec plugin contents state
    have first : (∀ t later, (contents :: rest)[t]? = some later →
          TickSafe plugin later (state.currentTick + t)) ↔
        TickSafe plugin contents state.currentTick ∧
          ∀ t later, rest[t]? = some later → TickSafe plugin later (state.currentTick + 1 + t) := by
      constructor
      · intro all
        refine ⟨all 0 contents rfl, fun t later stands => ?_⟩
        rw [show state.currentTick + 1 + t = state.currentTick + (t + 1) by omega]
        exact all (t + 1) later stands
      · rintro ⟨own, others⟩ t later stands
        cases t with
        | zero =>
          obtain rfl := Option.some.inj stands
          exact own
        | succ t =>
          rw [show state.currentTick + (t + 1) = state.currentTick + 1 + t by omega]
          exact others t later stands
    rw [first]
    have unfolded : ticks (callbacks plugin) (contents :: rest) state =
        ticks (callbacks plugin) rest (tick (callbacks plugin) contents state) := rfl
    rw [unfolded, List.length_cons]
    by_cases quiet : TickSafe plugin contents state.currentTick
    · obtain ⟨posted, counted⟩ := safe quiet
      have later := ih (tick (callbacks plugin) contents state)
      rw [posted, counted] at later
      rw [and_iff_right quiet, ← later]
      omega
    · have few := posted_ticks_le plugin rest (tick (callbacks plugin) contents state)
      rw [(disturbed quiet).1] at few
      simp only [quiet, false_and, iff_false]
      omega

end Scanning

/-- The state after `load`. -/
def loaded : State γ := ⟨0, [], 0⟩

/-- One watched folder, in which every file matches and none is a torrent. -/
def watching : Plugin Unit where
  conversions := plainConversions
  regExp _ := some fun _ => true
  torrentInfo _ := none
  defaults := ⟨0, none, false⟩
  folders := [.object [("path", .string "watch")]]
  intervalSetting := .undefined

end Hadouken.AutoAdd
