import Hadouken.Dispatch
import Hadouken.Library.CommandLines
import Hadouken.Library.ValueStack
import Hadouken.TorrentFiles

/-!
# Launcher

`platform::launch_process` of Windows writes the executable and its arguments one
behind the other, with a space in front of each argument, and nothing in quotes.
The program that is started splits the line again, and finds the same arguments
only where none of them needed quotes.

The launcher extension starts an application for each event of a torrent it is
configured for, with the info hash, the name and the save path of the torrent. Its
table of events is an ordinary object: an event under the name of an inherited
property ends the load before any handler is registered.
-/

namespace Hadouken.Launcher

open CommandLines Dispatch ValueStack TorrentFiles

section Processes

-- `CreateProcess` and the wait for the process: its exit code, or the error.
variable (createProcess : String → Except Nat (BitVec 32))

/-- A process that was started: its command line, and what came of it. -/
structure Process where
  line : String
  exitCode : Int
  errors : List String
deriving DecidableEq

/-- The argument vector of a process that is started with the line. -/
def Process.arguments (process : Process) : List String :=
  (argumentVector process.line.toList).map .ofList

/-- `platform::launch_process`. -/
def launchProcess (executable : String) (args : List String) : Process :=
  let cmd := args.foldl (fun cmd arg => cmd ++ (" " ++ arg)) executable
  -- `CreateProcess` is given a C string.
  let line := cString cmd
  match createProcess line with
  | .error code => ⟨line, -999, ["CreateProcess failed: " ++ toString code]⟩
  | .ok exitCode => ⟨line, exitCode.toInt, []⟩

/-- `process.launch`. -/
def processLaunch (app : String) (arguments : Option (List String)) : Process :=
  launchProcess createProcess (cString app) ((arguments.getD []).map cString)

end Processes

section Extension

variable (createProcess : String → Except Nat (BitVec 32))

/-- The body of the loop in `getApplicationEvents`. What is inherited is no array, so
that nothing can be pushed to it. -/
def addApplication (result : List (String × List String)) (entry : String × String) :
    Option (List (String × List String)) :=
  match result.lookup entry.1 with
  | some own => some (assign entry.1 (own ++ [entry.2]) result)
  | none =>
      if (objectPrototype.lookup entry.1).isSome then none
      else some (assign entry.1 [entry.2] result)

/-- `getApplicationEvents`, unless it throws. -/
def getApplicationEvents (apps : List (String × String)) : Option (List (String × List String)) :=
  apps.foldlM addApplication []

/-- An application that was launched, and what was logged about it. -/
structure Launch where
  app : String
  process : Process
  errors : List String
deriving DecidableEq

/-- The body of the loop in `launch`. -/
def launchOne (args : List String) (app : String) : Launch :=
  let process := processLaunch createProcess app (some args)
  { app, process
    errors := if process.exitCode ≠ 0 then
        ["Process '" ++ app ++ "' returned a non-zero exit code: " ++ toString process.exitCode]
      else [] }

/-- `launch`. -/
def launch (apps : List String) (args : List String) : List Launch :=
  apps.map (launchOne createProcess args)

/-- What the handlers read of a torrent and its status. -/
structure Torrent where
  infoHash : InfoHash
  name : String
  savePath : String
deriving DecidableEq

/-- The getters of the status give C strings. -/
def Torrent.args (torrent : Torrent) : List String :=
  [torrent.infoHash.text, cString torrent.name, cString torrent.savePath]

/-- The handler of an event. -/
def onEvent (appEvents : List (String × List String)) (event : String) (torrent : Torrent) :
    List Launch :=
  match appEvents.lookup event with
  | none => []
  | some apps => launch createProcess apps torrent.args

/-- The handlers that are registered: none where the extension is disabled or the
table of events throws. -/
def load (enabled : Bool) (apps : List (String × String)) :
    List (String × (Torrent → List Launch)) :=
  if enabled = false then []
  else
    match getApplicationEvents apps with
    | none => []
    | some appEvents =>
        [("torrent.added", onEvent createProcess appEvents "torrent.added"),
          ("torrent.finished", onEvent createProcess appEvents "torrent.finished")]

/-- What the extension launches for an event of a torrent. -/
def launches (enabled : Bool) (apps : List (String × String)) (event : String)
    (torrent : Torrent) : List Launch :=
  match (load createProcess enabled apps).lookup event with
  | none => []
  | some handler => handler torrent

end Extension

section Lines

/-- The command line is the executable and its arguments, a space before each. -/
theorem toList_foldl (args : List String) (executable : String) :
    (args.foldl (fun cmd arg => cmd ++ (" " ++ arg)) executable).toList =
      executable.toList ++ spaced (args.map String.toList) := by
  induction args generalizing executable with
  | nil => simp [spaced]
  | cons arg rest ih =>
    rw [List.foldl_cons, ih]
    simp [spaced]

/-- A C string is the front of its text. -/
theorem cString_front (text : String) : (cString text).toList <+: text.toList := by
  rw [cString, String.toList_ofList]
  exact List.takeWhile_prefix _

variable (createProcess : String → Except Nat (BitVec 32))

/-- The line does not depend on what comes of the process. -/
theorem line_launchProcess (executable : String) (args : List String) :
    (launchProcess createProcess executable args).line =
      cString (args.foldl (fun cmd arg => cmd ++ (" " ++ arg)) executable) := by
  simp only [launchProcess]
  split <;> rfl

/-- The line is a front of what was put together. -/
theorem line_front (executable : String) (args : List String) :
    (launchProcess createProcess executable args).line.toList <+:
      executable.toList ++ spaced (args.map String.toList) := by
  rw [line_launchProcess, ← toList_foldl]
  exact cString_front _

/-- Arguments as texts and as lists of characters. -/
theorem arguments_eq_iff (process : Process) (first : String) (others : List String) :
    process.arguments = first :: others ↔
      argumentVector process.line.toList = first.toList :: others.map String.toList := by
  unfold Process.arguments
  constructor
  · intro same
    have lists := congrArg (List.map String.toList) same
    simpa [List.map_map, Function.comp_def] using lists
  · intro same
    rw [same]
    simp [List.map_map, Function.comp_def]

/-- A text that stands for itself on a command line. -/
def Plain (text : String) : Prop :=
  ∀ c ∈ text.toList, c ≠ ' ' ∧ c ≠ '\t' ∧ c ≠ '"' ∧ c.toNat ≠ 0

/-- Such a text needs no quotes and is a whole C string. -/
theorem plain_iff (text : String) :
    Plain text ↔ Unspecial text.toList ∧ cString text = text := by
  rw [cString_eq_iff]
  unfold Plain Unspecial isBlank
  constructor
  · intro plain
    refine ⟨?_, fun c found => (plain c found).2.2.2⟩
    intro c found
    obtain ⟨space, tab, quote, _⟩ := plain c found
    simp [quote, space, tab]
  · rintro ⟨unspecial, whole⟩ c found
    obtain ⟨quote, blank⟩ := unspecial c found
    simp only [Bool.or_eq_false_iff, beq_eq_false_iff_ne] at blank
    exact ⟨blank.1, blank.2, quote, whole c found⟩

/-- No character of the written line is NUL where none of its parts has one. -/
theorem whole_line_iff (executable : String) (args : List String) :
    (∀ c ∈ executable.toList ++ spaced (args.map String.toList), c.toNat ≠ 0) ↔
      cString executable = executable ∧ ∀ arg ∈ args, cString arg = arg := by
  have space : ' '.toNat ≠ 0 := by decide
  simp only [cString_eq_iff, spaced, List.mem_append, List.mem_flatMap, List.mem_map,
    List.mem_cons]
  constructor
  · intro whole
    refine ⟨fun c found => whole c (.inl found), ?_⟩
    intro arg member c found
    exact whole c (.inr ⟨arg.toList, ⟨arg, member, rfl⟩, .inr found⟩)
  · rintro ⟨first, others⟩ c found
    rcases found with found | ⟨_, ⟨arg, member, rfl⟩, rfl | found⟩
    · exact first c found
    · exact space
    · exact others arg member c found

/-- The line is all that was put together where no part has a NUL. -/
theorem written_iff (executable : String) (args : List String) :
    (launchProcess createProcess executable args).line.toList =
        executable.toList ++ spaced (args.map String.toList) ↔
      cString executable = executable ∧ ∀ arg ∈ args, cString arg = arg := by
  rw [line_launchProcess, ← whole_line_iff, ← toList_foldl, ← cString_eq_iff,
    String.toList_inj]

/-- What a program receives of the arguments it is given. -/
theorem arguments_launchProcess_iff (executable : String) (args : List String) :
    (launchProcess createProcess executable args).arguments = executable :: args ↔
      Plain executable ∧ ∀ arg ∈ args, Plain arg ∧ arg ≠ "" := by
  have front := line_front createProcess executable args
  rw [arguments_eq_iff, argumentVector_eq_iff front, written_iff, plain_iff]
  simp only [plain_iff, List.forall_mem_map, ne_eq, String.toList_eq_nil_iff]
  constructor
  · rintro ⟨⟨whole, wholes⟩, unspecial, others⟩
    refine ⟨⟨unspecial, whole⟩, fun arg member => ?_⟩
    obtain ⟨clean, nonempty⟩ := others arg member
    exact ⟨⟨clean, wholes arg member⟩, nonempty⟩
  · rintro ⟨⟨unspecial, whole⟩, others⟩
    refine ⟨⟨whole, fun arg member => (others arg member).1.2⟩, unspecial, ?_⟩
    intro arg member
    exact ⟨(others arg member).1.1, (others arg member).2⟩

end Lines

section Cuts

variable (createProcess : String → Except Nat (BitVec 32))

/-- Cutting texts at their NULs never makes them heavier. -/
theorem weight_cString_le (texts : List String) :
    weight ((texts.map cString).map String.toList) ≤ weight (texts.map String.toList) := by
  induction texts with
  | nil => simp
  | cons text rest ih =>
    have shorter := (cString_front text).length_le
    simp only [List.map_cons, weight_cons] at ih ⊢
    omega

/-- Cutting texts at their NULs makes them lighter, unless it changes nothing. -/
theorem cString_eq_of_weight (texts : List String)
    (heavy : weight (texts.map String.toList) ≤
      weight ((texts.map cString).map String.toList)) :
    ∀ text ∈ texts, cString text = text := by
  induction texts with
  | nil => simp
  | cons text rest ih =>
    have shorter := (cString_front text).length_le
    have others := weight_cString_le rest
    simp only [List.map_cons, weight_cons] at heavy
    intro found member
    rcases List.mem_cons.mp member with rfl | member
    · apply String.toList_injective
      apply (cString_front found).eq_of_length
      omega
    · exact ih (by omega) found member

/-- Texts without NULs are not cut. -/
theorem map_cString_eq {texts : List String} (whole : ∀ text ∈ texts, cString text = text) :
    texts.map cString = texts :=
  (List.map_congr_left whole).trans (List.map_id' texts)

/-- What NULs cut off on the way to the line is lost: no other texts arrive in its
place. -/
theorem arguments_cut_iff (executable : String) (args : List String) :
    (launchProcess createProcess (cString executable) (args.map cString)).arguments =
        executable :: args ↔
      Plain executable ∧ ∀ arg ∈ args, Plain arg ∧ arg ≠ "" := by
  constructor
  · intro received
    have front := line_front createProcess (cString executable) (args.map cString)
    have light := weight_of_front front
    rw [(arguments_eq_iff _ _ _).mp received] at light
    have whole := cString_eq_of_weight (executable :: args) light
    have others := map_cString_eq fun arg member => whole arg (List.mem_cons_of_mem _ member)
    rw [whole executable (by simp), others] at received
    exact (arguments_launchProcess_iff createProcess executable args).mp received
  · intro plain
    have whole : cString executable = executable := ((plain_iff executable).mp plain.1).2
    have others := map_cString_eq fun arg member =>
      ((plain_iff arg).mp (plain.2 arg member).1).2
    rw [whole, others]
    exact (arguments_launchProcess_iff createProcess executable args).mpr plain

end Cuts

section Events

variable (createProcess : String → Except Nat (BitVec 32))

/-- No application is configured for an event under an inherited name. -/
def Loads (apps : List (String × String)) : Prop :=
  ∀ entry ∈ apps, objectPrototype.lookup entry.1 = none

/-- The table holds nothing under an inherited name. -/
def Ordinary (appEvents : List (String × List String)) : Prop :=
  ∀ name, (objectPrototype.lookup name).isSome → appEvents.lookup name = none

/-- An application is added behind those of its event. -/
theorem addApplication_eq {before : List (String × List String)} (entry : String × String)
    (own : objectPrototype.lookup entry.1 = none) : addApplication before entry =
      some (assign entry.1 ((before.lookup entry.1).getD [] ++ [entry.2]) before) := by
  rw [addApplication, own]
  cases before.lookup entry.1 <;> rfl

/-- Behind an ordinary table the loop goes through where the rest loads, and throws
elsewhere. -/
theorem foldlM_addApplication (apps : List (String × String))
    (before : List (String × List String)) (ordinary : Ordinary before) :
    (Loads apps → ∃ appEvents, apps.foldlM addApplication before = some appEvents ∧
        ∀ event, (appEvents.lookup event).getD [] = (before.lookup event).getD [] ++
          (apps.filter fun entry => entry.1 = event).map Prod.snd) ∧
      (¬ Loads apps → apps.foldlM addApplication before = none) := by
  induction apps generalizing before with
  | nil => exact ⟨fun _ => ⟨before, rfl, by simp⟩, fun fails => absurd (by simp [Loads]) fails⟩
  | cons entry rest ih =>
    rw [List.foldlM_cons]
    cases own : objectPrototype.lookup entry.1 with
    | some inherited =>
      have throws : addApplication before entry = none := by
        rw [addApplication, ordinary entry.1 (by rw [own]; rfl), own]
        rfl
      refine ⟨fun loads => ?_, fun _ => by rw [throws]; rfl⟩
      rw [loads entry List.mem_cons_self] at own
      cases own
    | none =>
      have still : Ordinary
          (assign entry.1 ((before.lookup entry.1).getD [] ++ [entry.2]) before) := by
        intro name inherited
        have other : name ≠ entry.1 := by
          rintro rfl
          rw [own] at inherited
          cases inherited
        rw [lookup_assign_of_ne _ _ _ _ other, ordinary name inherited]
      obtain ⟨goes, throws⟩ := ih _ still
      have split : Loads (entry :: rest) ↔ Loads rest :=
        List.forall_mem_cons.trans (and_iff_right own)
      rw [addApplication_eq entry own, Option.bind_eq_bind, Option.bind_some, split]
      refine ⟨fun loads => ?_, throws⟩
      obtain ⟨appEvents, folded, held⟩ := goes loads
      refine ⟨appEvents, folded, fun event => ?_⟩
      rw [held, lookup_assign]
      by_cases same : entry.1 = event
      · simp [same]
      · simp [same, Ne.symm same]

/-- The table has the applications of every event in their order. -/
theorem getApplicationEvents_of_loads {apps : List (String × String)} (loads : Loads apps) :
    ∃ appEvents, getApplicationEvents apps = some appEvents ∧
      ∀ event, (appEvents.lookup event).getD [] =
        (apps.filter fun entry => entry.1 = event).map Prod.snd := by
  obtain ⟨appEvents, folded, held⟩ := (foldlM_addApplication apps [] fun _ _ => rfl).1 loads
  exact ⟨appEvents, folded, fun event => by simpa using held event⟩

/-- An inherited name among the events ends the load. -/
theorem getApplicationEvents_eq_none {apps : List (String × String)} (fails : ¬ Loads apps) :
    getApplicationEvents apps = none :=
  (foldlM_addApplication apps [] fun _ _ => rfl).2 fails

/-- The handler launches what the table has for its event. -/
theorem onEvent_eq (appEvents : List (String × List String)) (event : String)
    (torrent : Torrent) : onEvent createProcess appEvents event torrent =
      ((appEvents.lookup event).getD []).map (launchOne createProcess torrent.args) := by
  unfold onEvent
  cases appEvents.lookup event with
  | none => rfl
  | some apps => rfl

/-- The applications an event of a torrent launches. -/
def Launches (enabled : Bool) (apps : List (String × String)) (event app : String) : Prop :=
  enabled = true ∧ Loads apps ∧ (event = "torrent.added" ∨ event = "torrent.finished") ∧
    (event, app) ∈ apps

/-- A handler launches the applications of its event. -/
theorem mem_onEvent_iff {apps : List (String × String)} {event : String}
    {appEvents : List (String × List String)}
    (held : (appEvents.lookup event).getD [] =
      (apps.filter fun entry => entry.1 = event).map Prod.snd) (torrent : Torrent)
    (launched : Launch) :
    launched ∈ onEvent createProcess appEvents event torrent ↔
      ∃ app, (event, app) ∈ apps ∧ launched = launchOne createProcess torrent.args app := by
  rw [onEvent_eq, held]
  simp only [List.mem_map, List.mem_filter, decide_eq_true_eq, Prod.exists]
  constructor
  · rintro ⟨app, ⟨name, app, ⟨member, rfl⟩, rfl⟩, rfl⟩
    exact ⟨app, member, rfl⟩
  · rintro ⟨app, member, rfl⟩
    exact ⟨app, ⟨event, app, ⟨member, rfl⟩, rfl⟩, rfl⟩

/-- The launches of an event are those of its applications. -/
theorem mem_launches_iff (enabled : Bool) (apps : List (String × String)) (event : String)
    (torrent : Torrent) (launched : Launch) :
    launched ∈ launches createProcess enabled apps event torrent ↔
      ∃ app, Launches enabled apps event app ∧
        launched = launchOne createProcess torrent.args app := by
  unfold launches load Launches
  by_cases on : enabled = true
  · by_cases loads : Loads apps
    · obtain ⟨appEvents, table, held⟩ := getApplicationEvents_of_loads loads
      rw [table]
      by_cases added : event = "torrent.added"
      · subst added
        simp [on, loads, lookup_cons_ite, mem_onEvent_iff createProcess (held _)]
      by_cases finished : event = "torrent.finished"
      · subst finished
        simp [on, loads, lookup_cons_ite, mem_onEvent_iff createProcess (held _)]
      · simp [on, lookup_cons_ite, added, finished]
    · rw [getApplicationEvents_eq_none loads]
      simp [on, loads]
  · simp [on]

/-- An info hash stands for itself. -/
theorem plain_infoHash (infoHash : InfoHash) : Plain infoHash.text ∧ infoHash.text ≠ "" := by
  constructor
  · intro c found
    rw [InfoHash.text, String.toList_ofList] at found
    have digits : (hexDigits.all fun d => d ≠ ' ' ∧ d ≠ '\t' ∧ d ≠ '"' ∧ d.toNat ≠ 0) = true := by
      decide
    exact of_decide_eq_true (List.all_eq_true.mp digits c (infoHash.digits c found))
  · intro empty
    have length := infoHash.length_eq
    have none : infoHash.hex = [] := by
      simpa [InfoHash.text] using congrArg String.toList empty
    simp [none] at length

/-- What an application receives for a torrent. -/
theorem arguments_launchOne_iff (torrent : Torrent) (app : String) :
    (launchOne createProcess torrent.args app).process.arguments =
        [app, torrent.infoHash.text, torrent.name, torrent.savePath] ↔
      Plain app ∧ (Plain torrent.name ∧ torrent.name ≠ "") ∧
        (Plain torrent.savePath ∧ torrent.savePath ≠ "") := by
  have given : torrent.args.map cString =
      [torrent.infoHash.text, torrent.name, torrent.savePath].map cString := by
    simp [Torrent.args]
  have process : (launchOne createProcess torrent.args app).process =
      launchProcess createProcess (cString app)
        ([torrent.infoHash.text, torrent.name, torrent.savePath].map cString) := by
    rw [← given]
    rfl
  rw [process, arguments_cut_iff]
  simp [plain_infoHash]

/-- A program receives exactly its arguments where neither its path nor one of them
has a space, a tab, a double quote or a NUL, and none of them is empty. An app
receives exactly the data of a torrent under the same condition. -/
theorem received_arguments_iff :
    (∀ (executable : String) (args : List String),
      (launchProcess createProcess executable args).arguments = executable :: args ↔
        Plain executable ∧ ∀ arg ∈ args, Plain arg ∧ arg ≠ "") ∧
    ∀ (enabled : Bool) (apps : List (String × String)) (event : String) (torrent : Torrent),
      (∀ launched ∈ launches createProcess enabled apps event torrent,
        launched.process.arguments =
          [launched.app, torrent.infoHash.text, torrent.name, torrent.savePath]) ↔
      ∀ app, Launches enabled apps event app →
        Plain app ∧ (Plain torrent.name ∧ torrent.name ≠ "") ∧
          (Plain torrent.savePath ∧ torrent.savePath ≠ "") := by
  refine ⟨arguments_launchProcess_iff createProcess, ?_⟩
  intro enabled apps event torrent
  constructor
  · intro exactly app launches
    have member := (mem_launches_iff createProcess enabled apps event torrent _).mpr
      ⟨app, launches, rfl⟩
    exact (arguments_launchOne_iff createProcess torrent app).mp (exactly _ member)
  · intro plain launched member
    obtain ⟨app, launches, rfl⟩ :=
      (mem_launches_iff createProcess enabled apps event torrent launched).mp member
    exact (arguments_launchOne_iff createProcess torrent app).mpr (plain app launches)

/-- A torrent name of two words is split. -/
theorem not_received_arguments :
    ¬ ∀ (createProcess : String → Except Nat (BitVec 32)) (executable : String)
      (args : List String),
      (launchProcess createProcess executable args).arguments = executable :: args := by
  intro received
  have split := received (fun _ => .ok 0) "C:/Apps/some-app.bat" ["my file"]
  revert split
  decide

end Events

end Hadouken.Launcher
