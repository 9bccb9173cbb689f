import Hadouken.Library.Files
import Hadouken.Library.Runs

/-!
# The configuration file

A start reads the configuration file and goes on with the built-in defaults when
there is none. A clean stop moves the file to `hadouken.json.old`, opens a new
one and writes the current configuration. The process can stop after any of
these operations. A write that fails leaves what it wrote until then and is
reported as done, and a move that fails leaves everything as it was.
-/

namespace Hadouken.ConfigFile

open Files Runs

/-- Configurations as text, for `JSON.stringify` and the two parsers that read
the file. A text that is cut short is not read. -/
structure Format (Config : Type) where
  print : Config → List Char
  read : List Char → Option Config
  read_print : ∀ config, read (print config) = some config
  read_cut : ∀ config length, length < (print config).length →
    read ((print config).take length) = none

/-- The text of a file. -/
def fileText (files : FileSystem (List Char)) (path : Path) : Option (List Char) :=
  match files.lookup path with
  | some (.file content) => some (content.getD [])
  | _ => none

/-- What `saveConfig` asks the file system to do. -/
inductive Operation where
  | rename (prev next : Path)
  | truncate (path : Path)
  | append (path : Path) (char : Char)

/-- An operation on the files: rename, truncate, or append a character. -/
def perform (files : FileSystem (List Char)) : Operation → FileSystem (List Char)
  | .rename prev next => renameFile files prev next
  | .truncate path =>
      match files.lookup path with
      | some .directory => files
      | _ => assign path (.file none) files
  | .append path char =>
      match files.lookup path with
      | some (.file content) => assign path (.file (some (content.getD [] ++ [char]))) files
      | _ => files

/-- The operations of `saveConfig`. `write_impl` opens the file, and the text
arrives a part at a time. -/
def saveConfig {Config : Type} (format : Format Config) (configFile oldFile : Path)
    (files : FileSystem (List Char)) (config : Config) : List Operation :=
  (if fileExists files configFile then [.rename configFile oldFile] else []) ++
    .truncate configFile :: (format.print config).map (.append configFile)

/-- The disk and the process. `running` is the configuration of a process that
is up. `old` is what the last start loaded, `current` what it was changed to,
and `last` the configuration that was completely saved last. -/
structure State (Config : Type) where
  files : FileSystem (List Char)
  running : Option Config
  old : Config
  current : Config
  last : Config

/-- A start, a change of the configuration, and a stop with so many operations
of `saveConfig` performed. -/
inductive Event (Config : Type) where
  | start
  | change (config : Config)
  | stop (performed : Nat)

/-- Files with other paths keep their text when one is written to. -/
theorem fileText_perform_of_ne (files : FileSystem (List Char)) (path other : Path)
    (distinct : other ≠ path) (operation : Operation)
    (own : operation = .truncate path ∨ ∃ char, operation = .append path char) :
    fileText (perform files operation) other = fileText files other := by
  rcases own with rfl | ⟨char, rfl⟩ <;> simp only [perform] <;> split <;>
    first
    | rfl
    | rw [fileText, lookup_assign_of_ne _ _ _ _ distinct, fileText]

/-- A file that is opened for writing is empty. -/
theorem fileText_truncate (files : FileSystem (List Char)) (path : Path)
    (noDirectory : files.lookup path ≠ some .directory) :
    fileText (perform files (.truncate path)) path = some [] := by
  simp only [perform]
  rw [fileText, lookup_assign_self]
  rfl

/-- The text that arrives is put after what the file holds. -/
theorem fileText_appends (path : Path) (text : List Char) (files : FileSystem (List Char))
    (held : List Char) (opened : fileText files path = some held) :
    fileText ((text.map (.append path)).foldl perform files) path = some (held ++ text) := by
  induction text generalizing files held with
  | nil => simpa using opened
  | cons char rest ih =>
    rw [List.map_cons, List.foldl_cons, ih _ (held ++ [char]), List.append_assoc,
      List.singleton_append]
    unfold fileText at opened
    split at opened
    · rename_i content found
      obtain rfl := Option.some.inj opened
      simp [perform, found, fileText]
    · cases opened

/-- Appending leaves other files alone. -/
theorem fileText_appends_of_ne (path other : Path) (distinct : other ≠ path) (text : List Char)
    (files : FileSystem (List Char)) :
    fileText ((text.map (.append path)).foldl perform files) other = fileText files other := by
  induction text generalizing files with
  | nil => rfl
  | cons char rest ih =>
    rw [List.map_cons, List.foldl_cons, ih]
    exact fileText_perform_of_ne files path other distinct _ (.inr ⟨char, rfl⟩)

/-- A file with a text is a file. -/
theorem fileExists_of_fileText (files : FileSystem (List Char)) (path : Path) (text : List Char)
    (held : fileText files path = some text) :
    ∃ content, files.lookup path = some (.file content) := by
  unfold fileText at held
  split at held
  · exact ⟨_, ‹_›⟩
  · cases held

section Process

variable {Config : Type} (format : Format Config) (defaults : Config) (configFile oldFile : Path)

/-- The configuration a file holds completely. -/
def stored (files : FileSystem (List Char)) (path : Path) : Option Config :=
  (fileText files path).bind format.read

/-- What `main` and config.js start with. There is no start from a file that
cannot be parsed. -/
def loaded (files : FileSystem (List Char)) : Option Config :=
  if (files.lookup configFile).isSome then stored format files configFile else some defaults

/-- A start, a change of the configuration, or a stop within the save. -/
def step (state : State Config) : Event Config → Option (State Config)
  | .start =>
      if state.running.isNone then
        match loaded format defaults configFile state.files with
        | none => some state
        | some config =>
            some { state with running := some config, old := config, current := config }
      else none
  | .change config =>
      if state.running.isSome then some { state with running := some config, current := config }
      else none
  | .stop performed =>
      state.running.map fun config =>
        let operations := saveConfig format configFile oldFile state.files config
        { state with
          files := (operations.take performed).foldl perform state.files
          running := none
          last := if operations.length ≤ performed then config else state.last }

/-- The next start loads the complete old or the complete current configuration,
and the one saved last is still there. -/
structure Safe (state : State Config) : Prop where
  loads : ∃ config, stored format state.files configFile = some config ∧
    (config = state.old ∨ config = state.current)
  kept : stored format state.files configFile = some state.last ∨
    stored format state.files oldFile = some state.last

/-- A stop leaves all of `saveConfig` undone or done. Where the configuration
file is itself named as the old one, moving it is nothing. -/
def Whole (state : State Config) : Event Config → Prop
  | .stop performed => ∀ config, state.running = some config →
      performed = 0 ∨ (performed = 1 ∧ configFile = oldFile) ∨
        (saveConfig format configFile oldFile state.files config).length ≤ performed
  | _ => True

/-- After the move and the opening, and so many characters of the text. -/
theorem fileText_cut (files : FileSystem (List Char)) (config : Config) (held : List Char)
    (present : fileText files configFile = some held) (length : Nat) :
    fileText (((saveConfig format configFile oldFile files config).take (length + 2)).foldl
        perform files) configFile = some ((format.print config).take length) ∧
      (configFile ≠ oldFile →
        fileText (((saveConfig format configFile oldFile files config).take (length + 2)).foldl
          perform files) oldFile = some held) := by
  obtain ⟨content, found⟩ := fileExists_of_fileText files configFile held present
  have whole : (saveConfig format configFile oldFile files config).take (length + 2) =
      .rename configFile oldFile :: .truncate configFile ::
        ((format.print config).take length).map (.append configFile) := by
    rw [List.map_take]
    simp [saveConfig, fileExists, found]
  have noDirectory :
      (perform files (.rename configFile oldFile)).lookup configFile ≠ some .directory := by
    by_cases same : configFile = oldFile
    · subst same
      rw [perform, renameFile_self, found]
      nofun
    · rw [perform, lookup_renameFile files _ _ _ same found, if_neg same, if_pos rfl]
      nofun
  rw [whole, List.foldl_cons, List.foldl_cons]
  constructor
  · exact fileText_appends _ _ _ [] (fileText_truncate _ _ noDirectory)
  · intro distinct
    rw [fileText_appends_of_ne _ _ (Ne.symm distinct),
      fileText_perform_of_ne _ _ _ (Ne.symm distinct) _ (.inl rfl), perform, fileText,
      lookup_renameFile files _ _ _ distinct found, if_pos rfl, ← present, fileText, found]

/-- After the move alone. -/
theorem files_moved (files : FileSystem (List Char)) (config : Config) (held : List Char)
    (present : fileText files configFile = some held) :
    ((saveConfig format configFile oldFile files config).take 1).foldl perform files =
      renameFile files configFile oldFile := by
  obtain ⟨content, found⟩ := fileExists_of_fileText files configFile held present
  simp [saveConfig, fileExists, found, perform]

/-- A save renames, truncates and writes character by character. -/
theorem length_saveConfig (files : FileSystem (List Char)) (config : Config) (held : List Char)
    (present : fileText files configFile = some held) :
    (saveConfig format configFile oldFile files config).length =
      (format.print config).length + 2 := by
  obtain ⟨content, found⟩ := fileExists_of_fileText files configFile held present
  simp [saveConfig, fileExists, found]

/-- A stop keeps the configuration safe exactly when all of `saveConfig` is
undone or done. -/
theorem safe_stop_iff (state : State Config) (config : Config)
    (running : state.running = some config) (same : config = state.current)
    (safe : Safe format configFile oldFile state) (performed : Nat) :
    (∀ next, step format defaults configFile oldFile state (.stop performed) = some next →
      Safe format configFile oldFile next) ↔
        Whole format configFile oldFile state (.stop performed) := by
  obtain ⟨⟨held, stored_, which⟩, kept⟩ := safe
  obtain ⟨text, present, parsed⟩ := Option.bind_eq_some_iff.mp stored_
  have total := length_saveConfig format configFile oldFile state.files config text present
  simp only [step, Whole, running, Option.map_some, Option.some.injEq, forall_eq', total]
  match performed with
  | 0 =>
    refine iff_of_true ⟨⟨held, stored_, which⟩, ?_⟩ (.inl rfl)
    simpa using kept
  | 1 =>
    rw [files_moved format configFile oldFile state.files config text present]
    by_cases aliased : configFile = oldFile
    · subst aliased
      rw [renameFile_self]
      refine iff_of_true ⟨⟨held, stored_, which⟩, ?_⟩ (.inr (.inl ⟨rfl, rfl⟩))
      simpa using kept
    · refine iff_of_false ?_ (by simp [aliased])
      rintro ⟨⟨_, found, _⟩, _⟩
      obtain ⟨content, there⟩ := fileExists_of_fileText _ _ _ present
      simp [stored, fileText, lookup_renameFile state.files _ _ _ aliased there, aliased] at found
  | length + 2 =>
    obtain ⟨own, moved⟩ := fileText_cut format configFile oldFile state.files config text present
      length
    by_cases complete : (format.print config).length ≤ length
    · have reads : stored format (((saveConfig format configFile oldFile state.files config).take
          (length + 2)).foldl perform state.files) configFile = some config := by
        rw [stored, own, List.take_of_length_le complete, Option.bind_some, format.read_print]
      refine iff_of_true ⟨⟨config, reads, .inr same⟩, .inl ?_⟩ (.inr (.inr (by omega)))
      rw [reads, if_pos (by omega)]
    · refine iff_of_false ?_ (by omega)
      rintro ⟨⟨_, found, _⟩, _⟩
      rw [stored, own, Option.bind_some, format.read_cut config length (by omega)] at found
      cases found

/-- A process runs with its current configuration, and a configuration in the
file is the one it started with. -/
def Consistent (state : State Config) : Prop :=
  ∀ config, state.running = some config → config = state.current ∧
    ∀ held, stored format state.files configFile = some held → held = state.old

/-- Every step keeps what the state knows of its files. -/
theorem consistent_step (state : State Config) (event : Event Config) (next : State Config)
    (consistent : Consistent format configFile state)
    (stepped : step format defaults configFile oldFile state event = some next) :
    Consistent format configFile next := by
  cases event with
  | start =>
    simp only [step] at stepped
    split at stepped
    · split at stepped
      · obtain rfl := Option.some.inj stepped
        exact consistent
      · rename_i config loads
        obtain rfl := Option.some.inj stepped
        refine fun running up => ⟨(Option.some.inj up).symm, fun held found => ?_⟩
        obtain ⟨text, present, _⟩ := Option.bind_eq_some_iff.mp found
        obtain ⟨content, there⟩ := fileExists_of_fileText _ _ _ present
        rw [loaded, there, Option.isSome_some, if_pos rfl] at loads
        exact Option.some.inj (found.symm.trans loads)
    · cases stepped
  | change config =>
    simp only [step, Option.ite_none_right_eq_some, Option.some.injEq] at stepped
    obtain ⟨up, rfl⟩ := stepped
    obtain ⟨before, up⟩ := Option.isSome_iff_exists.mp up
    exact fun running same => ⟨(Option.some.inj same).symm, (consistent before up).2⟩
  | stop performed =>
    obtain ⟨config, _, rfl⟩ := Option.map_eq_some_iff.mp stepped
    nofun

/-- A step leaves the files safe exactly where it is whole. -/
theorem safe_step_iff (state : State Config) (event : Event Config)
    (consistent : Consistent format configFile state) (safe : Safe format configFile oldFile state) :
    (∀ next, step format defaults configFile oldFile state event = some next →
      Safe format configFile oldFile next) ↔ Whole format configFile oldFile state event := by
  cases event with
  | start =>
    refine iff_of_true (fun next stepped => ?_) trivial
    obtain ⟨⟨held, stored_, which⟩, kept⟩ := safe
    obtain ⟨text, present, _⟩ := Option.bind_eq_some_iff.mp stored_
    obtain ⟨content, there⟩ := fileExists_of_fileText _ _ _ present
    have loads : loaded format defaults configFile state.files = some held := by
      rw [loaded, there, Option.isSome_some, if_pos rfl, stored_]
    simp only [step, loads, Option.ite_none_right_eq_some, Option.some.injEq] at stepped
    obtain ⟨_, rfl⟩ := stepped
    exact ⟨⟨held, stored_, .inl rfl⟩, kept⟩
  | change config =>
    refine iff_of_true (fun next stepped => ?_) trivial
    simp only [step, Option.ite_none_right_eq_some, Option.some.injEq] at stepped
    obtain ⟨up, rfl⟩ := stepped
    obtain ⟨before, up⟩ := Option.isSome_iff_exists.mp up
    obtain ⟨⟨held, stored_, _⟩, kept⟩ := safe
    exact ⟨⟨held, stored_, .inl ((consistent before up).2 held stored_)⟩, kept⟩
  | stop performed =>
    cases running : state.running with
    | none =>
      refine iff_of_true (fun next stepped => ?_) (fun config up => ?_)
      · simp [step, running] at stepped
      · rw [running] at up
        cases up
    | some config =>
      exact safe_stop_iff format defaults configFile oldFile state config running
        (consistent config running).1 safe performed

/-- A stop without a file to move, and with all else done. -/
theorem fileText_first_save (files : FileSystem (List Char)) (config : Config)
    (missing : files.lookup configFile = none) (performed : Nat)
    (enough : (format.print config).length + 2 ≤ performed) :
    fileText (((saveConfig format configFile oldFile files config).take performed).foldl
      perform files) configFile = some (format.print config) := by
  have absent : fileExists files configFile = false := by simp [fileExists, missing]
  have whole : (saveConfig format configFile oldFile files config).take performed =
      .truncate configFile :: (format.print config).map (.append configFile) := by
    rw [saveConfig, absent]
    exact List.take_of_length_le (by simp; omega)
  rw [whole, List.foldl_cons]
  refine fileText_appends _ _ _ [] (fileText_truncate _ _ ?_)
  rw [missing]
  nofun

/-- A start without the file uses the defaults, and the second clean stop after
it has replaced the old file by them. -/
theorem copy_lost (state : State Config) (idle : state.running = none)
    (missing : state.files.lookup configFile = none) (distinct : configFile ≠ oldFile)
    (performed : Nat) (enough : (format.print defaults).length + 2 ≤ performed) :
    ∃ final, run (step format defaults configFile oldFile) state
        [.start, .stop performed, .start, .stop performed] = some final ∧
      stored format final.files configFile = some defaults ∧
      stored format final.files oldFile = some defaults := by
  have text := fileText_first_save format configFile oldFile state.files defaults missing performed
    enough
  obtain ⟨length, rfl⟩ := Nat.exists_eq_add_of_le' (Nat.le_of_add_left_le enough)
  have complete : (format.print defaults).length ≤ length := by omega
  obtain ⟨content, there⟩ := fileExists_of_fileText _ _ _ text
  have first : loaded format defaults configFile state.files = some defaults := by
    rw [loaded, missing]
    rfl
  have second : loaded format defaults configFile (((saveConfig format configFile oldFile
      state.files defaults).take (length + 2)).foldl perform state.files) = some defaults := by
    rw [loaded, there, Option.isSome_some, if_pos rfl, stored, text, Option.bind_some,
      format.read_print]
  obtain ⟨own, moved⟩ := fileText_cut format configFile oldFile _ defaults _ text length
  rw [List.take_of_length_le complete] at own
  simp only [run, step, idle, Option.isNone_none, if_true, first, Option.bind_some,
    Option.map_some, second]
  refine ⟨_, rfl, ?_, ?_⟩
  · rw [stored, own, Option.bind_some, format.read_print]
  · rw [stored, moved distinct, Option.bind_some, format.read_print]

end Process

/-- A stopped process and a disk with its configuration. -/
def stoppedWith {Config : Type} (files : FileSystem (List Char)) (config : Config) :
    State Config where
  files := files
  running := none
  old := config
  current := config
  last := config

/-- Over any runs the configuration stays safe exactly when no stop comes
between the move of the file and the end of a complete write. -/
theorem safe_iff_whole {Config : Type} (format : Format Config) (defaults : Config)
    (configFile oldFile : Path) (files : FileSystem (List Char)) (config : Config)
    (held : stored format files configFile = some config) (events : List (Event Config)) :
    Always (step format defaults configFile oldFile) (Safe format configFile oldFile)
        (stoppedWith files config) events ↔
      Guarded (step format defaults configFile oldFile) (Whole format configFile oldFile)
        (stoppedWith files config) events := by
  refine always_iff_guarded (consistent_step format defaults configFile oldFile)
    (safe_step_iff format defaults configFile oldFile) events _ nofun ?_
  exact ⟨⟨config, held, .inl rfl⟩, .inl held⟩

/-- The texts of two configurations: an empty object and one with a member. -/
def sampleText : Bool → List Char
  | false => ['{', '}']
  | true => ['{', '\n', ' ', ' ', '"', 'a', '"', ':', ' ', '1', '\n', '}']

/-- A format for configurations of one bit. -/
def sampleFormat : Format Bool where
  print := sampleText
  read text := [false, true].find? fun config => sampleText config = text
  read_print := by decide
  read_cut := by decide

/-- A change saved by a clean stop, and a start after it. -/
theorem clean_stop_safe :
    Always (step sampleFormat false ['c'] ['o']) (Safe sampleFormat ['c'] ['o'])
      (stoppedWith [(['c'], .file (some ['{', '}']))] false)
      [.start, .change true, .stop 14, .start] := by
  refine (safe_iff_whole sampleFormat false ['c'] ['o'] _ false (by decide) _).mpr ?_
  refine guarded_cons rfl trivial (guarded_cons rfl trivial ?_)
  refine guarded_cons rfl (fun config up => ?_) (guarded_cons rfl trivial trivial)
  obtain rfl := Option.some.inj up
  exact .inr (.inr (by decide))

/-- A process stopped after the move leaves no file to start with. -/
theorem stop_after_move_unsafe :
    stored sampleFormat [(['c'], .file (some ['{', '}']))] ['c'] = some false ∧
      ¬ Always (step sampleFormat false ['c'] ['o']) (Safe sampleFormat ['c'] ['o'])
        (stoppedWith [(['c'], .file (some ['{', '}']))] false) [.start, .stop 1] := by
  refine ⟨by decide, fun always => ?_⟩
  obtain ⟨⟨config, found, _⟩, _⟩ := always_final _ _ _ always rfl
  have missing : stored sampleFormat [(['o'], .file (some ['{', '}']))] ['c'] = none := by decide
  cases missing.symm.trans found

end Hadouken.ConfigFile
