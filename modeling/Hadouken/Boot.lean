import Hadouken.ModuleLoading

/-!
# Booting the scripts

The function hadouken.js evaluates to fills an object with the entry points the
host calls. It asks for the modules in turn, inside one `try`, so that the first
failure ends the filling. rpc.js asks for every file of its directory outside
any `try`, so that one file that cannot be loaded fails the whole module.

What `fs.getFiles` answers rpc.js, which is run at most once and asks once, is a
parameter. So is what rpc.js does with the exports of a file, and so is every
other module.
-/

namespace Hadouken.Boot

open CachedLoading ModuleNames ModuleLoading LexicalPaths Script

variable {ρ : Type}

/-- The properties of the object `hadouken`. -/
inductive EntryPoint where
  | authenticator
  | emit
  | load
  | rpc
  | unload
deriving DecidableEq

/-- The function of hadouken.js: the entry points it assigned, each with the
exports it was read from. -/
def boot : ModuleCode ρ (List (EntryPoint × Nat)) :=
  .require none "logger".toList fun
  | .error thrown => .throws thrown
  | .ok _ =>
    .require none "core".toList fun
    | .error _ => .returns []
    | .ok core =>
      .require none "auth".toList fun
      | .error _ => .returns []
      | .ok auth =>
        .require none "events".toList fun
        | .error _ => .returns [(.authenticator, auth)]
        | .ok events =>
          .require none "rpc".toList fun
          | .error _ => .returns [(.authenticator, auth), (.emit, events), (.load, core)]
          | .ok rpc => .returns [(.authenticator, auth), (.emit, events), (.load, core),
              (.rpc, rpc), (.unload, core)]

section RpcScript

variable (listed : Option (List Id)) (register : World ρ → Nat → Except Value (World ρ))

/-- The loop of rpc.js over the files of its directory. -/
def registerFiles (id : Id) : List Id → ModuleCode ρ Unit
  | [] => .returns ()
  | file :: rest =>
      .require (some id) file fun
      | .error thrown => .throws thrown
      | .ok exports =>
          .act (fun world => (register world exports).toOption.getD world) fun world =>
            match register world exports with
            | .error thrown => .throws thrown
            | .ok _ => registerFiles id rest

/-- rpc.js, with what `fs.getFiles` answers it: a directory that does not exist has
no list of files. -/
def rpcScript (id : Id) : ModuleCode ρ Unit :=
  .require (some id) "config".toList fun
  | .error thrown => .throws thrown
  | .ok _ =>
    .require (some id) "logger".toList fun
    | .error thrown => .throws thrown
    | .ok _ =>
      .require (some id) "fs".toList fun
      | .error thrown => .throws thrown
      | .ok _ =>
        match listed with
        | none => .throws (.error (typeError "cannot read property 'length'"))
        | some files => registerFiles register id files

end RpcScript

/-- Every file can be asked for, and its module is loaded. -/
def AllLoaded (files : List Id) (state : State Id (World ρ)) : Prop :=
  ∀ file ∈ files, ∃ id exports, resolveModuleId (some "rpc".toList) file = .ok id ∧
    (id, exports) ∈ state.loaded

/-- What is loaded stays loaded. -/
theorem AllLoaded.mono {files : List Id} {before after : State Id (World ρ)}
    (loaded : AllLoaded files before) (grown : before.loaded <:+ after.loaded) :
    AllLoaded files after := by
  intro file member
  obtain ⟨id, exports, resolved, present⟩ := loaded file member
  exact ⟨id, exports, resolved, grown.subset present⟩

section Boots

variable {normalizer : Normalizer} {root : Id} {run : List Char → Id → Nat → ModuleCode ρ Unit}
  {listed : Option (List Id)} {register : World ρ → Nat → Except Value (World ρ)}

/-- The loop ends without an error only when every file was loaded. -/
theorem registerFiles_loaded (fuel : Nat) (files : List Id) (state final : State Id (World ρ))
    (sound : state.Sound)
    (ran : (registerFiles register "rpc".toList files).run
      ((loader normalizer root run).require fuel) state = some (.ok (), final)) :
    AllLoaded files final ∧ state.loaded <:+ final.loaded := by
  have layered := loader_layered normalizer root run
  induction files generalizing state with
  | nil =>
    cases ran
    exact ⟨List.forall_mem_nil _, List.suffix_refl _⟩
  | cons file rest ih =>
    obtain ⟨⟨answer, reached⟩, called, later⟩ := Option.bind_eq_some_iff.mp ran
    have answered := answered_of_require layered sound called
    match answer with
    | .error _ => cases later
    | .ok exports =>
      obtain ⟨id, resolved, present⟩ := answered.right exports rfl
      have named := (resolve_ok_iff _ _ _).mp resolved
      simp only [Code.run] at later
      split at later
      · cases later
      · obtain ⟨others, grown⟩ := ih _ (answered.sound.change _) later
        refine ⟨List.forall_mem_cons.mpr ⟨⟨id, exports, named, grown.subset present⟩, others⟩,
          answered.grown.loaded.trans grown⟩

/-- rpc.js ends without an error only when its directory was listed and every file
of it was loaded. -/
theorem rpcScript_loaded (fuel : Nat) (state final : State Id (World ρ)) (sound : state.Sound)
    (ran : (rpcScript listed register "rpc".toList).run
      ((loader normalizer root run).require fuel) state = some (.ok (), final)) :
    ∃ files, listed = some files ∧ AllLoaded files final := by
  have layered := loader_layered normalizer root run
  obtain ⟨⟨config, first⟩, called, later⟩ := Option.bind_eq_some_iff.mp ran
  have sound := (answered_of_require layered sound called).sound
  match config with
  | .error _ => cases later
  | .ok _ =>
    obtain ⟨⟨logger, second⟩, called, later⟩ := Option.bind_eq_some_iff.mp later
    have sound := (answered_of_require layered sound called).sound
    match logger with
    | .error _ => cases later
    | .ok _ =>
      obtain ⟨⟨fs, third⟩, called, later⟩ := Option.bind_eq_some_iff.mp later
      have sound := (answered_of_require layered sound called).sound
      match fs with
      | .error _ => cases later
      | .ok _ =>
        match listed with
        | none => cases later
        | some files => exact ⟨files, rfl, (registerFiles_loaded fuel files third final sound later).1⟩

/-- The other modules never ask for `rpc`. -/
def LeavesRpc (run : List Char → Id → Nat → ModuleCode ρ Unit) : Prop :=
  ∀ source id exports, id ≠ "rpc".toList → (run source id exports).Requires
    fun current request => ∀ other, resolve current request = .ok other → other ≠ "rpc".toList

/-- Neither a search nor another module asks for `rpc`. -/
theorem loader_avoids (leaves : LeavesRpc run) :
    (loader normalizer root run).Avoids (· = "rpc".toList) where
  search id exports := by
    refine Code.Requires.mono ?_ _ ((loader_layered normalizer root run).requires_base id exports)
    intro current request low other resolved same
    have fs : other = "fs".toList := low other resolved
    rw [fs] at same
    exact absurd same (by decide)
  body := leaves

/-- The state in which hadouken.js asks for its next module. -/
structure Ready (state : State Id (World ρ)) : Prop where
  sound : state.Sound
  without : state.Without (· = "rpc".toList)

/-- After a request for another module hadouken.js is as ready. -/
theorem Ready.next (leaves : LeavesRpc run) {fuel : Nat} {request : Id}
    (fixed : resolveModuleId none request = .ok request) (other : request ≠ "rpc".toList)
    {state reached : State Id (World ρ)} {answer : Except Value Nat} (ready : Ready state)
    (called : (loader normalizer root run).require fuel none request state =
      some (answer, reached)) : Ready reached where
  sound := (answered_of_require (loader_layered normalizer root run) ready.sound called).sound
  without := by
    refine require_without (loader_avoids leaves) fuel none request state answer reached ?_
      ready.without called
    intro name resolved
    have same := (resolve_ok_iff none request name).mp resolved
    rw [fixed] at same
    cases same
    exact other

/-- The search for `rpc`, which is no native module, finds a script or throws. -/
theorem modSearch_rpc (normalizer : Normalizer) (root : Id) (exports : Nat) :
    Code.Returns (fun source => source.isSome = true)
      (modSearch normalizer root "rpc".toList exports : ModuleCode ρ (Option (List Char))) := by
  have scripted : ¬nativeModules.contains "rpc".toList = true := by decide
  rw [modSearch, if_neg scripted]
  intro answer
  cases answer with
  | error thrown => trivial
  | ok fs =>
    intro world
    dsimp only
    split
    · rfl
    · trivial

/-- The first request for `rpc` is answered without an error only when every file
of its directory was loaded. -/
theorem rpc_loaded (own : ∀ source exports, run source "rpc".toList exports =
      rpcScript listed register "rpc".toList)
    {fuel : Nat} {state final : State Id (World ρ)} {exports : Nat} (ready : Ready state)
    (called : (loader normalizer root run).require (fuel + 2) none "rpc".toList state =
      some (.ok exports, final)) :
    ∃ files, listed = some files ∧ AllLoaded files final := by
  have resolved : (loader normalizer root run).resolve none "rpc".toList = .ok "rpc".toList :=
    (resolve_ok_iff none "rpc".toList "rpc".toList).mpr (by decide)
  have absent : "rpc".toList ∉ state.loaded.map Prod.fst := by
    intro member
    obtain ⟨entry, present, same⟩ := List.mem_map.mp member
    exact ready.without entry present same
  rw [require_load resolved (lookup_of_absent absent)] at called
  obtain ⟨source, before, after, ran, sound, rfl⟩ :=
    load_ok (loader_layered normalizer root run) fuel ready.sound absent
      (modSearch_rpc normalizer root state.tables) called
  rw [show (loader normalizer root run).body source "rpc".toList state.tables =
    rpcScript listed register "rpc".toList from own source state.tables] at ran
  obtain ⟨files, listed, loaded⟩ := rpcScript_loaded (fuel + 1) before after sound ran
  exact ⟨files, listed, loaded.mono (List.suffix_refl _)⟩

/-- The entry points of the modules in front of the first that fails. -/
def Installed (names : List EntryPoint) : Prop :=
  names = [] ∨ names = [.authenticator] ∨ names = [.authenticator, .emit, .load] ∨
    names = [.authenticator, .emit, .load, .rpc, .unload]

/-- A boot that ends without an error has installed a front of the entry points,
and the last two only with all files loaded. -/
theorem boot_ok (own : ∀ source exports, run source "rpc".toList exports =
      rpcScript listed register "rpc".toList)
    (leaves : LeavesRpc run) {fuel : Nat} {state final : State Id (World ρ)}
    {installed : List (EntryPoint × Nat)} (ready : Ready state)
    (ran : boot.run ((loader normalizer root run).require (fuel + 2)) state =
      some (.ok installed, final)) :
    Installed (installed.map Prod.fst) ∧
      (.rpc ∈ installed.map Prod.fst ∨ .unload ∈ installed.map Prod.fst →
        ∃ files, listed = some files ∧ AllLoaded files final) := by
  obtain ⟨⟨logger, first⟩, called, later⟩ := Option.bind_eq_some_iff.mp ran
  have ready := ready.next leaves (by decide) (by decide) called
  match logger with
  | .error _ => cases later
  | .ok _ =>
    obtain ⟨⟨core, second⟩, called, later⟩ := Option.bind_eq_some_iff.mp later
    have ready := ready.next leaves (by decide) (by decide) called
    match core with
    | .error _ =>
      cases later
      exact ⟨.inl rfl, by simp⟩
    | .ok core =>
      obtain ⟨⟨auth, third⟩, called, later⟩ := Option.bind_eq_some_iff.mp later
      have ready := ready.next leaves (by decide) (by decide) called
      match auth with
      | .error _ =>
        cases later
        exact ⟨.inl rfl, by simp⟩
      | .ok auth =>
        obtain ⟨⟨events, fourth⟩, called, later⟩ := Option.bind_eq_some_iff.mp later
        have ready := ready.next leaves (by decide) (by decide) called
        match events with
        | .error _ =>
          cases later
          exact ⟨.inr (.inl rfl), by simp⟩
        | .ok events =>
          obtain ⟨⟨rpc, fifth⟩, called, later⟩ := Option.bind_eq_some_iff.mp later
          match rpc with
          | .error _ =>
            cases later
            exact ⟨.inr (.inr (.inl rfl)), by simp⟩
          | .ok rpc =>
            cases later
            exact ⟨.inr (.inr (.inr rfl)), fun _ => rpc_loaded own ready called⟩

/-- The engine is ready before the first request. -/
theorem start_ready (world : World ρ) : Ready (start world) where
  sound := start_sound world
  without := by
    have apart : inherited.all (fun entry => entry.1 != "rpc".toList) = true := by decide
    intro entry member
    simpa using List.all_eq_true.mp apart entry member

end Boots

/-- The file of one RPC method. -/
def methodFile : Id := "/js/rpc/torrents.js".toList

/-- Scripts that do nothing, but for rpc.js, whose directory has one file. -/
def quietScripts : List Char → Id → Nat → ModuleCode Unit Unit :=
  fun _ id _ =>
    if id = "rpc".toList then rpcScript (some [methodFile]) (fun world _ => .ok world) id
    else .returns ()

/-- The scripts that are there besides the native modules. -/
def scriptFiles : Files.FileSystem (List Char) :=
  ["/js/auth.js".toList, "/js/events.js".toList, "/js/rpc.js".toList, "/js/config.js".toList,
    methodFile].map fun path => (path, .file (some []))

set_option maxRecDepth 100000 in
/-- With these scripts nothing fails. -/
theorem quiet_boot : ∃ installed final, boot.run
      ((loader spelling "/js".toList quietScripts).require 4) (start ⟨scriptFiles, [], ()⟩) =
        some (.ok installed, final) ∧
    installed.map Prod.fst = [.authenticator, .emit, .load, .rpc, .unload] :=
  ⟨_, _, rfl, rfl⟩

end Hadouken.Boot
