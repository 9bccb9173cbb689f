import Hadouken.Dispatch
import Hadouken.Library.CachedLoading
import Hadouken.Library.Files
import Hadouken.ModulePaths
import Mathlib.Data.Set.Finite.List
import Mathlib.Data.Fintype.Sets

/-!
# Loading modules

`require` of the vendored duktape.c resolves a request, answers it from the table
`Duktape.modLoaded`, and otherwise has `Duktape.modSearch` of hadouken.js search
for the module. The search initialises a native module, whose exports a script
file of the same name may go on filling, and reads that file with the native
file module. A module is in the table before its script runs, and stays there
when the script throws.

What the scripts do is a parameter: any interaction with the world and the loader,
with errors caught or not. The table is a plain object, so that the names such an
object inherits are answered from the beginning.
-/

namespace Hadouken.ModuleLoading

open CachedLoading ModuleNames ModulePaths LexicalPaths Script

variable {ρ : Type}

/-- The files, the exports tables that native modules filled, and the rest. -/
structure World (ρ : Type) where
  files : Files.FileSystem (List Char)
  natives : List (Id × Nat)
  rest : ρ

/-- A program of module code. -/
abbrev ModuleCode (ρ Result : Type) := Code Id (World ρ) Id Value Result

/-- The modules that `requireNative` has. -/
def nativeModules : List Id :=
  ["benc".toList, "bittorrent".toList, "core".toList, "fs".toList, "http".toList,
    "logger".toList, "process".toList]

/-- `requireNative`: the native module fills the exports table. -/
def requireNative (id : Id) (exports : Nat) (world : World ρ) : World ρ :=
  { world with natives := (id, exports) :: world.natives }

/-- The file of an identifier ends in `.js`. -/
def withExtension (id : Id) : Id :=
  if ".js".toList.isSuffixOf id then id else id ++ ".js".toList

/-- `fs.isRelative`. Two slashes alone start the name of a root. -/
def isRelative : Id → Bool
  | '/' :: '/' :: first :: rest => first ≠ '/' && !rest.contains '/'
  | '/' :: _ => false
  | _ => true

section Loader

variable (normalizer : Normalizer) (root : Id)

/-- The path read for the identifier of a script. -/
def sourcePath (id : Id) : Files.Path :=
  if isRelative (withExtension id) then normalizer.normalize (append root (withExtension id))
  else withExtension id

/-- The end of `Duktape.modSearch`: the script file. -/
def searchFile (id : Id) (found : Bool) : ModuleCode ρ (Option (List Char)) :=
  .require (some id) "fs".toList fun
    | .error thrown => .throws thrown
    | .ok _ => .act (fun world => world) fun world =>
        match Files.readFile world.files (sourcePath normalizer root id) with
        | some source => .returns (some source)
        | none =>
            if found then .returns none
            else .throws (.error
              ⟨"Error", "Module not found: " ++ String.ofList (withExtension id)⟩)

/-- `Duktape.modSearch`. -/
def modSearch (id : Id) (exports : Nat) : ModuleCode ρ (Option (List Char)) :=
  if nativeModules.contains id then
    .act (requireNative id exports) fun _ =>
      if id = "fs".toList then .returns none else searchFile normalizer root id true
  else searchFile normalizer root id false

/-- `resolve`, throwing as the language does. -/
def resolve (current : Option Id) (request : Id) : Except Value Id :=
  match resolveModuleId current request with
  | .ok id => .ok id
  | .error message => .error (.error (typeError (String.ofList message)))

/-- `require`, with what the script of a module does when it is run under an
identifier. -/
def loader (run : List Char → Id → Nat → ModuleCode ρ Unit) :
    Loader Id (World ρ) Id Value (List Char) where
  resolve := resolve
  search := modSearch normalizer root
  body := run

end Loader

/-- What `Duktape.modLoaded` inherits: the functions and the prototype itself, numbered. -/
def inherited : List (Id × Nat) :=
  (Dispatch.objectPrototype.map fun member => member.1.toList).zipIdx

/-- The engine before the first request. -/
def start (world : World ρ) : State Id (World ρ) := State.start inherited inherited.length world

/-- A request resolves to what the resolver says. -/
theorem resolve_ok_iff (current : Option Id) (request id : Id) :
    resolve current request = .ok id ↔ resolveModuleId current request = .ok id := by
  unfold resolve
  cases resolveModuleId current request <;> simp

/-- There are finitely many characters. -/
instance finiteChar : Finite Char :=
  Finite.of_injective (fun c : Char => c.val.toBitVec.toFin) fun _ _ same =>
    Char.ext (UInt32.toBitVec_inj.mp (BitVec.toFin_inj.mp same))

/-- The identifiers that fit the buffer. -/
noncomputable def identifiers : Finset Id := (List.finite_length_lt Char limit).toFinset

/-- An identifier is among them where it fits the buffer. -/
theorem mem_identifiers (id : Id) : id ∈ identifiers ↔ id.length < limit :=
  Set.Finite.mem_toFinset _

/-- The loader starts soundly. -/
theorem start_sound (world : World ρ) : (start world).Sound := by
  refine State.Sound.start ?_ ?_ ?_ world <;> decide

/-- The only module a search asks for is `fs`, whose own search asks for none. -/
theorem loader_layered (normalizer : Normalizer) (root : Id)
    (run : List Char → Id → Nat → ModuleCode ρ Unit) :
    (loader normalizer root run).Layered (· = "fs".toList) identifiers := by
  have base : ∀ current other, resolve current "fs".toList = .ok other → other = "fs".toList := by
    intro current other resolved
    have own : resolveModuleId current "fs".toList = .ok "fs".toList :=
      resolved_of_settled current (by decide) (by decide)
    rw [resolve_ok_iff, own] at resolved
    cases resolved
    rfl
  have file : ∀ id found, Code.Requires
      (fun current request => ∀ other, resolve current request = .ok other → other = "fs".toList)
      (searchFile normalizer root id found : ModuleCode ρ (Option (List Char))) := by
    intro id found
    refine ⟨base (some id), fun answer => ?_⟩
    cases answer with
    | error thrown => trivial
    | ok exports =>
      intro world
      dsimp only
      split
      · trivial
      · split <;> trivial
  constructor
  · intro current request id resolved
    have small := (settled_of_resolved ((resolve_ok_iff current request id).mp resolved)).2
    exact (mem_identifiers id).mpr (Nat.lt_of_succ_lt small)
  · rintro id exports rfl
    simp only [loader, modSearch, if_true]
    exact fun _ => trivial
  · rintro id exports rfl
    simp only [loader, modSearch, if_true]
    exact fun _ => rfl
  · intro id exports
    simp only [loader, modSearch]
    split
    · intro world
      split
      · trivial
      · exact file id true
    · exact file id false

section Runs

variable (normalizer : Normalizer) (root : Id) (run : List Char → Id → Nat → ModuleCode ρ Unit)

end Runs

section Confinement

variable (normalizer : Normalizer) (root : Id)

/-- The ending keeps the shape of an identifier. -/
theorem withExtension_settled {id : Id} (settled : Settled id) : Settled (withExtension id) := by
  unfold withExtension
  split
  · exact settled
  · have pushed := ((settled.push (c := '.') (by decide)).push (c := 'j') (by decide)).push
      (c := 's') (by decide)
    rwa [List.append_assoc, List.append_assoc] at pushed

/-- It keeps the first byte. -/
theorem head_withExtension {id : Id} (some : id ≠ []) : (withExtension id).head? = id.head? := by
  unfold withExtension
  split
  · rfl
  · obtain ⟨first, rest, rfl⟩ := List.exists_cons_of_ne_nil some
    rfl

/-- A path without a slash in front is relative. -/
theorem isRelative_of_head {path : Id} (free : path.head? ≠ some '/') : isRelative path = true := by
  unfold isRelative
  split
  · exact absurd rfl free
  · exact absurd rfl free
  · rfl

/-- The input of a resolution starts with a slash only if the request or the
module that asks does. -/
theorem head_resolveBuffer {current : Option Id} {request input : Id}
    (plain : request.head? ≠ some '/')
    (inside : ∀ modId, current = some modId → modId ≠ [] ∧ modId.head? ≠ some '/')
    (fits : resolveBuffer current request = some input) : input.head? ≠ some '/' := by
  unfold resolveBuffer at fits
  split at fits
  · rename_i modId
    obtain ⟨some, free⟩ := inside modId rfl
    obtain ⟨first, rest, rfl⟩ := List.exists_cons_of_ne_nil some
    split at fits
    · split at fits
      · cases fits
      · obtain rfl := Option.some.inj fits
        exact free
    · split at fits
      · cases fits
      · obtain rfl := Option.some.inj fits
        exact plain
  · split at fits
    · cases fits
    · obtain rfl := Option.some.inj fits
      exact plain

end Confinement

end Hadouken.ModuleLoading
