import Mathlib.Data.Finset.Card
import Hadouken.Library.Members

/-!
# Loading with a cache

Code asks a loader for modules by name. The loader keeps one exports table for
each loaded module and answers from it. A module that is not in the cache is
searched for first, entered in the cache when the search returns, and only then
is its code run, which may ask for further modules, itself included.

Both the search and the code are arbitrary: they read and change a world, raise
and catch errors, and ask for modules. Only the searches are restricted, to
modules of a base layer that have no code of their own. This suffices for each
module's code to be run at most once whatever it asks for, and for every request
to be answered when finitely many names exist.
-/

namespace Hadouken.CachedLoading

/-- What code does, one interaction at a time. A request says whose it is. -/
inductive Code (Name World Request Error Result : Type) where
  | returns (result : Result)
  | throws (error : Error)
  | act (change : World → World) (rest : World → Code Name World Request Error Result)
  | require (current : Option Name) (request : Request)
      (rest : Except Error Nat → Code Name World Request Error Result)

/-- The cache, with the number of exports tables made so far. The last two
fields record which modules had their code run and which requests were
answered. -/
structure State (Name World : Type) where
  loaded : List (Name × Nat)
  tables : Nat
  world : World
  evaluated : List Name
  answers : List (Name × Nat)

variable {Name World Request Error Source Result : Type}

namespace State

/-- Before any request, with the names that are answered from the beginning. -/
def start (present : List (Name × Nat)) (tables : Nat) (world : World) : State Name World :=
  ⟨present, tables, world, [], []⟩

/-- The program changes the world. -/
def change (state : State Name World) (change : World → World) : State Name World :=
  { state with world := change state.world }

/-- A new exports table. -/
def allocate (state : State Name World) : State Name World :=
  { state with tables := state.tables + 1 }

/-- The table is kept under the name. -/
def register (state : State Name World) (name : Name) (table : Nat) : State Name World :=
  { state with loaded := (name, table) :: state.loaded }

/-- The code of the name is run. -/
def evaluate (state : State Name World) (name : Name) : State Name World :=
  { state with evaluated := name :: state.evaluated }

/-- A request for the name is answered with the table. -/
def answer (state : State Name World) (name : Name) (table : Nat) : State Name World :=
  { state with answers := (name, table) :: state.answers }

end State

/-- Run code, where `call` answers a request. -/
def Code.run (call : Option Name → Request → State Name World →
      Option (Except Error Nat × State Name World)) :
    Code Name World Request Error Result → State Name World →
      Option (Except Error Result × State Name World)
  | .returns result, state => some (.ok result, state)
  | .throws error, state => some (.error error, state)
  | .act change rest, state => (rest state.world).run call (state.change change)
  | .require current request rest, state =>
      (call current request state).bind fun outcome => (rest outcome.1).run call outcome.2

/-- How names are resolved, searched for and run. The search makes a source, or
fills the exports table itself. -/
structure Loader (Name World Request Error Source : Type) where
  resolve : Option Name → Request → Except Error Name
  search : Name → Nat → Code Name World Request Error (Option Source)
  body : Source → Name → Nat → Code Name World Request Error Unit

/-- Every request of the code is of the allowed kind. -/
def Code.Requires (allowed : Option Name → Request → Prop) :
    Code Name World Request Error Result → Prop
  | .returns _ | .throws _ => True
  | .act _ rest => ∀ world, (rest world).Requires allowed
  | .require current request rest =>
      allowed current request ∧ ∀ answer, (rest answer).Requires allowed

/-- Every value the code returns has the property. -/
def Code.Returns (property : Result → Prop) :
    Code Name World Request Error Result → Prop
  | .returns result => property result
  | .throws _ => True
  | .act _ rest => ∀ world, (rest world).Returns property
  | .require _ _ rest => ∀ answer, (rest answer).Returns property

/-- Code that may ask for anything. -/
theorem Code.requires_any (code : Code Name World Request Error Result) :
    code.Requires fun _ _ => True := by
  induction code with
  | returns | throws => trivial
  | act change rest ih => exact ih
  | require current request rest ih => exact ⟨trivial, ih⟩

/-- What is allowed may be extended. -/
theorem Code.Requires.mono {allowed larger : Option Name → Request → Prop}
    (weaker : ∀ current request, allowed current request → larger current request)
    (code : Code Name World Request Error Result) (requires : code.Requires allowed) :
    code.Requires larger := by
  induction code with
  | returns | throws => trivial
  | act change rest ih => exact fun world => ih world (requires world)
  | require current request rest ih =>
    exact ⟨weaker current request requires.1, fun answer => ih answer (requires.2 answer)⟩

/-- Every result is a result. -/
theorem Code.returns_any (code : Code Name World Request Error Result) :
    code.Returns fun _ => True := by
  induction code with
  | returns | throws => trivial
  | act change rest ih => exact ih
  | require current request rest ih => exact ih

/-- The rule for a run: what changes of the world and the allowed requests keep,
the run keeps, and it comes to an end when those requests are answered. -/
theorem Code.run_rule (Good : State Name World → Prop)
    {allowed : Option Name → Request → Prop} (property : Result → Prop)
    {call : Option Name → Request → State Name World →
      Option (Except Error Nat × State Name World)}
    (acts : ∀ state change, Good state → Good (state.change change))
    (calls : ∀ current request state, allowed current request → Good state →
      ∃ answer reached, call current request state = some (answer, reached) ∧ Good reached)
    (code : Code Name World Request Error Result) (requires : code.Requires allowed)
    (returns : code.Returns property) (state : State Name World) (good : Good state) :
    ∃ outcome reached, code.run call state = some (outcome, reached) ∧ Good reached ∧
      ∀ result, outcome = .ok result → property result := by
  induction code generalizing state with
  | returns result =>
    refine ⟨.ok result, state, rfl, good, fun other same => ?_⟩
    cases same
    exact returns
  | throws error => exact ⟨.error error, state, rfl, good, fun _ impossible => by cases impossible⟩
  | act change rest ih =>
    exact ih state.world (requires _) (returns _) _ (acts state change good)
  | require current request rest ih =>
    obtain ⟨answer, reached, answered, still⟩ := calls current request state requires.1 good
    obtain ⟨outcome, final, ran, kept, right⟩ :=
      ih answer (requires.2 answer) (returns answer) reached still
    exact ⟨outcome, final, by rw [Code.run, answered]; exact ran, kept, right⟩

/-- What changes of the world and the allowed requests keep, a run that ends keeps. -/
theorem Code.run_keeps (Good : State Name World → Prop)
    {allowed : Option Name → Request → Prop} {property : Result → Prop}
    {call : Option Name → Request → State Name World →
      Option (Except Error Nat × State Name World)}
    (acts : ∀ state change, Good state → Good (state.change change))
    (calls : ∀ current request state answer reached, allowed current request → Good state →
      call current request state = some (answer, reached) → Good reached)
    (code : Code Name World Request Error Result) (requires : code.Requires allowed)
    (returns : code.Returns property) (state : State Name World) (good : Good state)
    (outcome : Except Error Result) (reached : State Name World)
    (ran : code.run call state = some (outcome, reached)) :
    Good reached ∧ ∀ result, outcome = .ok result → property result := by
  induction code generalizing state with
  | returns result =>
    cases ran
    exact ⟨good, fun other same => by cases same; exact returns⟩
  | throws error =>
    cases ran
    exact ⟨good, fun _ impossible => by cases impossible⟩
  | act change rest ih => exact ih _ (requires _) (returns _) _ (acts state change good) ran
  | require current request rest ih =>
    obtain ⟨⟨answer, middle⟩, first, second⟩ := Option.bind_eq_some_iff.mp ran
    exact ih answer (requires.2 answer) (returns answer) middle
      (calls current request state answer middle requires.1 good first) second

/-- Answers that are the same make runs that are the same. -/
theorem Code.run_mono
    {call larger : Option Name → Request → State Name World →
      Option (Except Error Nat × State Name World)}
    (agree : ∀ current request state outcome, call current request state = some outcome →
      larger current request state = some outcome)
    (code : Code Name World Request Error Result) (state : State Name World)
    (outcome : Except Error Result × State Name World)
    (ran : code.run call state = some outcome) : code.run larger state = some outcome := by
  induction code generalizing state with
  | returns | throws => exact ran
  | act change rest ih => exact ih _ _ ran
  | require current request rest ih =>
    obtain ⟨answered, first, second⟩ := Option.bind_eq_some_iff.mp ran
    rw [Code.run, agree _ _ _ _ first]
    exact ih _ _ second

/-- The cache is a table of modules with exports tables of their own, no code was
run twice or outside it, and the answers come from it. -/
structure State.Sound (state : State Name World) : Prop where
  names_nodup : (state.loaded.map Prod.fst).Nodup
  tables_nodup : (state.loaded.map Prod.snd).Nodup
  tables_lt : ∀ entry ∈ state.loaded, entry.2 < state.tables
  evaluated_nodup : state.evaluated.Nodup
  evaluated_loaded : ∀ name ∈ state.evaluated, name ∈ state.loaded.map Prod.fst
  answers_loaded : ∀ answer ∈ state.answers, answer ∈ state.loaded

/-- What may happen to a state while code runs: nothing recorded is taken back,
and an entry made meanwhile has an exports table made meanwhile. -/
structure State.Extends (before after : State Name World) : Prop where
  loaded : before.loaded <:+ after.loaded
  tables : before.tables ≤ after.tables
  evaluated : before.evaluated <:+ after.evaluated
  answers : before.answers <:+ after.answers
  fresh : ∀ entry ∈ after.loaded, entry ∈ before.loaded ∨ before.tables ≤ entry.2

namespace State

/-- A state extends itself. -/
theorem Extends.refl (state : State Name World) : state.Extends state :=
  ⟨List.suffix_refl _, le_refl _, List.suffix_refl _, List.suffix_refl _,
    fun _ member => .inl member⟩

/-- Extensions are composed. -/
theorem Extends.trans {first second third : State Name World} (lower : first.Extends second)
    (upper : second.Extends third) : first.Extends third where
  loaded := lower.loaded.trans upper.loaded
  tables := lower.tables.trans upper.tables
  evaluated := lower.evaluated.trans upper.evaluated
  answers := lower.answers.trans upper.answers
  fresh := by
    intro entry member
    rcases upper.fresh entry member with old | new
    · exact lower.fresh entry old
    · exact .inr (lower.tables.trans new)

/-- A change of the world extends what came before. -/
theorem Extends.change {before after : State Name World} (grown : before.Extends after)
    (change : World → World) : before.Extends (after.change change) := { grown with }

/-- So does a new table. -/
theorem Extends.allocate {before after : State Name World} (grown : before.Extends after) :
    before.Extends after.allocate :=
  { grown with tables := grown.tables.trans (Nat.le_succ _) }

/-- So does a new table under a name. -/
theorem Extends.register {before after : State Name World} (grown : before.Extends after)
    (name : Name) (table : Nat) (new : before.tables ≤ table) :
    before.Extends (after.register name table) :=
  { grown with
    loaded := grown.loaded.trans (List.suffix_cons _ _)
    fresh := by
      intro entry member
      rcases List.mem_cons.mp member with rfl | old
      · exact .inr new
      · exact grown.fresh entry old }

/-- So does running a code. -/
theorem Extends.evaluate {before after : State Name World} (grown : before.Extends after)
    (name : Name) : before.Extends (after.evaluate name) :=
  { grown with evaluated := grown.evaluated.trans (List.suffix_cons _ _) }

/-- So does an answer. -/
theorem Extends.answer {before after : State Name World} (grown : before.Extends after)
    (name : Name) (table : Nat) : before.Extends (after.answer name table) :=
  { grown with answers := grown.answers.trans (List.suffix_cons _ _) }

/-- A start with distinct names and tables is sound. -/
theorem Sound.start {present : List (Name × Nat)} {tables : Nat}
    (names : (present.map Prod.fst).Nodup) (apart : (present.map Prod.snd).Nodup)
    (made : ∀ entry ∈ present, entry.2 < tables) (world : World) :
    (State.start present tables world).Sound where
  names_nodup := names
  tables_nodup := apart
  tables_lt := made
  evaluated_nodup := List.nodup_nil
  evaluated_loaded := by simp [State.start]
  answers_loaded := by simp [State.start]

/-- Changes of the world leave a state sound. -/
theorem Sound.change {state : State Name World} (sound : state.Sound) (change : World → World) :
    (state.change change).Sound := { sound with }

/-- So do new tables. -/
theorem Sound.allocate {state : State Name World} (sound : state.Sound) :
    state.allocate.Sound :=
  { sound with
    tables_lt := fun entry member => (sound.tables_lt entry member).trans (Nat.lt_succ_self _) }

/-- A module that is not loaded is entered with a table no other module has. -/
theorem Sound.register {state : State Name World} (sound : state.Sound) (name : Name)
    (table : Nat) (absent : name ∉ state.loaded.map Prod.fst)
    (own : table ∉ state.loaded.map Prod.snd) (made : table < state.tables) :
    (state.register name table).Sound where
  names_nodup := List.nodup_cons.mpr ⟨absent, sound.names_nodup⟩
  tables_nodup := List.nodup_cons.mpr ⟨own, sound.tables_nodup⟩
  tables_lt := List.forall_mem_cons.mpr ⟨made, sound.tables_lt⟩
  evaluated_nodup := sound.evaluated_nodup
  evaluated_loaded := fun other ran => List.mem_cons_of_mem _ (sound.evaluated_loaded other ran)
  answers_loaded := fun answer given => List.mem_cons_of_mem _ (sound.answers_loaded answer given)

/-- So does running a code that is kept and was not run before. -/
theorem Sound.evaluate {state : State Name World} (sound : state.Sound) (name : Name)
    (new : name ∉ state.evaluated) (present : name ∈ state.loaded.map Prod.fst) :
    (state.evaluate name).Sound :=
  { sound with
    evaluated_nodup := List.nodup_cons.mpr ⟨new, sound.evaluated_nodup⟩
    evaluated_loaded := List.forall_mem_cons.mpr ⟨present, sound.evaluated_loaded⟩ }

/-- So do answers with a table that is kept. -/
theorem Sound.answer {state : State Name World} (sound : state.Sound) (name : Name)
    (table : Nat) (held : (name, table) ∈ state.loaded) : (state.answer name table).Sound :=
  { sound with answers_loaded := List.forall_mem_cons.mpr ⟨held, sound.answers_loaded⟩ }

end State

/-- The names are among finitely many, and searches ask only for modules of a
base layer, which are found without a source and without a request. -/
structure Loader.Layered (loader : Loader Name World Request Error Source) (base : Name → Prop)
    (names : Finset Name) : Prop where
  bounded : ∀ current request name, loader.resolve current request = .ok name → name ∈ names
  base_requires : ∀ name table, base name → (loader.search name table).Requires fun _ _ => False
  base_returns : ∀ name table, base name → (loader.search name table).Returns (· = none)
  requires_base : ∀ name table, (loader.search name table).Requires fun current request =>
    ∀ other, loader.resolve current request = .ok other → base other

variable {loader : Loader Name World Request Error Source} {base : Name → Prop}
  {names : Finset Name}

/-- What a search leaves: the module is still not loaded, others may be. -/
structure Searched (name : Name) (before after : State Name World) : Prop where
  sound : after.Sound
  grown : before.Extends after
  absent : name ∉ after.loaded.map Prod.fst

/-- Before the search nothing has happened. -/
theorem Searched.refl {name : Name} {state : State Name World} (sound : state.Sound)
    (absent : name ∉ state.loaded.map Prod.fst) : Searched name state state :=
  ⟨sound, .refl state, absent⟩

/-- The exports table made before a search belongs to no module after it. -/
theorem Searched.own {name : Name} {state reached : State Name World} (sound : state.Sound)
    (searched : Searched name state.allocate reached) :
    state.tables ∉ reached.loaded.map Prod.snd := by
  intro member
  obtain ⟨entry, held, same⟩ := List.mem_map.mp member
  rcases searched.grown.fresh entry held with old | new
  · have := sound.tables_lt entry old
    omega
  · have made : state.tables + 1 ≤ entry.2 := new
    omega

/-- The entry made after a search keeps the cache sound. -/
theorem Searched.register {name : Name} {state reached : State Name World}
    (sound : state.Sound) (searched : Searched name state.allocate reached) :
    (reached.register name state.tables).Sound ∧
      state.Extends (reached.register name state.tables) := by
  have below : state.Extends reached := (State.Extends.refl state).allocate.trans searched.grown
  exact ⟨searched.sound.register name state.tables searched.absent (searched.own sound)
    (Nat.lt_of_succ_le searched.grown.tables), below.register name state.tables (le_refl _)⟩

/-- The state in which the code of a module starts. -/
theorem Searched.evaluate {name : Name} {state reached : State Name World}
    (sound : state.Sound) (searched : Searched name state.allocate reached) :
    ((reached.register name state.tables).evaluate name).Sound := by
  have unevaluated : name ∉ (reached.register name state.tables).evaluated :=
    fun ran => searched.absent (searched.sound.evaluated_loaded name ran)
  exact (searched.register sound).1.evaluate name unevaluated List.mem_cons_self

/-- The search for a module of the base layer changes the world alone. -/
theorem search_base (layered : loader.Layered base names)
    (call : Option Name → Request → State Name World →
      Option (Except Error Nat × State Name World))
    (name : Name) (table : Nat) (low : base name) (state : State Name World) :
    ∃ outcome world, (loader.search name table).run call state =
        some (outcome, { state with world := world }) ∧
      ∀ source, outcome = .ok source → source = none := by
  obtain ⟨outcome, reached, ran, ⟨world, rfl⟩, right⟩ :=
    Code.run_rule (fun reached => ∃ world, reached = { state with world := world }) _
      (by rintro _ change ⟨world, rfl⟩; exact ⟨change world, rfl⟩)
      (fun _ _ _ impossible _ => impossible.elim) (loader.search name table)
      (layered.base_requires name table low) (layered.base_returns name table low) state
      ⟨state.world, rfl⟩
  exact ⟨outcome, world, ran, right⟩

/-- Load a module that is not in the cache: search for it, enter it, run its
code. -/
def Loader.load (loader : Loader Name World Request Error Source)
    (call : Option Name → Request → State Name World →
      Option (Except Error Nat × State Name World))
    (name : Name) (state : State Name World) : Option (Except Error Nat × State Name World) :=
  ((loader.search name state.tables).run call state.allocate).bind fun
    | (.error error, reached) => some (.error error, reached)
    | (.ok none, reached) =>
        some (.ok state.tables, (reached.register name state.tables).answer name state.tables)
    | (.ok (some source), reached) =>
        ((loader.body source name state.tables).run call
            ((reached.register name state.tables).evaluate name)).bind fun
          | (.error error, final) => some (.error error, final)
          | (.ok _, final) => some (.ok state.tables, final.answer name state.tables)

/-- Loading keeps what its search and the code of the module keep. -/
theorem load_rule {call : Option Name → Request → State Name World →
      Option (Except Error Nat × State Name World)} {name : Name} {state reached : State Name World}
    {outcome : Except Error (Option Source)} (sound : state.Sound)
    (ran : (loader.search name state.tables).run call state.allocate = some (outcome, reached))
    (searched : Searched name state.allocate reached)
    (runs : ∀ source, outcome = .ok (some source) → ∃ result final,
      (loader.body source name state.tables).run call
          ((reached.register name state.tables).evaluate name) = some (result, final) ∧
        final.Sound ∧ ((reached.register name state.tables).evaluate name).Extends final) :
    ∃ answer final, loader.load call name state = some (answer, final) ∧ final.Sound ∧
      state.Extends final ∧ ∀ table, answer = .ok table → (name, table) ∈ final.loaded := by
  obtain ⟨entered, grown⟩ := searched.register sound
  have held : (name, state.tables) ∈ (reached.register name state.tables).loaded :=
    List.mem_cons_self
  match outcome with
  | .error error =>
    refine ⟨.error error, reached, by rw [Loader.load, ran]; rfl, searched.sound,
      (State.Extends.refl state).allocate.trans searched.grown, fun _ impossible => ?_⟩
    cases impossible
  | .ok none =>
    refine ⟨.ok state.tables, _, by rw [Loader.load, ran]; rfl,
      entered.answer name state.tables held, grown.answer name state.tables, fun table same => ?_⟩
    cases same
    exact held
  | .ok (some source) =>
    obtain ⟨result, final, ended, kept, later⟩ := runs source rfl
    have whole : state.Extends final := (grown.evaluate name).trans later
    have still : (name, state.tables) ∈ final.loaded := later.loaded.subset held
    match result with
    | .error error =>
      refine ⟨.error error, final, ?_, kept, whole, fun _ impossible => by cases impossible⟩
      rw [Loader.load, ran]
      simp only [Option.bind_some, ended]
    | .ok value =>
      refine ⟨.ok state.tables, final.answer name state.tables, ?_,
        kept.answer name state.tables still, whole.answer name state.tables, fun table same => ?_⟩
      · rw [Loader.load, ran]
        simp only [Option.bind_some, ended]
      · cases same
        exact still

/-- Loading a module of the base layer enters at most that module. -/
theorem load_base (layered : loader.Layered base names)
    (call : Option Name → Request → State Name World →
      Option (Except Error Nat × State Name World)) {name : Name} {state : State Name World}
    (low : base name) (sound : state.Sound) (absent : name ∉ state.loaded.map Prod.fst) :
    ∃ answer reached, loader.load call name state = some (answer, reached) ∧ reached.Sound ∧
      state.Extends reached ∧ ∀ entry ∈ reached.loaded, entry ∈ state.loaded ∨ base entry.1 := by
  obtain ⟨outcome, world, ran, plain⟩ :=
    search_base layered call name state.tables low state.allocate
  have searched : Searched name state.allocate { state.allocate with world := world } :=
    ⟨sound.allocate.change fun _ => world, (State.Extends.refl _).change fun _ => world, absent⟩
  obtain ⟨entered, grown⟩ := searched.register sound
  match outcome with
  | .error error =>
    refine ⟨.error error, _, by rw [Loader.load, ran]; rfl, searched.sound,
      (State.Extends.refl state).allocate.trans searched.grown, fun _ old => .inl old⟩
  | .ok source =>
    obtain rfl := plain source rfl
    refine ⟨.ok state.tables, _, by rw [Loader.load, ran]; rfl,
      entered.answer name state.tables List.mem_cons_self, grown.answer name state.tables, ?_⟩
    intro entry member
    rcases List.mem_cons.mp member with rfl | old
    · exact .inr low
    · exact .inl old

/-- No module of the kind is loaded. -/
def State.Without (kind : Name → Prop) (state : State Name World) : Prop :=
  ∀ entry ∈ state.loaded, ¬ kind entry.1

/-- Neither a search nor another module asks for a module of the kind. -/
structure Loader.Avoids (loader : Loader Name World Request Error Source) (kind : Name → Prop) :
    Prop where
  search : ∀ name table, (loader.search name table).Requires fun current request =>
    ∀ other, loader.resolve current request = .ok other → ¬ kind other
  body : ∀ source name table, ¬ kind name →
    (loader.body source name table).Requires fun current request =>
      ∀ other, loader.resolve current request = .ok other → ¬ kind other

/-- A table under another name brings none of the kind. -/
theorem State.Without.register {kind : Name → Prop} {state : State Name World}
    (without : state.Without kind) {name : Name} (other : ¬ kind name) (table : Nat) :
    (state.register name table).Without kind := List.forall_mem_cons.mpr ⟨other, without⟩

/-- Where requests for the kind are refused, loading another name brings none of it. -/
theorem load_without {kind : Name → Prop} (avoids : loader.Avoids kind)
    {call : Option Name → Request → State Name World →
      Option (Except Error Nat × State Name World)}
    (calls : ∀ current request state answer reached,
      (∀ other, loader.resolve current request = .ok other → ¬ kind other) →
      state.Without kind → call current request state = some (answer, reached) →
      reached.Without kind)
    {name : Name} (other : ¬ kind name) (state final : State Name World)
    (without : state.Without kind) (answer : Except Error Nat)
    (loaded : loader.load call name state = some (answer, final)) : final.Without kind := by
  obtain ⟨⟨found, reached⟩, ran, rest⟩ := Option.bind_eq_some_iff.mp loaded
  have searched : reached.Without kind :=
    (Code.run_keeps (State.Without kind) (fun _ _ kept => kept) calls _
      (avoids.search name state.tables) (Code.returns_any _) state.allocate without _ reached
      ran).1
  match found with
  | .error _ =>
    cases rest
    exact searched
  | .ok none =>
    cases rest
    exact searched.register other state.tables
  | .ok (some source) =>
    obtain ⟨⟨ended, after⟩, body, last⟩ := Option.bind_eq_some_iff.mp rest
    have kept : after.Without kind :=
      (Code.run_keeps (State.Without kind) (fun _ _ kept => kept) calls _
        (avoids.body source name state.tables other) (Code.returns_any _)
        ((reached.register name state.tables).evaluate name)
        (searched.register other state.tables) _ after body).1
    match ended with
    | .error _ | .ok _ =>
      cases last
      exact kept

/-- Loading does not depend on calls that it does not make. -/
theorem load_mono {call larger : Option Name → Request → State Name World →
      Option (Except Error Nat × State Name World)}
    (agree : ∀ current request state outcome, call current request state = some outcome →
      larger current request state = some outcome)
    (name : Name) (state : State Name World) (outcome : Except Error Nat × State Name World)
    (loaded : loader.load call name state = some outcome) :
    loader.load larger name state = some outcome := by
  obtain ⟨⟨found, reached⟩, ran, rest⟩ := Option.bind_eq_some_iff.mp loaded
  rw [Loader.load, Code.run_mono agree _ _ _ ran]
  match found with
  | .error _ | .ok none => exact rest
  | .ok (some source) =>
    obtain ⟨ended, body, last⟩ := Option.bind_eq_some_iff.mp rest
    simp only [Option.bind_some, Code.run_mono agree _ _ _ body]
    exact last

variable [DecidableEq Name]

/-- Answer a request with at most `fuel` requests inside one another. -/
def Loader.require (loader : Loader Name World Request Error Source) :
    Nat → Option Name → Request → State Name World →
      Option (Except Error Nat × State Name World)
  | 0, _, _, _ => none
  | fuel + 1, current, request, state =>
    match loader.resolve current request with
    | .error error => some (.error error, state)
    | .ok name =>
      match state.loaded.lookup name with
      | some table => some (.ok table, state.answer name table)
      | none => loader.load (loader.require fuel) name state

namespace State

/-- The names not loaded yet. -/
def remaining (names : Finset Name) (state : State Name World) : Nat :=
  (names.filter fun name => name ∉ state.loaded.map Prod.fst).card

/-- Fewer names remain in a later state. -/
theorem remaining_le (names : Finset Name) {before after : State Name World}
    (grown : before.Extends after) : remaining names after ≤ remaining names before := by
  apply Finset.card_le_card
  intro name member
  obtain ⟨named, absent⟩ := Finset.mem_filter.mp member
  refine Finset.mem_filter.mpr ⟨named, fun present => absent ?_⟩
  exact (grown.loaded.map Prod.fst).subset present

/-- A new name is one less that remains. -/
theorem remaining_register (names : Finset Name) (state : State Name World)
    (name : Name) (table : Nat) (named : name ∈ names)
    (absent : name ∉ state.loaded.map Prod.fst) :
    remaining names (state.register name table) < remaining names state := by
  apply Finset.card_lt_card
  refine (Finset.ssubset_iff_of_subset fun other member => ?_).mpr ⟨name, ?_, ?_⟩
  · obtain ⟨among, unloaded⟩ := Finset.mem_filter.mp member
    exact Finset.mem_filter.mpr
      ⟨among, fun present => unloaded (List.mem_cons_of_mem _ present)⟩
  · exact Finset.mem_filter.mpr ⟨named, absent⟩
  · intro member
    exact (Finset.mem_filter.mp member).2 List.mem_cons_self

/-- No more names remain than there are. -/
theorem remaining_le_card (names : Finset Name) (state : State Name World) :
    remaining names state ≤ names.card := Finset.card_filter_le _ _

end State

/-- What answering a request guarantees. An answer is the exports table of the
module the request resolves to. -/
structure Answered (loader : Loader Name World Request Error Source) (current : Option Name)
    (request : Request) (before : State Name World) (answer : Except Error Nat)
    (after : State Name World) : Prop where
  sound : after.Sound
  grown : before.Extends after
  right : ∀ table, answer = .ok table →
    ∃ name, loader.resolve current request = .ok name ∧ (name, table) ∈ after.loaded

/-- A request that is resolved to a name which is not loaded loads it. -/
theorem require_load {fuel : Nat} {current : Option Name} {request : Request}
    {state : State Name World} {name : Name} (resolved : loader.resolve current request = .ok name)
    (absent : state.loaded.lookup name = none) :
    loader.require (fuel + 1) current request state =
      loader.load (loader.require fuel) name state := by
  rw [Loader.require, resolved]
  simp only [absent]

/-- A module that is in the cache is answered at once. -/
theorem require_held {state : State Name World} (sound : state.Sound) {name : Name} {table : Nat}
    (present : (name, table) ∈ state.loaded) (fuel : Nat) (current : Option Name)
    (request : Request) (resolved : loader.resolve current request = .ok name) :
    loader.require (fuel + 1) current request state =
      some (.ok table, state.answer name table) := by
  have found : state.loaded.lookup name = some table :=
    lookup_of_mem name table state.loaded sound.names_nodup present
  rw [Loader.require, resolved]
  simp only [found]

/-- A request that fails to resolve, or whose module is loaded, is answered at
once. -/
theorem require_at_once (fuel : Nat) (current : Option Name) (request : Request)
    {state : State Name World} (sound : state.Sound)
    (held : ∀ name, loader.resolve current request = .ok name →
      (state.loaded.lookup name).isSome = true) :
    ∃ answer reached, loader.require (fuel + 1) current request state = some (answer, reached) ∧
      Answered loader current request state answer reached ∧ reached.loaded = state.loaded := by
  cases resolved : loader.resolve current request with
  | error error =>
    exact ⟨.error error, state, by rw [Loader.require, resolved],
      ⟨sound, .refl state, fun _ impossible => by cases impossible⟩, rfl⟩
  | ok name =>
    obtain ⟨table, found⟩ := Option.isSome_iff_exists.mp (held name resolved)
    have entry : (name, table) ∈ state.loaded := mem_of_lookup _ _ _ found
    refine ⟨.ok table, state.answer name table,
      require_held sound entry fuel current request resolved,
      ⟨sound.answer name table entry, (State.Extends.refl state).answer name table, ?_⟩, rfl⟩
    intro other same
    cases same
    exact ⟨name, resolved, entry⟩

/-- What is not found is not kept. -/
theorem absent_of_lookup {name : Name} {state : State Name World}
    (missing : state.loaded.lookup name = none) : name ∉ state.loaded.map Prod.fst := by
  rw [← lookup_isSome_iff, missing]
  simp

/-- What is not kept is not found. -/
theorem lookup_of_absent {name : Name} {state : State Name World}
    (absent : name ∉ state.loaded.map Prod.fst) : state.loaded.lookup name = none := by
  rw [← Option.not_isSome_iff_eq_none, lookup_isSome_iff]
  exact absent

/-- A request that is not answered at once is for a module that is not loaded. -/
theorem missing_of_not_held {current : Option Name} {request : Request} {state : State Name World}
    (held : ¬ ∀ name, loader.resolve current request = .ok name →
      (state.loaded.lookup name).isSome = true) :
    ∃ name, loader.resolve current request = .ok name ∧ state.loaded.lookup name = none := by
  by_contra all
  refine held fun name resolved => Option.isSome_iff_ne_none.mpr fun missing => ?_
  exact all ⟨name, resolved, missing⟩

/-- A search ends, and does not load the module it is for. -/
theorem search_rule (layered : loader.Layered base names) (fuel : Nat) {name : Name}
    {state : State Name World} (sound : state.Sound)
    (absent : name ∉ state.loaded.map Prod.fst) :
    ∃ outcome reached, (loader.search name state.tables).run (loader.require (fuel + 1))
        state.allocate = some (outcome, reached) ∧ Searched name state.allocate reached := by
  by_cases low : base name
  · obtain ⟨outcome, world, ran, -⟩ :=
      search_base layered (loader.require (fuel + 1)) name state.tables low state.allocate
    exact ⟨outcome, _, ran, sound.allocate.change fun _ => world,
      (State.Extends.refl _).change fun _ => world, absent⟩
  · have calls : ∀ current request reached,
        (∀ other, loader.resolve current request = .ok other → base other) →
        Searched name state.allocate reached →
        ∃ answer after, loader.require (fuel + 1) current request reached = some (answer, after) ∧
          Searched name state.allocate after := by
      intro current request reached lower searched
      by_cases held : ∀ other, loader.resolve current request = .ok other →
          (reached.loaded.lookup other).isSome = true
      · obtain ⟨answer, after, called, answered, same⟩ :=
          require_at_once fuel current request searched.sound held
        exact ⟨answer, after, called, answered.sound, searched.grown.trans answered.grown,
          by rw [same]; exact searched.absent⟩
      · obtain ⟨other, resolved, missing⟩ := missing_of_not_held held
        obtain ⟨answer, after, called, still, grown, entered⟩ :=
          load_base layered (loader.require fuel) (lower other resolved) searched.sound
            (absent_of_lookup missing)
        refine ⟨answer, after, (require_load resolved missing).trans called, still,
          searched.grown.trans grown, fun member => ?_⟩
        obtain ⟨entry, present, same⟩ := List.mem_map.mp member
        rcases entered entry present with old | new
        · exact searched.absent (same ▸ List.mem_map_of_mem old)
        · exact low (same ▸ new)
    obtain ⟨outcome, reached, ran, searched, -⟩ :=
      Code.run_rule (Searched name state.allocate) (fun _ => True)
        (fun _ change kept => ⟨kept.sound.change change, kept.grown.change change, kept.absent⟩)
        calls (loader.search name state.tables) (layered.requires_base name state.tables)
        (Code.returns_any _) state.allocate (Searched.refl sound.allocate absent)
    exact ⟨outcome, reached, ran, searched⟩

/-- When a module that has a source is loaded without an error, its code ran to
the end. -/
theorem load_ok (layered : loader.Layered base names) (fuel : Nat) {name : Name}
    {state final : State Name World} {table : Nat} (sound : state.Sound)
    (absent : name ∉ state.loaded.map Prod.fst)
    (sourced : (loader.search name state.tables).Returns fun source => source.isSome = true)
    (loaded : loader.load (loader.require (fuel + 1)) name state = some (.ok table, final)) :
    ∃ source before after, (loader.body source name state.tables).run (loader.require (fuel + 1))
      before = some (.ok (), after) ∧ before.Sound ∧ final = after.answer name state.tables := by
  obtain ⟨outcome, reached, ran, searched⟩ := search_rule layered fuel sound absent
  have present := (Code.run_keeps (fun _ => True) (fun _ _ _ => trivial)
    (fun _ _ _ _ _ _ _ _ => trivial) _ (Code.requires_any _) sourced _ trivial _ _ ran).2
  rw [Loader.load, ran, Option.bind_some] at loaded
  match outcome with
  | .error _ => cases loaded
  | .ok none => cases present none rfl
  | .ok (some source) =>
    obtain ⟨⟨ended, after⟩, body, last⟩ := Option.bind_eq_some_iff.mp loaded
    match ended with
    | .error _ => cases last
    | .ok () =>
      cases last
      exact ⟨source, _, after, body, searched.evaluate sound, rfl⟩

/-- Every request is answered once `fuel` covers the modules not loaded yet. -/
theorem require_rule (layered : loader.Layered base names) (fuel : Nat)
    (current : Option Name) (request : Request) (state : State Name World) (sound : state.Sound)
    (enough : state.remaining names + 2 ≤ fuel) :
    ∃ answer reached, loader.require fuel current request state = some (answer, reached) ∧
      Answered loader current request state answer reached := by
  induction fuel generalizing current request state with
  | zero => omega
  | succ fuel ih =>
    by_cases held : ∀ name, loader.resolve current request = .ok name →
        (state.loaded.lookup name).isSome = true
    · obtain ⟨answer, reached, called, answered, -⟩ :=
        require_at_once fuel current request sound held
      exact ⟨answer, reached, called, answered⟩
    · obtain ⟨name, resolved, missing⟩ := missing_of_not_held held
      have absent := absent_of_lookup missing
      have named := layered.bounded current request name resolved
      have left : 0 < state.remaining names :=
        Finset.card_pos.mpr ⟨name, Finset.mem_filter.mpr ⟨named, absent⟩⟩
      obtain ⟨deeper, rfl⟩ : ∃ deeper, fuel = deeper + 1 := ⟨fuel - 1, by omega⟩
      obtain ⟨outcome, reached, ran, searched⟩ := search_rule layered deeper sound absent
      -- Entering the module uses up one name, which pays for the requests of its code.
      have fewer : (reached.register name state.tables).remaining names + 2 ≤ deeper + 1 := by
        have less := State.remaining_register names reached name state.tables named searched.absent
        have grown := State.remaining_le names searched.grown
        have same : state.allocate.remaining names = state.remaining names := rfl
        omega
      obtain ⟨answer, final, loaded, kept, grown, entry⟩ := load_rule sound ran searched
        (by
          intro source found
          let before := (reached.register name state.tables).evaluate name
          obtain ⟨result, after, ended, good, -⟩ :=
            Code.run_rule (fun after => after.Sound ∧ before.Extends after)
              (fun _ => True)
              (fun _ change kept => ⟨kept.1.change change, kept.2.change change⟩)
              (fun current request middle _ kept => by
                have covered : middle.remaining names + 2 ≤ deeper + 1 :=
                  (Nat.add_le_add_right (State.remaining_le names kept.2) 2).trans fewer
                obtain ⟨answer, after, called, answered⟩ :=
                  ih current request middle kept.1 covered
                exact ⟨answer, after, called, answered.sound, kept.2.trans answered.grown⟩)
              (loader.body source name state.tables) (Code.requires_any _)
              (Code.returns_any _) before
              ⟨searched.evaluate sound, .refl before⟩
          exact ⟨result, after, ended, good.1, good.2⟩)
      refine ⟨answer, final, (require_load resolved missing).trans loaded, kept, grown,
        fun table same => ⟨name, resolved, entry table same⟩⟩

/-- A module that nobody asks for is not loaded. -/
theorem require_without {kind : Name → Prop} (avoids : loader.Avoids kind) (fuel : Nat)
    (current : Option Name) (request : Request) (state : State Name World)
    (answer : Except Error Nat) (reached : State Name World)
    (other : ∀ name, loader.resolve current request = .ok name → ¬ kind name)
    (without : state.Without kind)
    (answered : loader.require fuel current request state = some (answer, reached)) :
    reached.Without kind := by
  induction fuel generalizing current request state answer reached with
  | zero => cases answered
  | succ fuel ih =>
    rw [Loader.require] at answered
    split at answered
    · cases answered
      exact without
    · rename_i name resolved
      split at answered
      · cases answered
        exact without
      · exact load_without avoids ih (other name resolved) state reached without answer answered

/-- Code that asks the loader comes to an end and leaves a sound cache. -/
theorem program_rule (layered : loader.Layered base names) (fuel : Nat)
    (enough : names.card + 2 ≤ fuel) (code : Code Name World Request Error Result)
    (state : State Name World) (sound : state.Sound) :
    ∃ outcome reached, code.run (loader.require fuel) state = some (outcome, reached) ∧
      reached.Sound ∧ state.Extends reached := by
  obtain ⟨outcome, reached, ran, good, -⟩ :=
    Code.run_rule (fun reached => reached.Sound ∧ state.Extends reached)
      (fun _ => True)
      (fun _ change kept => ⟨kept.1.change change, kept.2.change change⟩)
      (fun current request middle _ kept => by
        have covered : middle.remaining names + 2 ≤ fuel :=
          (Nat.add_le_add_right (State.remaining_le_card names middle) 2).trans enough
        obtain ⟨answer, after, called, answered⟩ :=
          require_rule layered fuel current request middle kept.1 covered
        exact ⟨answer, after, called, answered.sound, kept.2.trans answered.grown⟩)
      code (Code.requires_any _) (Code.returns_any _) state ⟨sound, .refl state⟩
  exact ⟨outcome, reached, ran, good⟩

/-- An answer does not depend on `fuel`. -/
theorem require_mono {fuel more : Nat} (le : fuel ≤ more) (current : Option Name)
    (request : Request) (state : State Name World)
    (outcome : Except Error Nat × State Name World)
    (answered : loader.require fuel current request state = some outcome) :
    loader.require more current request state = some outcome := by
  induction fuel generalizing more current request state outcome with
  | zero => cases answered
  | succ fuel ih =>
    obtain ⟨larger, rfl⟩ : ∃ larger, more = larger + 1 := ⟨more - 1, by omega⟩
    rw [Loader.require] at answered ⊢
    split at answered
    · exact answered
    · split at answered
      · exact answered
      · exact load_mono (fun current request state outcome =>
          ih (by omega) current request state outcome) _ _ _ answered

/-- What answering guarantees holds of every answer, with however little `fuel`. -/
theorem answered_of_require (layered : loader.Layered base names) {fuel : Nat}
    {current : Option Name} {request : Request} {state reached : State Name World}
    {answer : Except Error Nat} (sound : state.Sound)
    (called : loader.require fuel current request state = some (answer, reached)) :
    Answered loader current request state answer reached := by
  obtain ⟨other, final, ran, answered⟩ := require_rule layered
    (max fuel (state.remaining names + 2)) current request state sound (le_max_right _ _)
  have same := require_mono (le_max_left fuel (state.remaining names + 2)) current request state _
    called
  rw [ran] at same
  cases same
  exact answered

end Hadouken.CachedLoading
