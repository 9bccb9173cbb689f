import Hadouken.Library.Json
import Hadouken.Library.Programs

/-!
# Values that spell themselves

Of an object that has a callable `toJSON` the encoder takes what that function
returns in place of the object. The function can throw, and it can change the
state that the calls after it are made in, so that encoding is a program. The
limit on nesting is checked after the question, and bounds the descent.

The identity of objects is outside the model: what a function changes in an
object that is already being encoded is not seen. For an object that contains
itself the encoder throws, as it does for one nested beyond its limit.
-/

namespace Hadouken.Script

open Program

namespace Value

mutual

/-- No function is anywhere in the value. What a text decodes to is such a one. -/
def functionless : Value → Bool
  | .function _ => false
  | .array items named => functionlessItems items && functionlessMembers named
  | .object members => functionlessMembers members
  | _ => true

/-- No function is in any of the items. -/
def functionlessItems : List Value → Bool
  | [] => true
  | value :: rest => functionless value && functionlessItems rest

/-- No function is in any of the members. -/
def functionlessMembers : List (String × Value) → Bool
  | [] => true
  | (_, value) :: rest => functionless value && functionlessMembers rest

end

/-- A member of an object without functions has none. -/
theorem functionless_lookup (members : Members) (key : String)
    (plain : functionlessMembers members = true) :
    ((members.lookup key).getD .undefined).functionless = true := by
  induction members with
  | nil => rfl
  | cons member rest ih =>
    obtain ⟨name, value⟩ := member
    obtain ⟨own, others⟩ := Bool.and_eq_true_iff.mp plain
    rw [lookup_cons_ite]
    split
    · exact own
    · exact ih others

/-- An item of an array without functions has none. -/
theorem functionless_getElem (items : List Value) (index : Nat)
    (plain : functionlessItems items = true) :
    (items[index]?.getD .undefined).functionless = true := by
  induction items generalizing index with
  | nil => rfl
  | cons value rest ih =>
    obtain ⟨own, others⟩ := Bool.and_eq_true_iff.mp plain
    cases index with
    | zero => exact own
    | succ index => exact ih index others

/-- A property of a value without functions has none. -/
theorem functionless_member (value found : Value) (key : String)
    (plain : value.functionless = true) (read : value.member key = some found) :
    found.functionless = true := by
  cases value with
  | undefined => cases read
  | null => cases read
  | boolean flag =>
    obtain rfl := Option.some.inj read
    rfl
  | number number =>
    obtain rfl := Option.some.inj read
    rfl
  | function identity => cases plain
  | string text =>
    simp only [member] at read
    split at read
    · obtain rfl := Option.some.inj read
      rfl
    · split at read
      · obtain rfl := Option.some.inj read
        cases text.toList[‹Nat›]? <;> rfl
      · obtain rfl := Option.some.inj read
        rfl
  | error thrown =>
    simp only [member] at read
    split at read
    · obtain rfl := Option.some.inj read
      rfl
    · split at read <;> (obtain rfl := Option.some.inj read; rfl)
  | object members =>
    obtain rfl := Option.some.inj read
    exact functionless_lookup members key plain
  | array items named =>
    obtain ⟨own, others⟩ := Bool.and_eq_true_iff.mp plain
    simp only [member] at read
    split at read
    · obtain rfl := Option.some.inj read
      rfl
    · split at read
      · obtain rfl := Option.some.inj read
        exact functionless_getElem items _ own
      · obtain rfl := Option.some.inj read
        exact functionless_lookup named key others

end Value

namespace JsonMethods

variable {σ : Type}

/-- What the encoder throws beyond its limit. -/
def nestedTooDeep : Value := .error ⟨"RangeError", "json encode recursion limit"⟩

section Spelling

variable (call : Nat → Value → List Value → Program Value σ Value)

/-- `duk__enc_value1`: the value that is encoded for one that stands under a key. -/
def asked (key : String) (value : Value) : Program Value σ Value :=
  match value.member "toJSON" with
  | some (.function identity) => call identity value [.string key]
  | _ => pure value

variable (spell : String → Value → Program Value σ (Option Json))

/-- The loop of `duk__enc_array`, from an index on. -/
def spellItems : Nat → List Value → Program Value σ (List Json)
  | _, [] => pure []
  | index, value :: rest => do
      let document ← spell (toString index) value
      let others ← spellItems (index + 1) rest
      return document.getD .null :: others

/-- The loop of `duk__enc_object`: what has no text is left out. -/
def spellMembers : Members → Program Value σ (List (String × Json))
  | [] => pure []
  | (name, value) :: rest => do
      match ← spell name value with
      | some document => return (name, document) :: (← spellMembers rest)
      | none => spellMembers rest

/-- What is written of a value that was asked, with what spells the values in it. -/
def descend : Value → Program Value σ (Option Json)
  | .array items _ => do return some (.array (← spellItems spell 0 items))
  | .object members => do return some (.object (← spellMembers spell members))
  | value => pure (Json.ofValue value)

end Spelling

/-- The document of a value under a key, if it has one, for an encoder that may
descend this far. -/
def spell (call : Nat → Value → List Value → Program Value σ Value) :
    Nat → String → Value → Program Value σ (Option Json)
  | 0, key, value => do
      let value ← asked call key value
      if value.depth = 0 then return Json.ofValue value
      else throw nestedTooDeep
  | limit + 1, key, value => do descend (spell call limit) (← asked call key value)

variable (call : Nat → Value → List Value → Program Value σ Value)

/-- A value that has no callable `toJSON` stands for itself. -/
theorem asked_of_not_callable (key : String) (value : Value)
    (silent : ∀ identity, value.member "toJSON" ≠ some (.function identity)) :
    asked call key value = pure value := by
  unfold asked
  split
  · rename_i identity callable
    exact absurd callable (silent identity)
  · rfl

/-- A value without functions stands for itself. -/
theorem asked_of_functionless (key : String) (value : Value)
    (plain : value.functionless = true) : asked call key value = pure value := by
  refine asked_of_not_callable call key value fun identity callable => ?_
  exact Bool.noConfusion (Value.functionless_member value _ "toJSON" plain callable)

/-- What the encoder does with values it asks nothing: it writes them, unless
they are nested too deeply. -/
def outcome {α : Type} (depth limit : Nat) (document : α) (state : σ) : Except Value α × σ :=
  (if depth ≤ limit then .ok document else .error nestedTooDeep, state)

/-- The items of an array are written one by one. -/
theorem exec_spellItems (limit : Nat) (items : List Value) (plain : Value.functionlessItems items = true)
    (each : ∀ key value state, value.functionless = true →
      exec (spell call limit key value) state =
        outcome value.depth limit (Json.ofValue value) state) (index : Nat) (state : σ) :
    exec (spellItems (spell call limit) index items) state =
      outcome (Value.depthItems items) limit (Json.ofItems items) state := by
  induction items generalizing index with
  | nil => simp [spellItems, outcome, Value.depthItems, Json.ofItems]
  | cons value rest ih =>
    obtain ⟨own, others⟩ := Bool.and_eq_true_iff.mp plain
    have later := ih others (index + 1)
    have first := each (toString index) value state own
    rw [spellItems, exec_bind, first]
    by_cases shallow : value.depth ≤ limit
    · by_cases rest_shallow : Value.depthItems rest ≤ limit
      · simp [outcome, later, shallow, rest_shallow, Value.depthItems, Json.ofItems]
      · simp [outcome, later, shallow, rest_shallow, Value.depthItems]
    · simp [outcome, shallow, Value.depthItems]

/-- The members of an object are written one by one. -/
theorem exec_spellMembers (limit : Nat) (members : Members)
    (plain : Value.functionlessMembers members = true)
    (each : ∀ key value state, value.functionless = true →
      exec (spell call limit key value) state =
        outcome value.depth limit (Json.ofValue value) state) (state : σ) :
    exec (spellMembers (spell call limit) members) state =
      outcome (Value.depthMembers members) limit (Json.ofMembers members) state := by
  induction members with
  | nil => simp [spellMembers, outcome, Value.depthMembers, Json.ofMembers]
  | cons member rest ih =>
    obtain ⟨name, value⟩ := member
    obtain ⟨own, others⟩ := Bool.and_eq_true_iff.mp plain
    have later := ih others
    have first := each name value state own
    rw [spellMembers, exec_bind, first]
    by_cases shallow : value.depth ≤ limit
    · cases written : Json.ofValue value <;>
        by_cases rest_shallow : Value.depthMembers rest ≤ limit <;>
        simp [outcome, later, shallow, rest_shallow, written, Value.depthMembers, Json.ofMembers]
    · simp [outcome, shallow, Value.depthMembers]

/-- A value without functions is spelled as it stands, and nothing is called. -/
theorem exec_spell_of_functionless (limit : Nat) (key : String) (value : Value) (state : σ)
    (plain : value.functionless = true) :
    exec (spell call limit key value) state =
      outcome value.depth limit (Json.ofValue value) state := by
  induction limit generalizing key value state with
  | zero =>
    rw [spell, asked_of_functionless call key value plain]
    by_cases flat : value.depth = 0 <;> simp [outcome, flat]
  | succ limit ih =>
    rw [spell, asked_of_functionless call key value plain, exec_bind, exec_pure]
    cases value with
    | array items named =>
      have inside := exec_spellItems call limit items (Bool.and_eq_true_iff.mp plain).1 ih 0 state
      by_cases shallow : Value.depthItems items ≤ limit
      · have fits : 1 + Value.depthItems items ≤ limit + 1 := by omega
        simp [descend, inside, outcome, shallow, fits, Value.depth, Json.ofValue]
      · have beyond : ¬ 1 + Value.depthItems items ≤ limit + 1 := by omega
        simp [descend, inside, outcome, shallow, beyond, Value.depth]
    | object members =>
      have inside := exec_spellMembers call limit members plain ih state
      by_cases shallow : Value.depthMembers members ≤ limit
      · have fits : 1 + Value.depthMembers members ≤ limit + 1 := by omega
        simp [descend, inside, outcome, shallow, fits, Value.depth, Json.ofValue]
      · have beyond : ¬ 1 + Value.depthMembers members ≤ limit + 1 := by omega
        simp [descend, inside, outcome, shallow, beyond, Value.depth]
    | _ => simp [descend, outcome, Value.depth]

/-- A member comes in front of the others, if it has a document. -/
def written (name : String) (document : Option Json) : List (String × Json) :=
  document.toList.map fun document => (name, document)

/-- The name of a member that is written is found, unless an earlier one is. -/
theorem lookup_written_append (name key : String) (document : Option Json)
    (rest : List (String × Json)) (fresh : rest.lookup name = none) :
    (written name document ++ rest).lookup key =
      if key = name then document else rest.lookup key := by
  cases document with
  | none =>
    by_cases same : key = name
    · rw [if_pos same, same]
      exact fresh
    · rw [if_neg same]
      rfl
  | some document => exact lookup_cons_ite key (name, document) rest

/-- The first member of an object is spelled, and then the others. -/
theorem exec_spellMembers_cons_iff (limit : Nat) (name : String) (value : Value) (rest : Members)
    (state final : σ) (documents : List (String × Json)) :
    exec (spellMembers (spell call limit) ((name, value) :: rest)) state = (.ok documents, final) ↔
      ∃ document reached others,
        exec (spell call limit name value) state = (.ok document, reached) ∧
        exec (spellMembers (spell call limit) rest) reached = (.ok others, final) ∧
        documents = written name document ++ others := by
  rw [spellMembers, exec_bind]
  obtain ⟨thrown | document, reached⟩ := exec (spell call limit name value) state
  · simp
  · constructor
    · intro ran
      refine ⟨document, reached, ?_⟩
      cases document with
      | none => exact ⟨documents, rfl, ran, rfl⟩
      | some document =>
        simp only [exec_bind] at ran
        split at ran
        · rename_i others after later
          obtain ⟨rfl, rfl⟩ : (name, document) :: others = documents ∧ after = final := by
            simpa using ran
          exact ⟨others, rfl, later, rfl⟩
        · cases ran
    · rintro ⟨own, after, others, same, later, rfl⟩
      obtain ⟨rfl, rfl⟩ : document = own ∧ reached = after := by simpa using same
      cases document with
      | none => exact later
      | some document => simp [later, written]

/-- Without members nothing is written. -/
theorem exec_spellMembers_nil_iff (limit : Nat) (state final : σ)
    (documents : List (String × Json)) :
    exec (spellMembers (spell call limit) []) state = (.ok documents, final) ↔
      documents = [] ∧ final = state := by
  simp [spellMembers, eq_comm]

/-- An object without a `toJSON` is spelled when the limit leaves room for it and
its members are. -/
theorem exec_spell_object_iff (limit : Nat) (key : String) (members : Members) (state final : σ)
    (document : Option Json) (silent : members.lookup "toJSON" = none) :
    exec (spell call limit key (.object members)) state = (.ok document, final) ↔
      1 ≤ limit ∧ ∃ documents,
        exec (spellMembers (spell call (limit - 1)) members) state = (.ok documents, final) ∧
        document = some (.object documents) := by
  have itself : asked call key (.object members) = pure (.object members) :=
    asked_of_not_callable call key _ (by simp [silent])
  cases limit with
  | zero => simp [spell, itself, Value.depth]
  | succ limit =>
    rw [spell, itself]
    simp only [exec_bind, exec_pure, descend, Nat.add_sub_cancel, Nat.le_add_left, true_and]
    obtain ⟨thrown | documents, reached⟩ := exec (spellMembers (spell call limit) members) state
    · simp
    · simp only [Prod.mk.injEq, Except.ok.injEq]
      exact ⟨fun ⟨same, after⟩ => ⟨documents, ⟨rfl, after⟩, same.symm⟩,
        fun ⟨_, ⟨same, after⟩, whole⟩ => ⟨by rw [whole, same], after⟩⟩

/-- A value without functions is spelled within the limit. -/
theorem exec_spell_functionless_iff (limit : Nat) (key : String) (value : Value) (state final : σ)
    (document : Option Json) (plain : value.functionless = true) :
    exec (spell call limit key value) state = (.ok document, final) ↔
      value.depth ≤ limit ∧ document = Json.ofValue value ∧ final = state := by
  rw [exec_spell_of_functionless call limit key value state plain, outcome]
  by_cases shallow : value.depth ≤ limit
  · simp [shallow, eq_comm]
  · simp [shallow]

/-- A first member without functions is written, and the others are spelled in
the same state. -/
theorem exec_spellMembers_functionless_iff (limit : Nat) (name : String) (value : Value)
    (rest : Members) (state final : σ) (documents : List (String × Json))
    (plain : value.functionless = true) :
    exec (spellMembers (spell call limit) ((name, value) :: rest)) state = (.ok documents, final) ↔
      value.depth ≤ limit ∧ ∃ others,
        exec (spellMembers (spell call limit) rest) state = (.ok others, final) ∧
        documents = written name (Json.ofValue value) ++ others := by
  rw [exec_spellMembers_cons_iff]
  simp only [exec_spell_functionless_iff _ _ _ _ _ _ _ plain]
  constructor
  · rintro ⟨_, _, others, ⟨shallow, rfl, rfl⟩, behind, same⟩
    exact ⟨shallow, others, behind, same⟩
  · rintro ⟨shallow, others, behind, same⟩
    exact ⟨_, _, others, ⟨shallow, rfl, rfl⟩, behind, same⟩

/-- A single member is spelled as its value is. -/
theorem exec_spellMembers_singleton_iff (limit : Nat) (name : String) (value : Value)
    (state final : σ) (documents : List (String × Json)) :
    exec (spellMembers (spell call limit) [(name, value)]) state = (.ok documents, final) ↔
      ∃ own, exec (spell call limit name value) state = (.ok own, final) ∧
        documents = written name own := by
  simp only [exec_spellMembers_cons_iff, exec_spellMembers_nil_iff]
  constructor
  · rintro ⟨own, reached, _, spelled, ⟨rfl, rfl⟩, rfl⟩
    exact ⟨own, spelled, List.append_nil _⟩
  · rintro ⟨own, spelled, rfl⟩
    exact ⟨own, final, [], spelled, ⟨rfl, rfl⟩, (List.append_nil _).symm⟩

end JsonMethods

end Hadouken.Script
