import Hadouken.Library.JsonMethods
import Hadouken.RemoteCalls

/-!
# Looking up and calling RPC methods

rpc.js keeps its methods in a plain object, which it fills with its own two and
with what the files of the `rpc` directory export. The object is looked up with
names the client chose, so that a name no method was registered under can still
be one that every object inherits.

A call of a registered method may change the state of the host. The functions
an object inherits are the engine's and change nothing. What they all return or
throw is a parameter.

A method can return, or throw, an object with a `toJSON`, which the encoder calls
in the state the method left. A request is decoded and has no functions.
-/

namespace Hadouken.Dispatch

open Script Program RemoteCalls JsonMethods

variable {σ : Type}

/-- What a file of the `rpc` directory exports. An assignment to `__proto__`
makes no property of its own, and no file exports that name. -/
structure Rpc where
  name : String
  method : Nat
  own : name ≠ "__proto__"

/-- The methods that were found, what the functions do, and the host's conversions
and JSON. -/
structure Host (σ : Type) where
  files : List Rpc
  builtin : Nat → Value → List Value → Except Value Value
  call : σ → Nat → Value → List Value → Except Value Value × σ
  conversions : Conversions
  text : Value → String
  decode : List UInt8 → Option Value
  encodeLimit : Nat

/-- What every plain object inherits. -/
def objectPrototype : Members :=
  [("__proto__", .object []), ("constructor", .function 0), ("toString", .function 1),
    ("toLocaleString", .function 2), ("valueOf", .function 3), ("hasOwnProperty", .function 4),
    ("isPrototypeOf", .function 5), ("propertyIsEnumerable", .function 6)]

/-- The functions of the scripts are numbered after the inherited ones. -/
def scriptFunction (method : Nat) : Value := .function (7 + method)

/-- The body of the loop over the files of the `rpc` directory. -/
def register (methods : Members) (rpc : Rpc) : Members :=
  if rpc.name ≠ "" then assign rpc.name (scriptFunction rpc.method) methods else methods

/-- The table `methods` once rpc.js is loaded. -/
def methods (files : List Rpc) : Members :=
  files.foldl register [("core.introspect", scriptFunction 0), ("core.multiCall", scriptFunction 1)]

/-- Read a property of a plain object: its own, or else an inherited one. -/
def property (own : Members) (key : String) : Value :=
  (own.lookup key).getD ((objectPrototype.lookup key).getD .undefined)

/-- A call of a function by its number, and the state it leaves. -/
def Host.callAt (host : Host σ) (state : σ) (identity : Nat) (this : Value)
    (arguments : List Value) : Except Value Value × σ :=
  if identity < 7 then (host.builtin identity this arguments, state)
  else host.call state (identity - 7) this arguments

/-- The scripts as one request finds them. -/
def Host.scripts (host : Host σ) (state : σ) : Scripts where
  methods := property (methods host.files)
  call identity this arguments := (host.callAt state identity this arguments).1
  conversions := host.conversions
  text := host.text
  decode := host.decode
  encodeLimit := host.encodeLimit

/-- `invoke`, with the state the method leaves. -/
def invokeAt (host : Host σ) (state : σ) (method params : Value) : Except Value Value × σ :=
  match method, params with
  | .function identity, .array items _ => host.callAt state identity method items
  | .function identity, _ => host.callAt state identity .undefined [params]
  | _, _ => (.error (.error (typeError "not callable")), state)

/-- The state in which the response to a request is encoded. -/
def Host.after (host : Host σ) (state : σ) (request : Value) : σ :=
  match (request.member "method").bind host.conversions.propertyKey, request.member "params" with
  | some key, some params => (invokeAt host state (property (methods host.files) key) params).2
  | _, _ => state

/-- A call as a program over the host's state. -/
def Host.called (host : Host σ) (identity : Nat) (this : Value) (arguments : List Value) :
    Program Value σ Value := ExceptT.mk fun state => host.callAt state identity this arguments

/-- The encoder this far below the top of a response. -/
def Host.spellBelow (host : Host σ) (levels : Nat) : String → Value → Program Value σ (Option Json) :=
  spell host.called (host.encodeLimit - levels)

/-- `duk_json_encode` of a response. -/
def Host.encode (host : Host σ) (response : Value) : Program Value σ (Option Json) :=
  host.spellBelow 0 "" response

/-- A method was registered under this name. -/
def Registered (host : Host σ) (key : String) : Prop := ((methods host.files).lookup key).isSome

/-- The name is only one that every object has. -/
def Inherited (host : Host σ) (key : String) : Prop :=
  ¬ Registered host key ∧ (objectPrototype.lookup key).isSome

/-- The code of the error in a response. -/
def errorCode (response : List (String × Json)) : Option ℚ :=
  match response.lookup "error" with
  | some (.object error) =>
      match error.lookup "code" with
      | some (.number code) => some code
      | _ => none
  | _ => none

/-- A document echoes the request's id and has one of the two outcomes. -/
def WellFormed (request : Value) (response : List (String × Json)) : Prop :=
  response.lookup "id" = (request.member "id").bind Json.ofValue ∧
    ((response.lookup "result").isSome ↔ (response.lookup "error").isNone)

/-- The error says what went wrong: no such method, or that it threw. -/
def Coded (scripts : Scripts) (registered : String → Prop) (request : Value)
    (response : List (String × Json)) : Prop :=
  ∀ requested key params, request.member "method" = some requested →
    scripts.conversions.propertyKey requested = some key → request.member "params" = some params →
    (¬ registered key → errorCode response = some (-32601)) ∧
    (registered key → ∀ thrown, invoke scripts (scripts.methods key) params = .error thrown →
      errorCode response = some (-32000))

/-- The request gets a response that JSON can spell, with what belongs in it. -/
def Dispatched (host : Host σ) (state : σ) (request : Value) : Prop :=
  ∃ response document final, handleRequest (host.scripts state) request = .ok response ∧
    exec (host.encode response) (host.after state request) = (.ok (some (.object document)), final) ∧
    WellFormed request document ∧
    Coded (host.scripts state) (Registered host) request document

/-- What becomes of the request fits in a response. The encoder makes a text of
the result; or the name and the message of what was thrown can be read, logged
and encoded. -/
def Fits (host : Host σ) (state : σ) (requested params method : Value) : Prop :=
  if method.truthy then
    match invokeAt host state method params with
    | (.ok result, after) =>
        ∃ document final,
          exec (host.spellBelow 1 "result" result) after = (.ok (some document), final)
    | (.error thrown, after) =>
        3 ≤ host.encodeLimit ∧ ∃ name message documents final,
          Described (host.scripts state) requested thrown name message ∧
          exec (spellMembers (host.spellBelow 3) [("name", name), ("message", message)]) after =
            (.ok documents, final)
  else (host.conversions.concatText requested).isSome ∧ requested.depth + 2 ≤ host.encodeLimit

/-- The request is no `null`, its method is a property name that is not merely
inherited, and its id and its outcome fit in a response. -/
def Dispatchable (host : Host σ) (state : σ) (request : Value) : Prop :=
  ∃ requested id params key, request.member "method" = some requested ∧
    request.member "id" = some id ∧ request.member "params" = some params ∧
    host.conversions.propertyKey requested = some key ∧ ¬ Inherited host key ∧
    id.depth + 1 ≤ host.encodeLimit ∧
    Fits host state requested params (property (methods host.files) key)

/-- Every property of the table is a function of the scripts. -/
theorem scriptFunction_of_lookup (files : List Rpc) (table : Members)
    (functions : ∀ key value, table.lookup key = some value → ∃ method, value = scriptFunction method)
    (key : String) (value : Value) (found : (files.foldl register table).lookup key = some value) :
    ∃ method, value = scriptFunction method := by
  induction files generalizing table with
  | nil => exact functions key value found
  | cons rpc rest ih =>
    refine ih (register table rpc) ?_ found
    intro other own stands
    rw [register] at stands
    split at stands
    · rw [lookup_assign] at stands
      split at stands
      · exact ⟨rpc.method, (Option.some.inj stands).symm⟩
      · exact functions other own stands
    · exact functions other own stands

/-- A registered method is a function of the scripts. -/
theorem registered_function (host : Host σ) (key : String) (registered : Registered host key) :
    ∃ method, property (methods host.files) key = scriptFunction method := by
  obtain ⟨value, found⟩ := Option.isSome_iff_exists.mp registered
  have initial : ∀ key value,
      ([("core.introspect", scriptFunction 0), ("core.multiCall", scriptFunction 1)] :
        Members).lookup key = some value → ∃ method, value = scriptFunction method := by
    intro key value stands
    have member := mem_of_lookup key value _ stands
    simp only [List.mem_cons, Prod.mk.injEq, List.not_mem_nil, or_false] at member
    rcases member with ⟨_, rfl⟩ | ⟨_, rfl⟩
    · exact ⟨0, rfl⟩
    · exact ⟨1, rfl⟩
  obtain ⟨method, rfl⟩ := scriptFunction_of_lookup host.files _ initial key value found
  exact ⟨method, by rw [property, found, Option.getD_some]⟩

/-- A name without a method reads as what every object has under it. -/
theorem property_of_not_registered (host : Host σ) (key : String)
    (unregistered : ¬ Registered host key) :
    property (methods host.files) key = (objectPrototype.lookup key).getD .undefined := by
  have missing : (methods host.files).lookup key = none :=
    Option.not_isSome_iff_eq_none.mp unregistered
  rw [property, missing, Option.getD_none]

/-- What an object inherits is its prototype or one of the engine's functions. -/
theorem inherited_cases (key : String) (value : Value)
    (found : objectPrototype.lookup key = some value) :
    value = .object [] ∨ ∃ identity < 7, value = .function identity := by
  have member := mem_of_lookup key value _ found
  simp only [objectPrototype, List.mem_cons, Prod.mk.injEq, List.not_mem_nil, or_false] at member
  rcases member with ⟨_, rfl⟩ | ⟨_, rfl⟩ | ⟨_, rfl⟩ | ⟨_, rfl⟩ | ⟨_, rfl⟩ | ⟨_, rfl⟩ | ⟨_, rfl⟩ |
    ⟨_, rfl⟩
  · exact .inl rfl
  all_goals exact .inr ⟨_, by decide, rfl⟩

/-- What is inherited is truthy. -/
theorem inherited_truthy (key : String) (value : Value)
    (found : objectPrototype.lookup key = some value) : value.truthy = true := by
  rcases inherited_cases key value found with rfl | ⟨identity, _, rfl⟩ <;> rfl

/-- A method is found exactly under the registered and the inherited names. -/
theorem property_truthy_iff (host : Host σ) (key : String) :
    (property (methods host.files) key).truthy = true ↔
      Registered host key ∨ Inherited host key := by
  by_cases registered : Registered host key
  · obtain ⟨method, function⟩ := registered_function host key registered
    rw [function]
    exact iff_of_true rfl (.inl registered)
  · rw [property_of_not_registered host key registered]
    cases found : objectPrototype.lookup key with
    | none => simp [Inherited, registered, found, Value.truthy]
    | some value =>
      have present := inherited_truthy key value found
      simp [Inherited, registered, found, present]

/-- The outcome does not depend on who watches the state. -/
theorem invokeAt_fst (host : Host σ) (state : σ) (method params : Value) :
    (invokeAt host state method params).1 = invoke (host.scripts state) method params := by
  cases method <;> cases params <;> rfl

/-- The document of a response: the id, if it has a text, the version, and the
outcome. -/
def answer (id : Value) (outcome : List (String × Json)) : List (String × Json) :=
  written "id" (Json.ofValue id) ++ ("jsonrpc", .string "2.0") :: outcome

/-- The document of an error. -/
def errorDocument (code : Int) (message : String) (data : Option Json) : String × Json :=
  ("error", .object (("code", .number code) :: ("message", .string message) :: written "data" data))

/-- The outcome has no member under the names in front of it. -/
theorem lookup_answer (id : Value) (outcome : List (String × Json)) (key : String)
    (fresh : outcome.lookup "id" = none) :
    (answer id outcome).lookup key =
      if key = "id" then Json.ofValue id
      else if key = "jsonrpc" then some (.string "2.0")
      else outcome.lookup key := by
  rw [answer, lookup_written_append "id" key _ _ (by simpa [lookup_cons_ite] using fresh),
    lookup_cons_ite]

/-- A response echoes the id of its request, so that only its outcome counts. -/
theorem wellFormed_answer_iff (request id : Value) (outcome : List (String × Json))
    (identified : request.member "id" = some id) (fresh : outcome.lookup "id" = none) :
    WellFormed request (answer id outcome) ↔
      ((outcome.lookup "result").isSome ↔ (outcome.lookup "error").isNone) := by
  simp [WellFormed, lookup_answer id outcome _ fresh, identified]

/-- A response with a result is well formed when the result has a text. -/
theorem wellFormed_result_iff (request id : Value) (own : Option Json)
    (identified : request.member "id" = some id) :
    WellFormed request (answer id (written "result" own)) ↔ own.isSome = true := by
  rw [wellFormed_answer_iff request id _ identified (by cases own <;> rfl)]
  cases own <;> simp [written, lookup_cons_ite]

/-- A response with an error is well formed. -/
theorem wellFormed_error (request id : Value) (code : Int) (message : String) (data : Option Json)
    (identified : request.member "id" = some id) :
    WellFormed request (answer id [errorDocument code message data]) := by
  rw [wellFormed_answer_iff request id _ identified (by simp [errorDocument, lookup_cons_ite])]
  simp [errorDocument, lookup_cons_ite]

/-- A result has no code. -/
@[simp] theorem errorCode_result (id : Value) (own : Option Json) :
    errorCode (answer id (written "result" own)) = none := by
  rw [errorCode, lookup_answer id _ _ (by cases own <;> rfl)]
  cases own <;> simp [written, lookup_cons_ite]

/-- An error has its code. -/
@[simp] theorem errorCode_error (id : Value) (code : Int) (message : String) (data : Option Json) :
    errorCode (answer id [errorDocument code message data]) = some (code : ℚ) := by
  rw [errorCode, lookup_answer id _ _ (by simp [errorDocument, lookup_cons_ite])]
  simp [errorDocument, lookup_cons_ite]

section Encoding

variable (host : Host σ) (state final : σ)

/-- A response is encoded when its id is within the limit and its outcome is
encoded in the state that was left. -/
theorem exec_encode_iff (id : Value) (outcome : Members) (document : List (String × Json))
    (plain : id.functionless = true) (silent : outcome.lookup "toJSON" = none) :
    exec (host.encode (.object (("id", id) :: ("jsonrpc", .string "2.0") :: outcome))) state =
        (.ok (some (.object document)), final) ↔
      id.depth + 1 ≤ host.encodeLimit ∧ ∃ others,
        exec (spellMembers (host.spellBelow 1) outcome) state = (.ok others, final) ∧
        document = answer id others := by
  have members : List.lookup "toJSON" (("id", id) :: ("jsonrpc", .string "2.0") :: outcome) =
      none := by simpa [lookup_cons_ite] using silent
  rw [Host.encode, Host.spellBelow, Nat.sub_zero,
    exec_spell_object_iff host.called _ _ _ _ _ _ members]
  simp only [exec_spellMembers_functionless_iff _ _ _ _ _ _ _ _ plain,
    exec_spellMembers_functionless_iff _ _ "jsonrpc" (.string "2.0") _ _ _ _ rfl]
  constructor
  · rintro ⟨room, _, ⟨shallow, _, ⟨_, others, spelled, rfl⟩, rfl⟩, same⟩
    exact ⟨by omega, others, spelled, by simpa [written, answer, Json.ofValue] using same⟩
  · rintro ⟨shallow, others, spelled, rfl⟩
    exact ⟨by omega, _, ⟨by omega, _, ⟨Nat.zero_le _, others, spelled, rfl⟩, rfl⟩, rfl⟩

/-- An error is encoded when its data is. -/
theorem exec_spellMembers_error_iff (code : Int) (message : String) (data : Value)
    (documents : List (String × Json)) :
    exec (spellMembers (host.spellBelow 1) [("error",
        .object [("code", .integer code), ("message", .string message), ("data", data)])]) state =
        (.ok documents, final) ↔
      2 ≤ host.encodeLimit ∧ ∃ own,
        exec (host.spellBelow 2 "data" data) state = (.ok own, final) ∧
        documents = [errorDocument code message own] := by
  simp only [Host.spellBelow, exec_spellMembers_singleton_iff,
    exec_spell_object_iff host.called _ _ _ _ _ _ (show List.lookup "toJSON"
      [("code", Value.integer code), ("message", .string message), ("data", data)] = none from rfl),
    exec_spellMembers_functionless_iff _ _ "code" (.integer code) _ _ _ _ rfl,
    exec_spellMembers_functionless_iff _ _ "message" (.string message) _ _ _ _ rfl]
  constructor
  · rintro ⟨_, ⟨room, _, ⟨_, _, ⟨_, _, ⟨own, spelled, rfl⟩, rfl⟩, rfl⟩, rfl⟩, rfl⟩
    exact ⟨by omega, own, by simpa [Nat.sub_sub] using spelled,
      by simp [written, errorDocument, Json.ofValue, Value.integer]⟩
  · rintro ⟨room, own, spelled, rfl⟩
    refine ⟨_, ⟨by omega, _, ⟨Nat.zero_le _, _, ⟨Nat.zero_le _, _,
      ⟨own, by simpa [Nat.sub_sub] using spelled, rfl⟩, rfl⟩, rfl⟩, rfl⟩, ?_⟩
    simp [written, errorDocument, Json.ofValue, Value.integer]

/-- A result is encoded in the state its method left. -/
theorem exec_encode_succeeded_iff (id result : Value) (document : List (String × Json))
    (plain : id.functionless = true) :
    exec (host.encode (.object (succeeded id result))) state =
        (.ok (some (.object document)), final) ↔
      id.depth + 1 ≤ host.encodeLimit ∧ ∃ own,
        exec (host.spellBelow 1 "result" result) state = (.ok own, final) ∧
        document = answer id (written "result" own) := by
  rw [succeeded, exec_encode_iff host state final id _ document plain rfl, Host.spellBelow]
  simp only [exec_spellMembers_singleton_iff]
  refine and_congr_right fun _ => ?_
  constructor
  · rintro ⟨_, ⟨own, spelled, rfl⟩, same⟩
    exact ⟨own, spelled, same⟩
  · rintro ⟨own, spelled, same⟩
    exact ⟨_, ⟨own, spelled, rfl⟩, same⟩

/-- What was thrown is encoded by its name and its message. -/
theorem exec_encode_failed_iff (id name message : Value) (document : List (String × Json))
    (plain : id.functionless = true) :
    exec (host.encode (.object (failed id name message))) state =
        (.ok (some (.object document)), final) ↔
      id.depth + 1 ≤ host.encodeLimit ∧ 3 ≤ host.encodeLimit ∧ ∃ documents,
        exec (spellMembers (host.spellBelow 3) [("name", name), ("message", message)]) state =
          (.ok documents, final) ∧
        document = answer id
          [errorDocument (-32000) "Internal server error" (some (.object documents))] := by
  rw [failed, exec_encode_iff host state final id _ document plain rfl]
  refine and_congr_right fun _ => ?_
  have skipped : ∀ (rest : Members) (others : List (String × Json)),
      exec (spellMembers (host.spellBelow 1) (("result", .undefined) :: rest)) state =
          (.ok others, final) ↔
        exec (spellMembers (host.spellBelow 1) rest) state = (.ok others, final) := by
    intro rest others
    rw [Host.spellBelow, exec_spellMembers_functionless_iff _ _ "result" .undefined _ _ _ _ rfl]
    constructor
    · rintro ⟨_, _, spelled, same⟩
      simpa [same, written, Json.ofValue] using spelled
    · intro spelled
      exact ⟨Nat.zero_le _, others, spelled, rfl⟩
  simp only [skipped, exec_spellMembers_error_iff]
  simp only [Host.spellBelow, exec_spell_object_iff host.called _ _ _ _ _ _
    (show List.lookup "toJSON" [("name", name), ("message", message)] = none from rfl)]
  constructor
  · rintro ⟨_, ⟨room, _, ⟨below, documents, spelled, rfl⟩, rfl⟩, same⟩
    exact ⟨by omega, documents, by simpa [Nat.sub_sub] using spelled, same⟩
  · rintro ⟨room, documents, spelled, same⟩
    exact ⟨_, ⟨by omega, _, ⟨by omega, documents, by simpa [Nat.sub_sub] using spelled, rfl⟩, rfl⟩,
      same⟩

/-- An unknown name is encoded as it was requested. -/
theorem exec_encode_unknown_iff (id requested : Value) (document : List (String × Json))
    (plain : id.functionless = true) (asked : requested.functionless = true) :
    exec (host.encode (.object (unknown id requested))) state =
        (.ok (some (.object document)), final) ↔
      id.depth + 1 ≤ host.encodeLimit ∧ requested.depth + 2 ≤ host.encodeLimit ∧ final = state ∧
        document = answer id
          [errorDocument (-32601) "Method not found" (Json.ofValue requested)] := by
  rw [unknown, exec_encode_iff host state final id _ document plain rfl]
  refine and_congr_right fun _ => ?_
  simp only [exec_spellMembers_error_iff]
  simp only [Host.spellBelow, exec_spell_functionless_iff _ _ _ _ _ _ _ asked]
  constructor
  · rintro ⟨_, ⟨room, _, ⟨shallow, rfl, rfl⟩, rfl⟩, same⟩
    exact ⟨by omega, rfl, same⟩
  · rintro ⟨shallow, rfl, same⟩
    exact ⟨_, ⟨by omega, _, ⟨by omega, rfl, rfl⟩, rfl⟩, same⟩

end Encoding

section Requests

variable (scripts : Scripts) (request requested params : Value) (key : String)

/-- The codes are those of the one method the request names. -/
theorem coded_iff (registered : String → Prop) (response : List (String × Json))
    (method : request.member "method" = some requested)
    (given : request.member "params" = some params)
    (named : scripts.conversions.propertyKey requested = some key) :
    Coded scripts registered request response ↔
      (¬ registered key → errorCode response = some (-32601)) ∧
      (registered key → ∀ thrown, invoke scripts (scripts.methods key) params = .error thrown →
        errorCode response = some (-32000)) := by
  constructor
  · intro coded
    exact coded requested key params method named given
  · intro codes other otherKey otherParams otherMethod otherNamed otherGiven
    obtain rfl := Option.some.inj (otherMethod.symm.trans method)
    obtain rfl := Option.some.inj (otherNamed.symm.trans named)
    obtain rfl := Option.some.inj (otherGiven.symm.trans given)
    exact codes

end Requests

/-- The parts of a request that a handler which returned has read. -/
theorem read_of_handled (scripts : Scripts) (request response : Value)
    (handled : handleRequest scripts request = .ok response) :
    ∃ requested id params key, request.member "method" = some requested ∧
      request.member "id" = some id ∧ request.member "params" = some params ∧
      scripts.conversions.propertyKey requested = some key := by
  simp only [handleRequest, read_bind_iff, converted_bind_iff] at handled
  obtain ⟨requested, method, key, named, id, identified, _⟩ := handled
  obtain ⟨params, given⟩ := Option.isSome_iff_exists.mp
    (member_isSome request "method" "params" (by simp [method]))
  exact ⟨requested, id, params, key, method, identified, given, named⟩

section Outcomes

variable (host : Host σ) (state : σ) (request requested id params : Value) (key : String)
  (method : request.member "method" = some requested)
  (identified : request.member "id" = some id) (given : request.member "params" = some params)
  (named : host.conversions.propertyKey requested = some key)

include method identified given named

omit identified in
/-- The response is encoded in the state the method left. -/
theorem after_eq : host.after state request =
    (invokeAt host state (property (methods host.files) key) params).2 := by
  simp [Host.after, method, given, named]

/-- A method that returned is answered with its result, if that has a text. -/
theorem dispatched_of_returned_iff (plain : id.functionless = true) (result : Value) (after : σ)
    (present : (property (methods host.files) key).truthy = true)
    (returned : invokeAt host state (property (methods host.files) key) params =
      (.ok result, after)) :
    Dispatched host state request ↔
      Registered host key ∧ id.depth + 1 ≤ host.encodeLimit ∧ ∃ document final,
        exec (host.spellBelow 1 "result" result) after = (.ok (some document), final) := by
  have invoked : invoke (host.scripts state) ((host.scripts state).methods key) params =
      .ok result := by rw [← invokeAt_fst]; exact congrArg Prod.fst returned
  have handled : ∀ response, handleRequest (host.scripts state) request = .ok response ↔
      response = .object (succeeded id result) := by
    intro response
    rw [handleRequest_eq_ok_iff (host.scripts state) request requested id params key response method
      identified given named, invoked]
    have found : ((host.scripts state).methods key).truthy = true := present
    simp [found]
  have reached : host.after state request = after := by
    rw [after_eq host state request requested params key method given named, returned]
  have codes := fun document => coded_iff (host.scripts state) request requested params key
    (Registered host) document method given named
  simp only [Dispatched, handled, reached, codes]
  constructor
  · rintro ⟨_, document, final, rfl, spelled, formed, unregistered, _⟩
    obtain ⟨identifiable, own, texted, rfl⟩ :=
      (exec_encode_succeeded_iff host after final id result document plain).mp spelled
    refine ⟨?_, identifiable, ?_⟩
    · by_contra absent
      simpa using unregistered absent
    · obtain ⟨document, rfl⟩ := Option.isSome_iff_exists.mp
        ((wellFormed_result_iff request id own identified).mp formed)
      exact ⟨document, final, texted⟩
  · rintro ⟨registered, identifiable, document, final, texted⟩
    refine ⟨_, _, final, rfl, (exec_encode_succeeded_iff host after final id result _ plain).mpr
      ⟨identifiable, _, texted, rfl⟩, (wellFormed_result_iff request id _ identified).mpr rfl, ?_, ?_⟩
    · exact fun absent => absurd registered absent
    · intro _ thrown threw
      rw [invoked] at threw
      cases threw

/-- A method that threw is answered with an error, if what it threw can be
described. -/
theorem dispatched_of_thrown_iff (plain : id.functionless = true) (thrown : Value) (after : σ)
    (present : (property (methods host.files) key).truthy = true)
    (threw : invokeAt host state (property (methods host.files) key) params =
      (.error thrown, after)) :
    Dispatched host state request ↔
      Registered host key ∧ id.depth + 1 ≤ host.encodeLimit ∧ 3 ≤ host.encodeLimit ∧
      ∃ name message documents final,
        Described (host.scripts state) requested thrown name message ∧
        exec (spellMembers (host.spellBelow 3) [("name", name), ("message", message)]) after =
          (.ok documents, final) := by
  have invoked : invoke (host.scripts state) ((host.scripts state).methods key) params =
      .error thrown := by rw [← invokeAt_fst]; exact congrArg Prod.fst threw
  have handled : ∀ response, handleRequest (host.scripts state) request = .ok response ↔
      ∃ name message, Described (host.scripts state) requested thrown name message ∧
        response = .object (failed id name message) := by
    intro response
    rw [handleRequest_eq_ok_iff (host.scripts state) request requested id params key response method
      identified given named, invoked]
    have found : ((host.scripts state).methods key).truthy = true := present
    simp [found]
  have reached : host.after state request = after := by
    rw [after_eq host state request requested params key method given named, threw]
  have codes := fun document => coded_iff (host.scripts state) request requested params key
    (Registered host) document method given named
  simp only [Dispatched, handled, reached, codes]
  constructor
  · rintro ⟨_, document, final, ⟨name, message, described, rfl⟩, spelled, _, unregistered, _⟩
    obtain ⟨identifiable, room, documents, texted, rfl⟩ :=
      (exec_encode_failed_iff host after final id name message document plain).mp spelled
    refine ⟨?_, identifiable, room, name, message, documents, final, described, texted⟩
    by_contra absent
    have code := unregistered absent
    rw [errorCode_error] at code
    exact absurd code (by decide)
  · rintro ⟨registered, identifiable, room, name, message, documents, final, described, texted⟩
    refine ⟨_, _, final, ⟨name, message, described, rfl⟩,
      (exec_encode_failed_iff host after final id name message _ plain).mpr
        ⟨identifiable, room, documents, texted, rfl⟩,
      wellFormed_error request id _ _ _ identified, ?_, ?_⟩
    · exact fun absent => absurd registered absent
    · intro _ _ _
      simp

/-- A name under which nothing is found is answered with the error for it. -/
theorem dispatched_of_absent_iff (plain : id.functionless = true)
    (asked : requested.functionless = true)
    (absent : (property (methods host.files) key).truthy = false) :
    Dispatched host state request ↔
      id.depth + 1 ≤ host.encodeLimit ∧ (host.conversions.concatText requested).isSome ∧
        requested.depth + 2 ≤ host.encodeLimit := by
  have missing : ((host.scripts state).methods key).truthy = false := absent
  have handled : ∀ response, handleRequest (host.scripts state) request = .ok response ↔
      (host.conversions.concatText requested).isSome ∧
        response = .object (unknown id requested) := by
    intro response
    rw [handleRequest_eq_ok_iff (host.scripts state) request requested id params key response method
      identified given named]
    simp only [missing, Bool.false_eq_true, false_and, false_or, true_and]
    rfl
  have unregistered : ¬ Registered host key := fun registered =>
    Bool.noConfusion (((property_truthy_iff host key).mpr (.inl registered)).symm.trans absent)
  have codes := fun document => coded_iff (host.scripts state) request requested params key
    (Registered host) document method given named
  simp only [Dispatched, handled, codes]
  constructor
  · rintro ⟨_, document, final, ⟨logged, rfl⟩, spelled, _⟩
    obtain ⟨identifiable, shallow, _⟩ :=
      (exec_encode_unknown_iff host _ final id requested document plain asked).mp spelled
    exact ⟨identifiable, logged, shallow⟩
  · rintro ⟨identifiable, logged, shallow⟩
    refine ⟨_, _, _, ⟨logged, rfl⟩,
      (exec_encode_unknown_iff host _ _ id requested _ plain asked).mpr
        ⟨identifiable, shallow, rfl, rfl⟩,
      wellFormed_error request id _ _ _ identified, ?_, ?_⟩
    · intro _
      simp
    · exact fun registered => absurd registered unregistered

/-- A request that can be read is answered as it should be when it asks for no
inherited name and its outcome fits in the response. -/
theorem dispatched_iff_fits (plain : id.functionless = true)
    (asked : requested.functionless = true) :
    Dispatched host state request ↔
      ¬ Inherited host key ∧ id.depth + 1 ≤ host.encodeLimit ∧
        Fits host state requested params (property (methods host.files) key) := by
  by_cases present : (property (methods host.files) key).truthy = true
  · have own : ¬ Inherited host key ↔ Registered host key :=
      ⟨fun none => ((property_truthy_iff host key).mp present).resolve_right none,
        fun registered inherited => inherited.1 registered⟩
    rw [own, Fits, if_pos present]
    rcases outcome : invokeAt host state (property (methods host.files) key) params with
      ⟨thrown | result, after⟩
    · exact dispatched_of_thrown_iff host state request requested id params key method identified
        given named plain thrown after present outcome
    · exact dispatched_of_returned_iff host state request requested id params key method identified
        given named plain result after present outcome
  · have absent := Bool.eq_false_iff.mpr present
    have own : ¬ Inherited host key := fun inherited =>
      present ((property_truthy_iff host key).mpr (.inr inherited))
    rw [Fits, if_neg present, and_iff_right own]
    exact dispatched_of_absent_iff host state request requested id params key method identified
      given named plain asked absent

end Outcomes

/-- A host without exported methods, whose functions all return a text. -/
def plainHost : Host Unit where
  files := []
  builtin _ _ _ := .ok (.string "[object Undefined]")
  call state _ _ _ := (.ok .null, state)
  conversions := plainConversions
  text _ := ""
  decode _ := none
  encodeLimit := 1000

end Hadouken.Dispatch
