import Hadouken.Library.Json
import Hadouken.Library.ValueStack

/-!
# JSON-RPC requests

`script_host::rpc` decodes the request body, has `handleRequest` of rpc.js
answer it under a protected call, and encodes the answer. Decoding and encoding
stand outside the protected call, and an error raised there is fatal.

The registered methods are a parameter: what looking one up yields, with
everything a plain object inherits, and what calling one does. So are the JSON
decoder and the encoder's limit on nesting. What the methods change is outside
this module, and so is the text of the log.
-/

namespace Hadouken.RemoteCalls

open Script Program ValueStack

/-- What is seen of the scripts: methods, calls, texts, and the limit of the encoder. -/
structure Scripts where
  methods : String → Value
  call : Nat → Value → List Value → Except Value Value
  conversions : Conversions
  text : Value → String
  decode : List UInt8 → Option Value
  encodeLimit : Nat

/-- Read a property, throwing as the language does. -/
def read (value : Value) (key : String) : Except Value Value :=
  match value.member key with
  | some found => .ok found
  | none => .error (.error (typeError ("cannot read property '" ++ key ++ "'")))

/-- A conversion that throws a `TypeError` where it has no result. -/
def converted (text : Option String) : Except Value String :=
  match text with
  | some text => .ok text
  | none => .error (.error (typeError "coercion to primitive failed"))

/-- `invoke`: an array of parameters is spread over the method's arguments. -/
def invoke (scripts : Scripts) (method params : Value) : Except Value Value :=
  match method, params with
  | .function identity, .array items _ => scripts.call identity method items
  | .function identity, _ => scripts.call identity .undefined [params]
  | _, _ => .error (.error (typeError "not callable"))

/-- `handleRequest` of rpc.js. -/
def handleRequest (scripts : Scripts) (request : Value) : Except Value Value := do
  let requested ← read request "method"
  let method := scripts.methods (← converted (scripts.conversions.propertyKey requested))
  let response : Members := [("id", ← read request "id"), ("jsonrpc", .string "2.0")]
  if method.truthy then
    match (do invoke scripts method (← read request "params")) with
    | .ok result => return .object (assign "result" result response)
    | .error thrown =>
        let name ← read thrown "name"
        let message ← read thrown "message"
        -- the operands of the log line are converted after the answer is filled in
        let _ ← converted (scripts.conversions.concatText requested)
        let _ ← converted (scripts.conversions.concatText thrown)
        return .object (assign "error"
          (.object [("code", .integer (-32000)), ("message", .string "Internal server error"),
            ("data", .object [("name", name), ("message", message)])])
          (assign "result" .undefined response))
  else
    let _ ← converted (scripts.conversions.concatText requested)
    return .object (assign "error"
      (.object [("code", .integer (-32601)), ("message", .string "Method not found"),
        ("data", requested)])
      response)

/-- The engine with the core scripts loaded: `hdkn.rpc` is `handleRequest`. -/
def Scripts.engine (scripts : Scripts) : Engine where
  stash := [("hdkn", .object [("rpc", .function 0)])]
  call
    | 0, _, arguments => handleRequest scripts (arguments.headD .undefined)
    | identity + 1, this, arguments => scripts.call identity this arguments
  text := scripts.text

/-- The bytes of the body up to its first NUL, which ends a C string. -/
def cBytes (body : List UInt8) : List UInt8 := body.takeWhile fun byte => byte ≠ 0

/-- `duk_push_string` of the body and `duk_json_decode` of what was pushed. -/
def pushDecoded (scripts : Scripts) (body : List UInt8) : Native Unit :=
  match scripts.decode (cBytes body) with
  | some value => push value
  | none => throw (.error ⟨"SyntaxError", "invalid json"⟩)

/-- `duk_json_encode` of the top value. The text takes the value's place on the
stack, from which it is dropped next. -/
def jsonEncode (scripts : Scripts) : Native (Option Json) := do
  match Json.encode scripts.encodeLimit (← top) with
  | some document => return document
  | none => throw (.error ⟨"RangeError", "json encode recursion limit"⟩)

/-- The value has the engine's object type, functions included. -/
def isObject : Value → Bool
  | .array _ _ | .object _ | .function _ | .error _ => true
  | _ => false

/-- `script_host::rpc`. The returned string is given by the document it spells;
there is none for the empty string. -/
def rpc (scripts : Scripts) (request : List UInt8) : Native (Option Json) := do
  let mut result : Option Json := none
  pushGlobalStash scripts.engine
  if ← getPropString "hdkn" then
    if ← getPropString "rpc" then
      if !(← isCallable) then
        return none
      dup
      -- the engine's error is no C++ exception: the handler here never sees it
      pushDecoded scripts request
      if !(← pcallMethod scripts.engine 1) then
        let _ ← safeToString scripts.engine
      if isObject (← top) then
        result ← jsonEncode scripts
      pop
    pop
  pop
  return result

/-- The returned string is a JSON-RPC response. -/
def IsResponse (document : Json) : Prop :=
  ∃ members, document = .object members ∧ (members.lookup "jsonrpc").isSome ∧
    ((members.lookup "result").isSome ∨ (members.lookup "error").isSome)

/-- The call returns to its caller, with a response. -/
def Answers (scripts : Scripts) (request : List UInt8) (stack : List Value) : Prop :=
  ∃ document, (exec (rpc scripts request) stack).1 = .ok (some document) ∧ IsResponse document

/-- The response to a call that returned. -/
def succeeded (id result : Value) : Members :=
  [("id", id), ("jsonrpc", .string "2.0"), ("result", result)]

/-- The response to a call that threw something with this name and message. -/
def failed (id name message : Value) : Members :=
  [("id", id), ("jsonrpc", .string "2.0"), ("result", .undefined),
    ("error", .object [("code", .integer (-32000)), ("message", .string "Internal server error"),
      ("data", .object [("name", name), ("message", message)])])]

/-- The response where no method is found under the requested name. -/
def unknown (id requested : Value) : Members :=
  [("id", id), ("jsonrpc", .string "2.0"),
    ("error", .object [("code", .integer (-32601)), ("message", .string "Method not found"),
      ("data", requested)])]

/-- What returns is followed by what is next. -/
theorem ok_bind {α β : Type} (value : α) (next : α → Except Value β) :
    (Except.ok value >>= next) = next value := rfl

/-- A read goes on with the property it found. -/
theorem read_bind_iff {α : Type} (value : Value) (key : String) (next : Value → Except Value α)
    (result : α) :
    (read value key >>= next) = .ok result ↔
      ∃ found, value.member key = some found ∧ next found = .ok result := by
  cases found : value.member key <;> simp [read, found, bind, Except.bind]

/-- A conversion goes on with the text it came to. -/
theorem converted_bind_iff {α : Type} (text : Option String) (next : String → Except Value α)
    (result : α) :
    (converted text >>= next) = .ok result ↔
      ∃ found, text = some found ∧ next found = .ok result := by
  cases text <;> simp [converted, bind, Except.bind]

/-- A request whose properties can be read and whose method is a property name
gets one of the three responses, unless writing the log throws. -/
theorem handleRequest_eq (scripts : Scripts) (request requested id params : Value) (key : String)
    (method : request.member "method" = some requested) (identified : request.member "id" = some id)
    (given : request.member "params" = some params)
    (named : scripts.conversions.propertyKey requested = some key) :
    handleRequest scripts request =
      if (scripts.methods key).truthy then
        match invoke scripts (scripts.methods key) params with
        | .ok result => .ok (.object (succeeded id result))
        | .error thrown => do
            let name ← read thrown "name"
            let message ← read thrown "message"
            let _ ← converted (scripts.conversions.concatText requested)
            let _ ← converted (scripts.conversions.concatText thrown)
            return .object (failed id name message)
      else do
        let _ ← converted (scripts.conversions.concatText requested)
        return .object (unknown id requested) := by
  have methodRead : read request "method" = .ok requested := by simp [read, method]
  have idRead : read request "id" = .ok id := by simp [read, identified]
  have paramsRead : read request "params" = .ok params := by simp [read, given]
  have keyed : converted (scripts.conversions.propertyKey requested) = .ok key := by
    simp [converted, named]
  have withResult : ∀ result, assign "result" result [("id", id), ("jsonrpc", .string "2.0")] =
      succeeded id result := by simp [assign, succeeded]
  have withError : ∀ (result error : Value), assign "error" error (succeeded id result) =
      succeeded id result ++ [("error", error)] := by simp [assign, succeeded]
  have onlyError : ∀ error : Value, assign "error" error [("id", id), ("jsonrpc", .string "2.0")] =
      [("id", id), ("jsonrpc", .string "2.0"), ("error", error)] := by simp [assign]
  simp only [handleRequest, methodRead, idRead, paramsRead, keyed, ok_bind, withResult, withError,
    onlyError]
  rfl

/-- What was thrown can be put into a response and a line of the log. -/
def Described (scripts : Scripts) (requested thrown name message : Value) : Prop :=
  thrown.member "name" = some name ∧ thrown.member "message" = some message ∧
    (scripts.conversions.concatText requested).isSome ∧
    (scripts.conversions.concatText thrown).isSome

/-- The three ways the handler returns. -/
theorem handleRequest_eq_ok_iff (scripts : Scripts) (request requested id params : Value)
    (key : String) (response : Value) (method : request.member "method" = some requested)
    (identified : request.member "id" = some id) (given : request.member "params" = some params)
    (named : scripts.conversions.propertyKey requested = some key) :
    handleRequest scripts request = .ok response ↔
      ((scripts.methods key).truthy = true ∧
        ((∃ result, invoke scripts (scripts.methods key) params = .ok result ∧
            response = .object (succeeded id result)) ∨
          ∃ thrown name message, invoke scripts (scripts.methods key) params = .error thrown ∧
            Described scripts requested thrown name message ∧
            response = .object (failed id name message))) ∨
      ((scripts.methods key).truthy = false ∧ (scripts.conversions.concatText requested).isSome ∧
        response = .object (unknown id requested)) := by
  rw [handleRequest_eq scripts request requested id params key method identified given named]
  by_cases found : (scripts.methods key).truthy = true
  · cases outcome : invoke scripts (scripts.methods key) params with
    | ok result => simp [found, @eq_comm _ response]
    | error thrown =>
      simp only [found, if_true, read_bind_iff, converted_bind_iff, pure, Except.pure,
        Except.ok.injEq, Described, Option.isSome_iff_exists]
      constructor
      · rintro ⟨name, own, message, worded, text, logged, shownText, shown, rfl⟩
        exact .inl ⟨trivial, .inr ⟨thrown, name, message, rfl,
          ⟨own, worded, ⟨text, logged⟩, ⟨shownText, shown⟩⟩, rfl⟩⟩
      · rintro (⟨_, ⟨result, returned, _⟩ | ⟨_, name, message, same, described, rfl⟩⟩ | ⟨absent, _⟩)
        · cases returned
        · obtain rfl := Except.error.inj same
          obtain ⟨own, worded, ⟨text, logged⟩, shownText, shown⟩ := described
          exact ⟨name, own, message, worded, text, logged, shownText, shown, rfl⟩
        · cases absent
  · have absent : (scripts.methods key).truthy = false := Bool.eq_false_iff.mpr found
    rw [if_neg found, converted_bind_iff]
    constructor
    · rintro ⟨text, logged, returned⟩
      obtain rfl := Except.ok.inj returned
      exact .inr ⟨absent, Option.isSome_iff_exists.mpr ⟨text, logged⟩, rfl⟩
    · rintro (⟨present, _⟩ | ⟨_, logged, rfl⟩)
      · exact absurd present found
      · obtain ⟨text, logged⟩ := Option.isSome_iff_exists.mp logged
        exact ⟨text, logged, rfl⟩

/-- Only `undefined` and `null` have no properties, and neither has any. -/
theorem member_isSome (value : Value) (key other : String) (readable : (value.member key).isSome) :
    (value.member other).isSome := by
  cases value <;> simp [Value.member] at readable ⊢ <;> (repeat' split) <;> simp

/-- The depth of a response, from the depths of its parts. -/
theorem depth_succeeded_le_iff (id result : Value) (limit : Nat) :
    Value.depth (.object (succeeded id result)) ≤ limit ↔
      id.depth + 1 ≤ limit ∧ result.depth + 1 ≤ limit := by
  simp only [succeeded, Value.depth, Value.depthMembers]
  omega

/-- The depth of a response with an error. -/
theorem depth_failed_le_iff (id name message : Value) (limit : Nat) :
    Value.depth (.object (failed id name message)) ≤ limit ↔
      id.depth + 1 ≤ limit ∧ max name.depth message.depth + 3 ≤ limit := by
  simp only [failed, Value.integer, Value.depth, Value.depthMembers]
  omega

/-- The depth of a response about an unknown method. -/
theorem depth_unknown_le_iff (id requested : Value) (limit : Nat) :
    Value.depth (.object (unknown id requested)) ≤ limit ↔
      id.depth + 1 ≤ limit ∧ requested.depth + 2 ≤ limit := by
  simp only [unknown, Value.integer, Value.depth, Value.depthMembers]
  omega

/-- The document of an object is a response when the two members it takes have
documents themselves. -/
theorem isResponse_object_iff (members : Members) :
    IsResponse (.object (Json.ofMembers members)) ↔
      ((Json.ofMembers members).lookup "jsonrpc").isSome ∧
        (((Json.ofMembers members).lookup "result").isSome ∨
          ((Json.ofMembers members).lookup "error").isSome) := by
  simp [IsResponse]

/-- A response with a result has one where the result has a document. -/
theorem isResponse_succeeded_iff (id result : Value) :
    IsResponse (.object (Json.ofMembers (succeeded id result))) ↔ result.encodable = true := by
  rw [isResponse_object_iff]
  simp only [succeeded, Json.ofMembers_cons_isSome]
  simp [Json.ofMembers, Value.encodable]

/-- A response with an error has it. -/
theorem isResponse_failed (id name message : Value) :
    IsResponse (.object (Json.ofMembers (failed id name message))) := by
  rw [isResponse_object_iff]
  simp only [failed, Json.ofMembers_cons_isSome]
  simp [Value.encodable]

/-- A response about an unknown method has its error. -/
theorem isResponse_unknown (id requested : Value) :
    IsResponse (.object (Json.ofMembers (unknown id requested))) := by
  rw [isResponse_object_iff]
  simp only [unknown, Json.ofMembers_cons_isSome]
  simp [Value.encodable]

/-- The host's side of the call: a body that does not decode is fatal, a
handler that throws leaves the empty string, and an object is encoded. -/
theorem exec_rpc (scripts : Scripts) (body : List UInt8) (stack : List Value) :
    (exec (rpc scripts body) stack).1 =
      match scripts.decode (cBytes body) with
      | none => .error (.error ⟨"SyntaxError", "invalid json"⟩)
      | some request =>
          match handleRequest scripts request with
          | .error _ => .ok none
          | .ok response =>
              if isObject response then
                match Json.encode scripts.encodeLimit response with
                | some document => .ok document
                | none => .error (.error ⟨"RangeError", "json encode recursion limit"⟩)
              else .ok none := by
  have handler : ∀ request, scripts.engine.call 0 (.function 0) [request] =
      handleRequest scripts request := fun _ => rfl
  have registered : scripts.engine.stash = [("hdkn", .object [("rpc", .function 0)])] := rfl
  have noObject : ∀ text, isObject (.string text) = false := fun _ => rfl
  cases decoded : scripts.decode (cBytes body) with
  | none => simp [rpc, registered, pushDecoded, decoded]
  | some request =>
    have pushed : pushDecoded scripts body = push request := by simp [pushDecoded, decoded]
    cases answered : handleRequest scripts request with
    | error thrown => simp [rpc, registered, pushed, handler, answered, noObject]
    | ok response =>
      by_cases object : isObject response = true
      · cases encoded : Json.encode scripts.encodeLimit response <;>
          simp [rpc, registered, pushed, handler, answered, object, jsonEncode, encoded]
      · simp [rpc, registered, pushed, handler, answered, object]

/-- A call answers when the body decodes, the handler returns, and what it
returns is an object within the encoder's limit that spells a response. -/
theorem answers_iff (scripts : Scripts) (body : List UInt8) (stack : List Value) :
    Answers scripts body stack ↔
      ∃ request response document, scripts.decode (cBytes body) = some request ∧
        handleRequest scripts request = .ok response ∧ isObject response = true ∧
        response.depth ≤ scripts.encodeLimit ∧ Json.ofValue response = some document ∧
        IsResponse document := by
  rw [Answers, exec_rpc]
  cases decoded : scripts.decode (cBytes body) with
  | none => simp
  | some request =>
    cases answered : handleRequest scripts request with
    | error thrown => simp [answered]
    | ok response =>
      by_cases object : isObject response = true
      · by_cases shallow : response.depth ≤ scripts.encodeLimit
        · simp [answered, object, Json.encode, shallow]
        · simp [answered, object, Json.encode, shallow]
      · simp [answered, object]

/-- What becomes of the request fits in a response: a result that has a JSON
text, or an error whose parts can be read, logged and encoded. -/
def Reportable (scripts : Scripts) (requested params method : Value) : Prop :=
  if method.truthy then
    match invoke scripts method params with
    | .ok result => result.encodable = true ∧ result.depth + 1 ≤ scripts.encodeLimit
    | .error thrown =>
        ∃ name message, thrown.member "name" = some name ∧
          thrown.member "message" = some message ∧
          (scripts.conversions.concatText requested).isSome ∧
          (scripts.conversions.concatText thrown).isSome ∧
          max name.depth message.depth + 3 ≤ scripts.encodeLimit
  else (scripts.conversions.concatText requested).isSome ∧
    requested.depth + 2 ≤ scripts.encodeLimit

/-- The requests that get a response: JSON other than `null`, whose method is a
property name, with an `id` and an outcome that fit in the response. -/
def WellServed (scripts : Scripts) (body : List UInt8) : Prop :=
  ∃ request requested id params key, scripts.decode (cBytes body) = some request ∧
    request.member "method" = some requested ∧ request.member "id" = some id ∧
    request.member "params" = some params ∧
    scripts.conversions.propertyKey requested = some key ∧
    id.depth + 1 ≤ scripts.encodeLimit ∧
    Reportable scripts requested params (scripts.methods key)

/-- The value is encoded, and as a response. -/
def Encodes (scripts : Scripts) (response : Value) (document : Json) : Prop :=
  isObject response = true ∧ response.depth ≤ scripts.encodeLimit ∧
    Json.ofValue response = some document ∧ IsResponse document

/-- A response is encoded where it nests within the limit. -/
theorem encodes_object_iff (scripts : Scripts) (members : Members) :
    (∃ document, Encodes scripts (.object members) document) ↔
      (Value.object members).depth ≤ scripts.encodeLimit ∧
        IsResponse (.object (Json.ofMembers members)) := by
  simp [Encodes, isObject, Json.ofValue]

section Handling

variable {scripts : Scripts} {request requested id params : Value} {key : String}
  (method : request.member "method" = some requested) (identified : request.member "id" = some id)
  (given : request.member "params" = some params)
  (named : scripts.conversions.propertyKey requested = some key)

include method identified given named

/-- A response that is encoded fits, its parts with it. -/
theorem reportable_of_encodes (response : Value) (document : Json)
    (handled : handleRequest scripts request = .ok response)
    (encodes : Encodes scripts response document) :
    id.depth + 1 ≤ scripts.encodeLimit ∧
      Reportable scripts requested params (scripts.methods key) := by
  rcases (handleRequest_eq_ok_iff scripts request requested id params key response method identified
    given named).mp handled with
    ⟨found, ⟨result, outcome, rfl⟩ | ⟨thrown, name, message, outcome, described, rfl⟩⟩ |
      ⟨absent, logged, rfl⟩
  · obtain ⟨shallow, spelled⟩ := (encodes_object_iff scripts _).mp ⟨document, encodes⟩
    obtain ⟨identifiable, nested⟩ := (depth_succeeded_le_iff id result _).mp shallow
    rw [Reportable, if_pos found, outcome]
    exact ⟨identifiable, (isResponse_succeeded_iff id result).mp spelled, nested⟩
  · obtain ⟨shallow, _⟩ := (encodes_object_iff scripts _).mp ⟨document, encodes⟩
    obtain ⟨identifiable, nested⟩ := (depth_failed_le_iff id name message _).mp shallow
    obtain ⟨own, worded, logged, shown⟩ := described
    rw [Reportable, if_pos found, outcome]
    exact ⟨identifiable, name, message, own, worded, logged, shown, nested⟩
  · obtain ⟨shallow, _⟩ := (encodes_object_iff scripts _).mp ⟨document, encodes⟩
    obtain ⟨identifiable, nested⟩ := (depth_unknown_le_iff id requested _).mp shallow
    rw [Reportable, if_neg (by simp [absent])]
    exact ⟨identifiable, logged, nested⟩

/-- The handler makes an encoded response of an outcome that fits. -/
theorem encodes_of_reportable (identifiable : id.depth + 1 ≤ scripts.encodeLimit)
    (reportable : Reportable scripts requested params (scripts.methods key)) :
    ∃ response document, handleRequest scripts request = .ok response ∧
      Encodes scripts response document := by
  have returns := fun response => handleRequest_eq_ok_iff scripts request requested id params key
    response method identified given named
  unfold Reportable at reportable
  split at reportable
  · rename_i found
    split at reportable
    · rename_i result outcome
      obtain ⟨encodable, nested⟩ := reportable
      obtain ⟨document, encodes⟩ := (encodes_object_iff scripts (succeeded id result)).mpr
        ⟨(depth_succeeded_le_iff id result _).mpr ⟨identifiable, nested⟩,
          (isResponse_succeeded_iff id result).mpr encodable⟩
      exact ⟨_, document, (returns _).mpr (.inl ⟨found, .inl ⟨result, outcome, rfl⟩⟩), encodes⟩
    · rename_i thrown outcome
      obtain ⟨name, message, own, worded, logged, shown, nested⟩ := reportable
      obtain ⟨document, encodes⟩ := (encodes_object_iff scripts (failed id name message)).mpr
        ⟨(depth_failed_le_iff id name message _).mpr ⟨identifiable, nested⟩,
          isResponse_failed id name message⟩
      exact ⟨_, document, (returns _).mpr (.inl ⟨found, .inr ⟨thrown, name, message, outcome,
        ⟨own, worded, logged, shown⟩, rfl⟩⟩), encodes⟩
  · rename_i absent
    obtain ⟨logged, nested⟩ := reportable
    obtain ⟨document, encodes⟩ := (encodes_object_iff scripts (unknown id requested)).mpr
      ⟨(depth_unknown_le_iff id requested _).mpr ⟨identifiable, nested⟩,
        isResponse_unknown id requested⟩
    exact ⟨_, document, (returns _).mpr (.inr ⟨Bool.eq_false_iff.mpr absent, logged, rfl⟩), encodes⟩

end Handling

/-- A request is answered with a response exactly when it is well served. A
body that does not decode and a response nested too deeply are fatal; a handler
that throws, or a result without a JSON text, leaves no response. -/
theorem answers_iff_wellServed (scripts : Scripts) (body : List UInt8) (stack : List Value) :
    Answers scripts body stack ↔ WellServed scripts body := by
  rw [answers_iff]
  constructor
  · rintro ⟨request, response, document, decoded, handled, rest⟩
    obtain ⟨requested, method, key, named, id, identified⟩ : ∃ requested,
        request.member "method" = some requested ∧
        ∃ key, scripts.conversions.propertyKey requested = some key ∧
        ∃ id, request.member "id" = some id := by
      simp only [handleRequest, read_bind_iff, converted_bind_iff] at handled
      obtain ⟨requested, method, key, named, id, identified, _⟩ := handled
      exact ⟨requested, method, key, named, id, identified⟩
    obtain ⟨params, given⟩ := Option.isSome_iff_exists.mp
      (member_isSome request "method" "params" (by simp [method]))
    have served := reportable_of_encodes method identified given named response document handled rest
    exact ⟨request, requested, id, params, key, decoded, method, identified, given, named, served⟩
  · rintro ⟨request, requested, id, params, key, decoded, method, identified, given, named,
      identifiable, reportable⟩
    obtain ⟨response, document, handled⟩ := encodes_of_reportable method identified given named
      identifiable reportable
    exact ⟨request, response, document, decoded, handled⟩

/-- The core scripts with one registered method, `core.introspect`, which
returns the method names. The decoder knows the text `null` alone. -/
def introspecting : Scripts where
  methods key := if key = "core.introspect" then .function 0 else .undefined
  call _ _ _ := .ok (.array [.string "core.introspect"] [])
  conversions := plainConversions
  text _ := ""
  decode bytes := if bytes = [110, 117, 108, 108] then some .null else none
  encodeLimit := 1000

/-- A body that is no JSON does not come back to the caller: `x` is fatal. -/
theorem invalid_json_not_answered : ¬ Answers introspecting [120] [] := by
  have undecoded : introspecting.decode (cBytes [120]) = none := by decide
  rintro ⟨document, returned, _⟩
  rw [exec_rpc, undecoded] at returned
  simp at returned

end Hadouken.RemoteCalls
