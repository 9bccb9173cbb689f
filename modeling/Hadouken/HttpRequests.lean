import Hadouken.HeaderNames
import Hadouken.Library.Workers

/-!
# Requests of many clients

The HTTP library calls the server for each request and delivers what comes on
its connection, in any order between the connections. A request that is let
through to the API gets a `connection_handler` of its own; the body it collects
is passed to the scripts, whose answer goes back on the same connection.

The scripts are any state machine: a body changes them, and what they register
as the authenticator may change with that. Each entry holds the engine's lock,
so that calls are made one after the other. Other answers are those of the
server and the web interface, which do not enter the engine.
-/

namespace Hadouken.HttpRequests

open Script Program ValueStack Authentication HeaderNames Workers

variable {ε : Type}

/-- `connection_handler` while it reads. -/
structure ConnectionHandler where
  body : List UInt8
  remaining : Nat

/-- `connection_handler::operator()`, up to its first read. -/
def ConnectionHandler.start (headers : List RequestBody.Header) : Option ConnectionHandler :=
  (headers.find? fun h => h.name = "Content-Length").bind fun header =>
    (RequestBody.lexicalCast header.value).map fun contentLength =>
      ⟨[], (contentLength % 2 ^ 64).toNat⟩

/-- `connection_handler::read_complete`, for one answer to a read. -/
def ConnectionHandler.readComplete (handler : ConnectionHandler) :
    RequestBody.Delivery → Progress ConnectionHandler (List UInt8)
  | .error => .stops
  | .chunk bytes =>
      let body := handler.body ++ bytes
      let left := RequestBody.subtract handler.remaining bytes.length
      if 0 < left then .goesOn ⟨body, left⟩ else .calls body

/-- What a connection is answered with. -/
structure Response where
  headers : List Header
  content : List UInt8

section Server

variable (scripts : ε → Scripts) (rpcCallback : ε → List UInt8 → List UInt8 × ε)
  (version : String) (root : List Char) (stack : List Value)

/-- `api_request_handler::handle_incoming_data`. -/
def handleIncomingData (engine : ε) (data : List UInt8) : Response × ε :=
  let (response, next) := rpcCallback engine data
  (⟨[⟨"Content-Length", toString response.length⟩, ⟨"Content-Type", "application/json"⟩], response⟩,
    next)

/-- A request with what the local of `is_authenticated` happens to hold. -/
structure Incoming where
  request : Authentication.Request
  uninitialised : Bool

/-- `http_server::operator()`, as far as it starts to read a body. -/
def startReading (engine : ε) (incoming : Incoming) : Option ConnectionHandler :=
  match (exec (operator (scripts engine) incoming.uninitialised version incoming.request)
      stack).1 with
  | .ok (.processed request) =>
      match Routing.processRequest root request.destination.toList with
      | .execute .api _ => ConnectionHandler.start (bodyHeaders request.headers)
      | _ => none
  | _ => none

/-- The server, with a handler for each connection. -/
def server : Service ε Incoming ConnectionHandler RequestBody.Delivery (List UInt8) Response where
  accept := startReading scripts version root stack
  take := ConnectionHandler.readComplete
  answer := handleIncomingData rpcCallback

/-- Alone, a handler passes on what it reads. -/
theorem alone_eq (handler : ConnectionHandler) (deliveries : List RequestBody.Delivery) :
    alone (server scripts rpcCallback version root stack) handler deliveries =
      RequestBody.readComplete handler.body handler.remaining deliveries := by
  induction deliveries generalizing handler with
  | nil => rfl
  | cons delivery later ih =>
    cases delivery with
    | error => rfl
    | chunk bytes =>
      rw [alone, RequestBody.readComplete]
      dsimp only [server, ConnectionHandler.readComplete]
      by_cases missing : 0 < RequestBody.subtract handler.remaining bytes.length
      · rw [if_pos missing, if_pos missing]
        exact ih _
      · rw [if_neg missing, if_neg missing]

/-- Starting and reading is what the handler does with a whole stream. -/
theorem start_spec (headers : List RequestBody.Header) (deliveries : List RequestBody.Delivery) :
    RequestBody.operator headers deliveries =
      (match ConnectionHandler.start headers with
        | some handler => RequestBody.readComplete handler.body handler.remaining deliveries
        | none => []) := by
  unfold RequestBody.operator ConnectionHandler.start
  cases headers.find? fun h => h.name = "Content-Length" with
  | none => rfl
  | some header => cases length : RequestBody.lexicalCast header.value <;> simp [length]

/-- The bodies of a request are those `serve` gives for it alone, and they need an
`Authorization` header that the scripts accept. -/
theorem admitted_iff (engine : ε) (incoming : Incoming) (deliveries : List RequestBody.Delivery)
    (body : List UInt8) :
    (∃ handler, startReading scripts version root stack engine incoming = some handler ∧
      body ∈ RequestBody.readComplete handler.body handler.remaining deliveries) ↔
      (∃ header, authorization incoming.request = some header ∧
        decision (scripts engine) incoming.uninitialised header.value = true) ∧
      ∃ routed passed, serve (scripts engine) incoming.uninitialised version root stack deliveries
        incoming.request = .processed routed passed ∧ body ∈ passed := by
  rw [serve_eq, startReading, exec_operator]
  cases found : authorization incoming.request with
  | none => simp [challenge]
  | some header =>
    cases decided : decision (scripts engine) incoming.uninitialised header.value with
    | false => simp [challenge, decided]
    | true =>
      simp only [decided, if_true, Option.some.injEq, exists_eq_left', true_and, Outcome.processed.injEq]
      cases routed : Routing.processRequest root incoming.request.destination.toList with
      | execute handler given =>
        cases handler with
        | api =>
          simp only [bodies, start_spec]
          cases ConnectionHandler.start (bodyHeaders incoming.request.headers) with
          | none => simp
          | some handler => simp
        | gui => simp [bodies]
      | _ => simp [bodies]

end Server

/-- In every interleaving of requests and of what comes on their connections: no
request enters the engine twice; the engine and the responses are those of the
bodies passed on, one after the other; and these are exactly the bodies of the
requests that were let through, each as if its client were alone. -/
theorem bodies_come_from_admitted_requests (scripts : ε → Scripts)
    (rpcCallback : ε → List UInt8 → List UInt8 × ε) (version : String) (root : List Char)
    (stack : List Value) (engine : ε) (events : List (Event Incoming RequestBody.Delivery))
    (final : State ε ConnectionHandler (List UInt8) Response)
    (ran : Runs.run (step (server scripts rpcCallback version root stack)) (initial engine)
      events = some final) :
    (final.calls.map Prod.fst).Nodup ∧
      replay (server scripts rpcCallback version root stack) engine final.calls =
        (final.answers, final.engine) ∧
      ∀ number body, (number, body) ∈ final.calls ↔
        ∃ before incoming after reached, events = before ++ .request incoming :: after ∧
          Runs.run (step (server scripts rpcCallback version root stack)) (initial engine) before =
            some reached ∧ reached.requests = number ∧
          (∃ header, authorization incoming.request = some header ∧
            decision (scripts reached.engine) incoming.uninitialised header.value = true) ∧
          ∃ routed passed, serve (scripts reached.engine) incoming.uninitialised version root stack
            (messagesOf number after) incoming.request = .processed routed passed ∧
            body ∈ passed := by
  obtain ⟨once, sequential, alone⟩ := served_alone _ engine events final ran
  refine ⟨once, sequential, fun number body => (alone number body).trans ?_⟩
  simp only [alone_eq, ← admitted_iff]
  rfl

/-- Scripts that let everyone in. -/
def welcoming : Scripts where
  hdkn := some [("authenticator", .function 0)]
  call _ _ _ := .ok (.boolean true)
  text _ := ""

/-- A request for the API with a body of one byte. -/
def oneByte : Incoming where
  request := ⟨"/api", [⟨"Authorization", "Basic"⟩, ⟨"Content-Length", "1"⟩], ""⟩
  uninitialised := false

/-- One request with a body of one byte. -/
theorem bodies_come_from_admitted_requests_witness : ∃ final,
    Runs.run (step (server (fun _ : Unit => welcoming) (fun _ data => (data, ())) "" [] []))
      (initial ()) [.request oneByte, .deliver 0 (.chunk [65])] = some final ∧
      (0, [65]) ∈ final.calls := by
  obtain ⟨final, ran⟩ : ∃ final, Runs.run (step (server (fun _ : Unit => welcoming)
      (fun _ data => (data, ())) "" [] [])) (initial ())
      [.request oneByte, .deliver 0 (.chunk [65])] = some final := ⟨_, rfl⟩
  refine ⟨final, ran, ((bodies_come_from_admitted_requests _ _ "" [] [] () _ final ran).2.2 0
    [65]).mpr ?_⟩
  refine ⟨[], oneByte, _, initial (), rfl, rfl, rfl, ⟨⟨"Authorization", "Basic"⟩, rfl, rfl⟩,
    .execute .api "/api".toList, [[65]], ?_, List.mem_singleton.mpr rfl⟩
  rw [serve_eq]
  rfl

end Hadouken.HttpRequests
