import Hadouken.Authentication
import Hadouken.RequestBody
import Hadouken.Routing
import Mathlib

/-!
# Letter case of header names

Two places look for a header of a request: the server for the one with the
credentials, and the reader of a body for the one with its length. Each takes
the first header that is spelled as it is looked for.

The HTTP library delivers header names as they were sent. Letter case is that of
the letters of ASCII.
-/

namespace Hadouken.HeaderNames

open Script Program ValueStack Authentication

/-- What becomes of a request: who sent it is turned away, or it is routed, and
the API gets bodies. -/
inductive Outcome where
  | unauthorized
  | processed (routed : Routing.Outcome) (bodies : List (List UInt8))

/-- The headers as the reader of the body sees them. -/
def bodyHeaders (headers : List Header) : List RequestBody.Header :=
  headers.map fun header => ⟨header.name, header.value⟩

/-- The bodies `api_request_handler` passes on. -/
def bodies (routed : Routing.Outcome) (headers : List Header)
    (deliveries : List RequestBody.Delivery) : List (List UInt8) :=
  match routed with
  | .execute .api _ => RequestBody.operator (bodyHeaders headers) deliveries
  | _ => []

/-- `http_server::operator()`, and `process_request` for a request that it lets
through. -/
def serve (scripts : Scripts) (uninitialised : Bool) (version : String) (root : List Char)
    (stack : List Value) (deliveries : List RequestBody.Delivery) (request : Request) : Outcome :=
  match (exec (operator scripts uninitialised version request) stack).1 with
  | .ok (.processed request) =>
      let routed := Routing.processRequest root request.destination.toList
      .processed routed (bodies routed request.headers deliveries)
  | _ => .unauthorized

/-- A name without its letter case. -/
def lower (name : String) : List Char := name.toList.map Char.toLower

/-- The headers differ in the letter case of the name alone. -/
def SameHeader (first second : Header) : Prop :=
  lower second.name = lower first.name ∧ second.value = first.value

/-- The requests differ in the letter case of header names alone. -/
structure SameButCase (first second : Request) : Prop where
  destination : second.destination = first.destination
  body : second.body = first.body
  headers : List.Forall₂ SameHeader first.headers second.headers

/-- The name in small letters. -/
def authorizationName : List Char := "authorization".toList

/-- No header that is one with credentials, in whatever spelling, is admitted. -/
def Unauthorized (scripts : Scripts) (uninitialised : Bool) (request : Request) : Prop :=
  ∀ header ∈ request.headers, lower header.name = authorizationName →
    decision scripts uninitialised header.value = false

section Serving

variable (scripts : Scripts) (uninitialised : Bool) (version : String) (root : List Char)
  (stack : List Value) (deliveries : List RequestBody.Delivery) (request : Request)

/-- A request is let through with the first header of the exact name. -/
theorem serve_eq : serve scripts uninitialised version root stack deliveries request =
    match authorization request with
    | some header =>
        if decision scripts uninitialised header.value then
          .processed (Routing.processRequest root request.destination.toList)
            (bodies (Routing.processRequest root request.destination.toList) request.headers
              deliveries)
        else .unauthorized
    | none => .unauthorized := by
  unfold serve
  rw [exec_operator]
  cases authorization request with
  | none => rfl
  | some header =>
    cases decided : decision scripts uninitialised header.value <;> simp [challenge, decided]

/-- A request is turned away where no header of that exact name authorizes it. -/
theorem serve_unauthorized_iff :
    serve scripts uninitialised version root stack deliveries request = .unauthorized ↔
      ∀ header, authorization request = some header →
        decision scripts uninitialised header.value = false := by
  rw [serve_eq]
  cases found : authorization request with
  | none => simp
  | some header => cases decided : decision scripts uninitialised header.value <;> simp [decided]

end Serving

/-- The same headers with their names in small letters. -/
def lowered (headers : List Header) : List Header :=
  headers.map fun header => ⟨.ofList (lower header.name), header.value⟩

/-- Small letters stay small. -/
theorem lower_lowered (name : String) : lower (.ofList (lower name)) = lower name := by
  simp [lower, Char.toLower_toLower_eq_toLower]

/-- Headers in small letters differ in letter case only. -/
theorem sameHeader_lowered (headers : List Header) :
    List.Forall₂ SameHeader headers (lowered headers) := by
  induction headers with
  | nil => exact .nil
  | cons header rest ih => exact .cons ⟨lower_lowered header.name, rfl⟩ ih

/-- No name in small letters is spelled as the server looks for it. -/
theorem not_authorization_lowered (headers : List Header) :
    ∀ header ∈ lowered headers, header.name ≠ "Authorization" := by
  intro header member
  obtain ⟨own, _, rfl⟩ := List.mem_map.mp member
  intro same
  have letters := congrArg lower same
  rw [lower_lowered] at letters
  have spelled : lower own.name = "Authorization".toList := by
    rw [← same, String.toList_ofList]
  rw [spelled] at letters
  revert letters
  decide

/-- Without the name in small letters nobody is let through. -/
theorem serve_lowered (scripts : Scripts) (uninitialised : Bool) (version : String)
    (root : List Char) (stack : List Value) (deliveries : List RequestBody.Delivery)
    (request : Request) :
    serve scripts uninitialised version root stack deliveries
      { request with headers := lowered request.headers } = .unauthorized := by
  rw [serve_unauthorized_iff]
  intro header found
  have member := List.mem_of_find?_eq_some found
  have spelled := List.find?_some found
  exact absurd (by simpa using spelled) (not_authorization_lowered request.headers header member)

/-- With one header spelled as the server looks for it, that header decides. -/
theorem authorization_respelled (request : Request) (earlier later : List Header)
    (header : Header) :
    authorization { request with
      headers := lowered earlier ++ ⟨"Authorization", header.value⟩ :: lowered later } =
        some ⟨"Authorization", header.value⟩ := by
  rw [authorization, List.find?_append]
  have none : (lowered earlier).find? (fun own => own.name = "Authorization") = none := by
    rw [List.find?_eq_none]
    intro own member
    simpa using not_authorization_lowered earlier own member
  simp [none]

/-- Every header of a request has its counterpart in another spelling. -/
theorem mem_of_respelled {first second : List Header} (related : List.Forall₂ SameHeader first second)
    (header : Header) (member : header ∈ second) : ∃ own ∈ first, SameHeader own header := by
  induction related with
  | nil => cases member
  | @cons own respelled _ _ same _ ih =>
    rcases List.mem_cons.mp member with rfl | later
    · exact ⟨own, List.mem_cons_self, same⟩
    · obtain ⟨found, inside, same⟩ := ih later
      exact ⟨found, List.mem_cons_of_mem own inside, same⟩

/-- A request gets the same outcome in every spelling exactly when it carries no
credentials that are admitted: a name in small letters is never found. -/
theorem caseless_iff_unauthorized (scripts : Scripts) (uninitialised : Bool) (version : String)
    (root : List Char) (stack : List Value) (deliveries : List RequestBody.Delivery)
    (request : Request) :
    (∀ other, SameButCase request other →
      serve scripts uninitialised version root stack deliveries other =
        serve scripts uninitialised version root stack deliveries request) ↔
      Unauthorized scripts uninitialised request := by
  constructor
  · intro caseless header member credentials
    have small := caseless { request with headers := lowered request.headers }
      ⟨rfl, rfl, sameHeader_lowered request.headers⟩
    rw [serve_lowered] at small
    obtain ⟨earlier, later, split⟩ := List.append_of_mem member
    have spelled := caseless { request with
      headers := lowered earlier ++ ⟨"Authorization", header.value⟩ :: lowered later } ⟨rfl, rfl, by
        rw [split]
        refine List.rel_append (sameHeader_lowered earlier) (.cons ⟨?_, rfl⟩
          (sameHeader_lowered later))
        exact credentials.symm ▸ (by decide : lower "Authorization" = authorizationName)⟩
    rw [← small, serve_unauthorized_iff] at spelled
    exact spelled ⟨"Authorization", header.value⟩
      (authorization_respelled request earlier later header)
  · intro refused
    have turned : ∀ other, SameButCase request other →
        serve scripts uninitialised version root stack deliveries other = .unauthorized := by
      intro other same
      rw [serve_unauthorized_iff]
      intro header found
      have member := List.mem_of_find?_eq_some found
      have spelled : header.name = "Authorization" := by simpa using List.find?_some found
      obtain ⟨own, inside, name, value⟩ := mem_of_respelled same.headers header member
      rw [value]
      refine refused own inside ?_
      rw [← name, spelled]
      decide
    intro other same
    rw [turned other same, turned request ⟨rfl, rfl, List.forall₂_same.mpr fun _ _ => ⟨rfl, rfl⟩⟩]

/-- The headers agree on their value and on whether they are spelled as `name`. -/
def AlikeFor (name : String) (first second : Header) : Prop :=
  second.value = first.value ∧ (second.name = name ↔ first.name = name)

/-- The look-up goes by the one name alone. -/
theorem find_value_eq {name : String} {first second : List Header}
    (related : List.Forall₂ (AlikeFor name) first second) :
    (second.find? fun header => header.name = name).map Header.value =
      (first.find? fun header => header.name = name).map Header.value := by
  induction related with
  | nil => rfl
  | @cons own other _ _ same _ ih =>
    by_cases spelled : own.name = name
    · simp [spelled, same.2.mpr spelled, same.1]
    · have differs : ¬ other.name = name := fun found => spelled (same.2.mp found)
      simpa [List.find?_cons, spelled, differs] using ih

/-- The length a reader of bodies goes by. -/
theorem operator_bodyHeaders (headers : List Header) (deliveries : List RequestBody.Delivery) :
    RequestBody.operator (bodyHeaders headers) deliveries =
      match (headers.find? fun header => header.name = "Content-Length").map Header.value with
      | none => []
      | some value =>
          match RequestBody.lexicalCast value with
          | none => []
          | some length => RequestBody.readComplete [] (length % 2 ^ 64).toNat deliveries := by
  unfold RequestBody.operator bodyHeaders
  rw [List.find?_map]
  have same : ((fun h : RequestBody.Header => decide (h.name = "Content-Length")) ∘
      fun header : Header => ⟨header.name, header.value⟩) =
        fun header : Header => decide (header.name = "Content-Length") := rfl
  rw [same]
  cases headers.find? fun header => decide (header.name = "Content-Length") <;> rfl

/-- The server looks for two names. Where both are spelled in the same places,
the outcome is the same. -/
theorem serve_eq_of_spelled (scripts : Scripts) (uninitialised : Bool) (version : String)
    (root : List Char) (stack : List Value) (deliveries : List RequestBody.Delivery)
    (first second : Request) (destination : second.destination = first.destination)
    (credentials : List.Forall₂ (AlikeFor "Authorization") first.headers second.headers)
    (lengths : List.Forall₂ (AlikeFor "Content-Length") first.headers second.headers) :
    serve scripts uninitialised version root stack deliveries second =
      serve scripts uninitialised version root stack deliveries first := by
  have found : (authorization second).map Header.value = (authorization first).map Header.value :=
    find_value_eq credentials
  have body (routed : Routing.Outcome) :
      bodies routed second.headers deliveries = bodies routed first.headers deliveries := by
    unfold bodies
    simp only [operator_bodyHeaders, find_value_eq lengths]
  rw [serve_eq, serve_eq, destination, body]
  cases own : authorization first with
  | none =>
    rw [own, Option.map_none, Option.map_eq_none_iff] at found
    rw [found]
  | some header =>
    rw [own, Option.map_some, Option.map_eq_some_iff] at found
    obtain ⟨other, spelled, value⟩ := found
    rw [spelled]
    simp only [value]

/-- The default credentials, with the name of their header as browsers send it. -/
def authorized : Request :=
  ⟨"/api", [⟨"Authorization", "Basic YWRtaW46YWRtaW4="⟩], ""⟩

/-- The same request from a client that sends names in small letters is turned
away. -/
theorem small_letters_turned_away :
    SameButCase authorized
        { authorized with headers := [⟨"authorization", "Basic YWRtaW46YWRtaW4="⟩] } ∧
      serve (coreScripts BasicCredentials.plainCases) false "5.0.0" ['/'] [] []
          { authorized with headers := [⟨"authorization", "Basic YWRtaW46YWRtaW4="⟩] } ≠
        serve (coreScripts BasicCredentials.plainCases) false "5.0.0" ['/'] [] [] authorized := by
  refine ⟨⟨rfl, rfl, .cons ⟨by decide, rfl⟩ .nil⟩, ?_⟩
  have admitted : decision (coreScripts BasicCredentials.plainCases) false
      "Basic YWRtaW46YWRtaW4=" = true := by
    have accepted : BasicCredentials.authenticator BasicCredentials.plainCases none none
        "Basic YWRtaW46YWRtaW4=".toList = .ok true := by decide +kernel
    have plain : cString "Basic YWRtaW46YWRtaW4=" = "Basic YWRtaW46YWRtaW4=" := by decide
    have answered : (coreScripts BasicCredentials.plainCases).answer 0 "Basic YWRtaW46YWRtaW4=" =
        .ok (.boolean true) := by
      simp only [Scripts.answer, coreScripts, accepted]
    have registered : (coreScripts BasicCredentials.plainCases).authenticator =
        some (.function 0) := rfl
    simp only [decision, registered, plain, answered]
  rw [serve_eq, serve_eq]
  simp [authorization, authorized, admitted]

end Hadouken.HeaderNames
