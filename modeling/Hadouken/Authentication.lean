import Hadouken.BasicCredentials
import Hadouken.Library.ValueStack

/-!
# Authentication of HTTP requests

The request crosses three layers: the HTTP server looks for the `Authorization`
header, the script host calls the `authenticator` the scripts registered, and
the script answers with a value. The host's local `result` has no initial value
in the source, so whatever it holds is a parameter here. What the scripts left
on the value stack before the request is a parameter too.

Processing an admitted request is outside this module.
-/

namespace Hadouken.Authentication

open Script Program ValueStack

/-- The state of the scripts a request meets: the object they registered, if
loading came that far, and what a call of their functions does. -/
structure Scripts where
  hdkn : Option Members
  call : Nat → Value → List Value → Except Value Value
  text : Value → String

/-- The global stash holds the registered object under one name. -/
def Scripts.engine (scripts : Scripts) : Engine where
  stash := match scripts.hdkn with
    | some members => [("hdkn", .object members)]
    | none => []
  call := scripts.call
  text := scripts.text

/-- `script_host::is_authenticated`, with the content of its uninitialised
local. -/
def isAuthenticated (scripts : Scripts) (uninitialised : Bool) (authHeader : String) :
    Native Bool := do
  let mut result := uninitialised
  pushGlobalStash scripts.engine
  if ← getPropString "hdkn" then
    if ← getPropString "authenticator" then
      if !(← isCallable) then
        return false
      dup
      pushString authHeader
      if !(← pcallMethod scripts.engine 1) then
        -- the thrown value is replaced by its text, for the log
        let _ ← safeToString scripts.engine
      match ← top with
      | .boolean value => result := value
      | _ => pure ()
      pop
    pop
  pop
  return result

/-- A header of a request. -/
structure Header where
  name : String
  value : String
deriving DecidableEq

/-- What the handlers use of a request. -/
structure Request where
  destination : String
  headers : List Header
  body : String
deriving DecidableEq

/-- What a request is answered with. -/
inductive Reply where
  | processed (request : Request)
  | unauthorized (headers : List Header)
deriving DecidableEq

/-- The challenge sent back, with the realm the version names. -/
def challenge (version : String) : Reply :=
  .unauthorized [⟨"WWW-Authenticate", "Basic realm=\"Hadouken v" ++ version ++ "\""⟩]

/-- The header that authorizes, as it is searched for. -/
def authorization (request : Request) : Option Header :=
  request.headers.find? fun header => header.name = "Authorization"

/-- `http_server::operator()`. -/
def operator (scripts : Scripts) (uninitialised : Bool) (version : String) (request : Request) :
    Native Reply := do
  match authorization request with
  | some header =>
      if ← isAuthenticated scripts uninitialised header.value then
        return .processed request
      return challenge version
  | none => return challenge version

/-- The registered authenticator, if any. -/
def Scripts.authenticator (scripts : Scripts) : Option Value :=
  scripts.hdkn.bind fun members => members.lookup "authenticator"

/-- What the registered function answers to a text, or the value it throws. -/
def Scripts.answer (scripts : Scripts) (identity : Nat) (text : String) : Except Value Value :=
  scripts.call identity (.function identity) [.string text]

/-- The scripts vouch for the text: the authenticator returns `true` on it. -/
def Authenticates (scripts : Scripts) (text : String) : Prop :=
  ∃ identity, scripts.authenticator = some (.function identity) ∧
    scripts.answer identity text = .ok (.boolean true)

/-- The scripts turn the text away: the authenticator is not a function, or it
returns `false`. -/
def Refuses (scripts : Scripts) (text : String) : Prop :=
  ∃ value, scripts.authenticator = some value ∧
    ∀ identity, value = .function identity → scripts.answer identity text = .ok (.boolean false)

/-- The host's decision, path by path. Every way the script side can go wrong
short of an authenticator that is no function leaves the local as it was. -/
def decision (scripts : Scripts) (uninitialised : Bool) (authHeader : String) : Bool :=
  match scripts.authenticator with
  | some (.function identity) =>
      match scripts.answer identity (cString authHeader) with
      | .ok (.boolean value) => value
      | _ => uninitialised
  | some _ => false
  | none => uninitialised

/-- Whatever the stack holds, the host reaches a decision without an uncaught
error. -/
theorem exec_isAuthenticated (scripts : Scripts) (uninitialised : Bool) (authHeader : String)
    (stack : List Value) :
    (exec (isAuthenticated scripts uninitialised authHeader) stack).1 =
      .ok (decision scripts uninitialised authHeader) := by
  obtain ⟨hdkn, call, text⟩ := scripts
  cases hdkn with
  | none => simp [isAuthenticated, decision, Scripts.authenticator, Scripts.engine]
  | some members =>
    cases registered : members.lookup "authenticator" with
    | none =>
      simp [isAuthenticated, decision, Scripts.authenticator, Scripts.engine, registered]
    | some value =>
      by_cases callable : ∃ identity, value = .function identity
      · obtain ⟨identity, rfl⟩ := callable
        simp only [isAuthenticated, decision, Scripts.authenticator, Scripts.answer,
          Scripts.engine]
        cases outcome : call identity (.function identity) [.string (cString authHeader)] with
        | error thrown => simp [registered, outcome]
        | ok answer => cases answer <;> simp [registered, outcome]
      · have other : ∀ identity, value ≠ .function identity := fun identity same =>
          callable ⟨identity, same⟩
        have refused : decision ⟨some members, call, text⟩ uninitialised authHeader = false := by
          simp only [decision, Scripts.authenticator, Option.bind_some, registered]
        rw [refused]
        simp [isAuthenticated, Scripts.engine, registered, exec_isCallable_of_ne, other]

/-- The server's reply, from the host's decision on the header. -/
theorem exec_operator (scripts : Scripts) (uninitialised : Bool) (version : String)
    (request : Request) (stack : List Value) :
    (exec (operator scripts uninitialised version request) stack).1 =
      .ok (match authorization request with
        | some header =>
            if decision scripts uninitialised header.value then .processed request
            else challenge version
        | none => challenge version) := by
  cases found : authorization request with
  | none => simp [operator, found]
  | some header =>
    have decided := exec_isAuthenticated scripts uninitialised header.value stack
    cases outcome : exec (isAuthenticated scripts uninitialised header.value) stack with
    | mk result left =>
      rw [outcome] at decided
      obtain rfl : result = .ok (decision scripts uninitialised header.value) := decided
      simp only [operator, found, exec_bind, outcome]
      cases decision scripts uninitialised header.value <;> rfl

/-- The host admits a header exactly when the scripts vouch for its text, or
come to no answer while the local happens to hold `true`. -/
theorem decision_true_iff (scripts : Scripts) (uninitialised : Bool) (authHeader : String) :
    decision scripts uninitialised authHeader = true ↔
      Authenticates scripts (cString authHeader) ∨
        (uninitialised = true ∧ ¬ Refuses scripts (cString authHeader)) := by
  unfold decision Authenticates Refuses
  cases registered : scripts.authenticator with
  | none => simp
  | some value =>
    by_cases callable : ∃ identity, value = .function identity
    · obtain ⟨identity, rfl⟩ := callable
      cases outcome : scripts.answer identity (cString authHeader) with
      | error thrown => simp [outcome]
      | ok answer =>
        cases answer with
        | boolean value => cases value <;> simp [outcome]
        | _ => simp [outcome]
    · have other : ∀ identity, value ≠ .function identity := fun identity same =>
        callable ⟨identity, same⟩
      cases value <;> simp_all

/-- A request is passed on only with an `Authorization` header whose value the
scripts vouch for. -/
def FailClosed (scripts : Scripts) (uninitialised : Bool) (version : String) (request : Request)
    (stack : List Value) : Prop :=
  (exec (operator scripts uninitialised version request) stack).1 = .ok (.processed request) →
    ∃ header, authorization request = some header ∧ Authenticates scripts header.value

/-- The scripts come to an answer on the header, or the local happens to hold
`false`. A header with a NUL is answered for the text before it. -/
def Answered (scripts : Scripts) (uninitialised : Bool) (authHeader : String) : Prop :=
  Authenticates scripts authHeader ∨ Refuses scripts (cString authHeader) ∨
    (uninitialised = false ∧ ¬ Authenticates scripts (cString authHeader))

/-- No text is both vouched for and turned away. -/
theorem not_authenticates_of_refuses (scripts : Scripts) (text : String)
    (refused : Refuses scripts text) : ¬ Authenticates scripts text := by
  rintro ⟨identity, registered, accepted⟩
  obtain ⟨value, same, answers⟩ := refused
  obtain rfl : .function identity = value := Option.some.inj (registered.symm.trans same)
  have rejected := answers identity rfl
  rw [accepted] at rejected
  simp at rejected

/-- The server fails closed on a request exactly when the header, if there is
one, is answered. -/
theorem failClosed_iff_answered (scripts : Scripts) (uninitialised : Bool) (version : String)
    (request : Request) (stack : List Value) :
    FailClosed scripts uninitialised version request stack ↔
      ∀ header, authorization request = some header →
        Answered scripts uninitialised header.value := by
  unfold FailClosed
  rw [exec_operator]
  cases found : authorization request with
  | none => simp [challenge]
  | some header =>
    have passed : (Except.ok (if decision scripts uninitialised header.value
        then Reply.processed request else challenge version) : Except Value Reply) =
          .ok (.processed request) ↔ decision scripts uninitialised header.value = true := by
      cases decision scripts uninitialised header.value <;> simp [challenge]
    simp only [passed, decision_true_iff, Option.some.injEq, exists_eq_left', forall_eq', Answered]
    have exclusive := not_authenticates_of_refuses scripts (cString header.value)
    cases uninitialised <;> simp only [true_and, false_and, or_false, Bool.false_eq_true,
      Bool.true_eq_false] <;> tauto

/-- The scripts after a complete start: auth.js registered its authenticator
with both credentials at their default. -/
def coreScripts (table : BasicCredentials.CaseTable) : Scripts where
  hdkn := some [("authenticator", .function 0)]
  call _ _
    | [.string header] =>
        match BasicCredentials.authenticator table none none header.toList with
        | .ok accepted => .ok (.boolean accepted)
        | .error thrown => .error (.error thrown)
    | _ => .error (.error (typeError "undefined not callable"))
  text
    | .error thrown => thrown.name ++ ": " ++ thrown.message
    | _ => ""

/-- A token that is no base64 makes the authenticator throw, and the request is
passed on whenever the local happens to hold `true`. -/
theorem malformed_token_passed_on :
    ¬ FailClosed (coreScripts BasicCredentials.plainCases) true "5.0.0"
      ⟨"/gui/index.html", [⟨"Authorization", "Basic !"⟩], ""⟩ [] := by
  have thrown : (coreScripts BasicCredentials.plainCases).answer 0 "Basic !" =
      .error (.error (typeError "base64 decode failed")) := by
    have malformed := BasicCredentials.authenticator_malformed BasicCredentials.plainCases none none
      "Basic !".toList "Basic".toList "!".toList [] (by decide) (by decide) (by decide)
    simp only [Scripts.answer, coreScripts, malformed]
  have plain : cString "Basic !" = "Basic !" := by decide
  have registered : (coreScripts BasicCredentials.plainCases).authenticator =
      some (.function 0) := rfl
  have admitted : decision (coreScripts BasicCredentials.plainCases) true "Basic !" = true := by
    simp only [decision, registered, plain, thrown]
  intro closed
  obtain ⟨header, found, identity, same, accepted⟩ := closed (by
    rw [exec_operator]
    simp [authorization, admitted])
  obtain rfl : (⟨"Authorization", "Basic !"⟩ : Header) = header := Option.some.inj found
  obtain rfl : 0 = identity := by simpa [registered] using same
  rw [thrown] at accepted
  simp at accepted

end Hadouken.Authentication
