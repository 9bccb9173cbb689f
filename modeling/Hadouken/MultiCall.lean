import Hadouken.Dispatch

/-!
# Batches of RPC calls

`core.multiCall` takes an object that names methods and holds the parameters of
each, and collects what they return under the same names. It looks methods up
and calls them as `handleRequest` does, but reports neither an unknown name nor
a method that throws: what is thrown ends the batch.

The parameters are the members of a decoded object, so that no name occurs
twice and each is read as its own property.
-/

namespace Hadouken.MultiCall

open Script RemoteCalls Dispatch

variable {σ : Type}

/-- The error object `multiCall` writes for a name without a method. -/
def notFound (name : String) : Value :=
  .object [("code", .integer (-32601)), ("message", .string "Method not found"),
    ("data", .string name)]

/-- The loop of `multiCall`, from a result and a state on. -/
def callAll (host : Host σ) (params : Members) : List String → Members → σ → Except Value Value × σ
  | [], result, state => (.ok (.object result), state)
  | name :: rest, result, state =>
      let method := property (methods host.files) name
      if method.truthy then
        match invokeAt host state method (property params name) with
        | (.ok value, after) => callAll host params rest (assign name value result) after
        | (.error thrown, after) => (.error thrown, after)
      else
        match (property result name).assignMember "error" (notFound name) with
        | none => (.error (.error (typeError "cannot write property 'error'")), state)
        -- the log line reads `request`, which has no meaning in this function
        | some _ => (.error (.error ⟨"ReferenceError", "identifier 'request' undefined"⟩), state)

/-- `multiCall`. -/
def multiCall (host : Host σ) (params : Members) (state : σ) : Except Value Value × σ :=
  callAll host params (params.map Prod.fst) [] state

/-- An entry that is an error with this code. -/
def IsError (code : Int) (entry : Value) : Prop :=
  ∃ error, entry.member "error" = some error ∧ error.member "code" = some (.integer code)

/-- The request that asks for one call alone. -/
def single (id : Value) (name : String) (param : Value) : Value :=
  .object [("id", id), ("method", .string name), ("params", param)]

/-- What a batch should do: every registered method is called in the state the
calls before it left, and every name gets its entry. -/
inductive Batch (host : Host σ) : σ → Members → Members → σ → Prop
  | nil (state : σ) : Batch host state [] [] state
  | returned {state after final : σ} {name : String} {param value : Value} {rest results : Members}
      (registered : Registered host name)
      (outcome : invokeAt host state (property (methods host.files) name) param = (.ok value, after))
      (alone : ∀ id, ∃ response, handleRequest (host.scripts state) (single id name param) =
        .ok response ∧ response.member "result" = some value)
      (later : Batch host after rest results final) :
      Batch host state ((name, param) :: rest) ((name, value) :: results) final
  | threw {state after final : σ} {name : String} {param thrown entry : Value}
      {rest results : Members} (registered : Registered host name)
      (outcome : invokeAt host state (property (methods host.files) name) param =
        (.error thrown, after))
      (reported : ∃ code, IsError code entry) (later : Batch host after rest results final) :
      Batch host state ((name, param) :: rest) ((name, entry) :: results) final
  | unknown {state final : σ} {name : String} {param entry : Value} {rest results : Members}
      (unregistered : ¬ Registered host name) (reported : IsError (-32601) entry)
      (later : Batch host state rest results final) :
      Batch host state ((name, param) :: rest) ((name, entry) :: results) final

/-- The call returns an object with the entries it should have, and all methods
have been called. -/
def Agrees (host : Host σ) (params : Members) (state : σ) : Prop :=
  ∃ results final, multiCall host params state = (.ok (.object results), final) ∧
    Batch host state params results final

/-- Nothing is thrown along the batch: each name is registered and its method
returns, or is an inherited function that returns such an error by itself. -/
def Smooth (host : Host σ) : σ → Members → Prop
  | _, [] => True
  | state, (name, param) :: rest =>
      (Registered host name ∧ ∃ value after,
        invokeAt host state (property (methods host.files) name) param = (.ok value, after) ∧
          Smooth host after rest) ∨
      (¬ Registered host name ∧ ∃ value,
        invokeAt host state (property (methods host.files) name) param = (.ok value, state) ∧
          IsError (-32601) value ∧ Smooth host state rest)

section Steps

variable (host : Host σ) (state : σ)

/-- A method that returns gives a single request the same value. -/
theorem handled_alone (id : Value) (name : String) (param value : Value)
    (registered : Registered host name)
    (outcome : (invokeAt host state (property (methods host.files) name) param).1 = .ok value) :
    handleRequest (host.scripts state) (single id name param) = .ok (.object (succeeded id value)) := by
  have present : ((host.scripts state).methods name).truthy = true :=
    (property_truthy_iff host name).mpr (.inl registered)
  have invoked : invoke (host.scripts state) ((host.scripts state).methods name) param =
      .ok value := (invokeAt_fst host state _ param).symm.trans outcome
  rw [handleRequest_eq (host.scripts state) (single id name param) (.string name) id param name
    rfl rfl rfl (host.conversions.propertyKey_string name), if_pos present, invoked]

/-- What is only inherited leaves the state as it was. -/
theorem invokeAt_inherited (name : String) (param : Value) (unregistered : ¬ Registered host name) :
    (invokeAt host state (property (methods host.files) name) param).2 = state := by
  rw [property_of_not_registered host name unregistered]
  cases found : objectPrototype.lookup name with
  | none => rfl
  | some value =>
    rcases inherited_cases name value found with rfl | ⟨identity, builtin, rfl⟩
    · cases param <;> rfl
    · cases param <;> simp [invokeAt, Host.callAt, builtin]

/-- A falsy property is none of a plain table, and calling it throws. -/
theorem invokeAt_absent (name : String) (param : Value)
    (absent : ¬ (property (methods host.files) name).truthy = true) :
    objectPrototype.lookup name = none ∧
      invokeAt host state (property (methods host.files) name) param =
        (.error (.error (typeError "not callable")), state) := by
  have unknown := (property_truthy_iff host name).not.mp absent
  rw [not_or] at unknown
  have strange : objectPrototype.lookup name = none := by
    by_contra found
    exact unknown.2 ⟨unknown.1, Option.isSome_iff_ne_none.mpr found⟩
  refine ⟨strange, ?_⟩
  rw [property_of_not_registered host name unknown.1, strange]
  cases param <;> rfl

end Steps

section Batches

variable (host : Host σ) (params : Members)

/-- What is left of the batch has its own parameters, and no entry yet. -/
def Pending (remaining result : Members) : Prop :=
  (remaining.map Prod.fst).Nodup ∧ (∀ name ∈ remaining.map Prod.fst, name ∉ result.map Prod.fst) ∧
    ∀ name param, (name, param) ∈ remaining → params.lookup name = some param

variable {params}

/-- Writing the entry of the first name leaves the others pending. -/
theorem Pending.later {name : String} {param : Value} {rest result : Members}
    (pending : Pending params ((name, param) :: rest) result) (value : Value) :
    Pending params rest (result ++ [(name, value)]) := by
  obtain ⟨nodup, fresh, own⟩ := pending
  obtain ⟨unused, restNodup⟩ := List.nodup_cons.mp nodup
  refine ⟨restNodup, ?_, fun other param member => own other param (List.mem_cons_of_mem _ member)⟩
  intro other member written
  rw [List.map_append, List.mem_append] at written
  rcases written with before | last
  · exact fresh other (List.mem_cons_of_mem _ member) before
  · obtain rfl : other = name := by simpa using last
    exact unused member

/-- One round of the loop: what the method returns becomes the next entry, and
whatever is thrown ends the batch. -/
theorem callAll_cases (name : String) (param : Value) (rest result : Members) (state : σ)
    (pending : Pending params ((name, param) :: rest) result) :
    (∃ value after,
      invokeAt host state (property (methods host.files) name) param = (.ok value, after) ∧
      callAll host params (((name, param) :: rest).map Prod.fst) result state =
        callAll host params (rest.map Prod.fst) (result ++ [(name, value)]) after) ∨
    ∃ thrown after ended final,
      invokeAt host state (property (methods host.files) name) param = (.error thrown, after) ∧
      callAll host params (((name, param) :: rest).map Prod.fst) result state =
        (.error ended, final) := by
  obtain ⟨_, fresh, own⟩ := pending
  have unwritten : name ∉ result.map Prod.fst := fresh name List.mem_cons_self
  have given : property params name = param := by
    rw [property, own name param List.mem_cons_self, Option.getD_some]
  rw [List.map_cons]
  by_cases present : (property (methods host.files) name).truthy = true
  · rcases outcome : invokeAt host state (property (methods host.files) name) param with
      ⟨thrown | value, after⟩
    · exact .inr ⟨thrown, after, thrown, after, rfl, by simp [callAll, present, given, outcome]⟩
    · refine .inl ⟨value, after, rfl, ?_⟩
      simp [callAll, present, given, outcome, assign_of_not_mem name value result unwritten]
  · obtain ⟨strange, threw⟩ := invokeAt_absent host state name param present
    have missing : result.lookup name = none := by
      rw [← Option.not_isSome_iff_eq_none, lookup_isSome_iff]
      exact unwritten
    have entry : property result name = .undefined := by rw [property, missing, strange]; rfl
    refine .inr ⟨_, _, .error (typeError "cannot write property 'error'"), state, threw, ?_⟩
    simp only [callAll, present, entry, Value.assignMember]
    rfl

/-- The entries that stand are kept in front of those that follow. -/
theorem callAll_extends (remaining result results : Members) (state final : σ)
    (pending : Pending params remaining result)
    (returned : callAll host params (remaining.map Prod.fst) result state =
      (.ok (.object results), final)) : ∃ later, results = result ++ later := by
  induction remaining generalizing result state with
  | nil =>
    simp only [List.map_nil, callAll, Prod.mk.injEq, Except.ok.injEq, Value.object.injEq] at returned
    exact ⟨[], by simp [returned.1]⟩
  | cons member rest ih =>
    obtain ⟨name, param⟩ := member
    rcases callAll_cases host name param rest result state pending with
      ⟨value, after, _, step⟩ | ⟨_, _, ended, _, _, step⟩
    · rw [step] at returned
      obtain ⟨later, rfl⟩ := ih _ _ (pending.later value) returned
      exact ⟨(name, value) :: later, by simp⟩
    · rw [step] at returned
      cases returned

/-- From this point on the batch gives the remaining names their entries. -/
def AgreesFrom (params : Members) (state : σ) (remaining result : Members) : Prop :=
  ∃ results final, callAll host params (remaining.map Prod.fst) result state =
    (.ok (.object (result ++ results)), final) ∧ Batch host state remaining results final

section FirstName

variable (name : String) (param value : Value) (rest result : Members) (state after : σ)
  (outcome : invokeAt host state (property (methods host.files) name) param = (.ok value, after))
  (step : callAll host params (((name, param) :: rest).map Prod.fst) result state =
    callAll host params (rest.map Prod.fst) (result ++ [(name, value)]) after)

include outcome step

/-- A registered method that returns is served, and the rest is left. -/
theorem agreesFrom_registered (registered : Registered host name) :
    AgreesFrom host params state ((name, param) :: rest) result ↔
      AgreesFrom host params after rest (result ++ [(name, value)]) := by
  rw [AgreesFrom, AgreesFrom, step]
  constructor
  · rintro ⟨results, final, called, batch⟩
    cases batch with
    | returned _ outcome' _ later =>
      obtain ⟨same, rfl⟩ := Prod.mk.inj (outcome.symm.trans outcome')
      obtain rfl := Except.ok.inj same
      exact ⟨_, final, by simpa using called, later⟩
    | threw _ outcome' => cases (Prod.mk.inj (outcome.symm.trans outcome')).1
    | unknown unregistered => exact absurd registered unregistered
  · rintro ⟨results, final, called, later⟩
    have alone : ∀ id, ∃ response, handleRequest (host.scripts state) (single id name param) =
        .ok response ∧ response.member "result" = some value := fun id =>
      ⟨_, handled_alone host state id name param value registered (by rw [outcome]), rfl⟩
    exact ⟨(name, value) :: results, final, by simpa using called,
      .returned registered outcome alone later⟩

/-- An inherited function that returns is served if what it returned is such an
error, and the rest is left. -/
theorem agreesFrom_inherited (unregistered : ¬ Registered host name) (unchanged : after = state)
    (pending : Pending params ((name, param) :: rest) result) :
    AgreesFrom host params state ((name, param) :: rest) result ↔
      IsError (-32601) value ∧ AgreesFrom host params after rest (result ++ [(name, value)]) := by
  subst unchanged
  rw [AgreesFrom, AgreesFrom, step]
  constructor
  · rintro ⟨results, final, called, batch⟩
    obtain ⟨later, extended⟩ := callAll_extends host rest _ _ after final (pending.later value) called
    cases batch with
    | returned own => exact absurd own unregistered
    | threw own => exact absurd own unregistered
    | unknown _ reported others =>
      simp only [List.append_assoc, List.cons_append, List.nil_append,
        List.append_cancel_left_eq, List.cons.injEq, Prod.mk.injEq, true_and] at extended
      obtain ⟨rfl, rfl⟩ := extended
      exact ⟨reported, _, final, by simpa using called, others⟩
  · rintro ⟨reported, results, final, called, later⟩
    exact ⟨(name, value) :: results, final, by simpa using called,
      .unknown unregistered reported later⟩

end FirstName

/-- From any point of a batch on, the rest of it is as it should be exactly when
it is smooth. -/
theorem agreesFrom_iff_smooth (remaining result : Members) (state : σ)
    (pending : Pending params remaining result) :
    AgreesFrom host params state remaining result ↔ Smooth host state remaining := by
  induction remaining generalizing result state with
  | nil => exact iff_of_true ⟨[], state, by simp [callAll], .nil state⟩ trivial
  | cons member rest ih =>
    obtain ⟨name, param⟩ := member
    rcases callAll_cases host name param rest result state pending with
      ⟨value, after, outcome, step⟩ | ⟨thrown, after, ended, _, outcome, step⟩
    · have goesOn := ih (result ++ [(name, value)]) after (pending.later value)
      by_cases registered : Registered host name
      · rw [agreesFrom_registered host name param value rest result state after outcome step
          registered, goesOn, Smooth]
        simp [registered, outcome]
      · have unchanged : after = state := by
          rw [← invokeAt_inherited host state name param registered, outcome]
        rw [agreesFrom_inherited host name param value rest result state after outcome step
          registered unchanged pending, goesOn, Smooth]
        subst unchanged
        simp [registered, outcome]
    · rw [AgreesFrom, step, Smooth]
      simp [outcome]

end Batches

/-- For every object of parameters, the batch gives each name the entry it
should have exactly when it is smooth. One name that is unknown, or one method
that throws, takes all entries away. -/
theorem agrees_iff_smooth (host : Host σ) (params : List (String × Json)) (state : σ) :
    Agrees host (Json.toMembers params []) state ↔ Smooth host state (Json.toMembers params []) := by
  have nodup := (Json.plain_toMembers params [] List.nodup_nil trivial).1
  have pending : Pending (Json.toMembers params []) (Json.toMembers params []) [] :=
    ⟨nodup, fun _ _ => List.not_mem_nil, fun name param => lookup_of_mem name param _ nodup⟩
  exact agreesFrom_iff_smooth host _ [] state pending

/-- One unknown name is enough. -/
theorem unknown_name_not_reported :
    ¬ Agrees plainHost (Json.toMembers [("core.nothing", .null)] []) () := by
  rintro ⟨results, final, called, _⟩
  have threw : multiCall plainHost (Json.toMembers [("core.nothing", .null)] []) () =
      (.error (.error (typeError "cannot write property 'error'")), ()) := rfl
  rw [threw] at called
  cases called

end Hadouken.MultiCall
