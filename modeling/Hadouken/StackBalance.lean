import Hadouken.Authentication
import Hadouken.Library.Runs
import Hadouken.RemoteCalls
import Mathlib.Algebra.BigOperators.Group.List.Basic
import Mathlib.Algebra.Ring.Nat

/-!
# The height of the value stack

The script host calls the scripts through three entries of the object they
registered, and defines globals. Each of these functions pushes and pops by
hand. A property that is looked up leaves a value on the stack whether it is
there or not.

An alert is given as the value its wrapper leaves on the stack, which is one for
every kind of alert. The scripts can be others at each call. A call that raises
an error outside a protected call does not return, and nothing comes after it.
-/

namespace Hadouken.StackBalance

open Script Program ValueStack Authentication Runs

/-- The scripts with the JSON decoder and the encoder's limit on nesting. -/
structure Host where
  scripts : Authentication.Scripts
  decode : List UInt8 → Option Value
  encodeLimit : Nat

/-- The host as the functions on JSON texts see it. They call no script. -/
def Host.codec (host : Host) : RemoteCalls.Scripts where
  methods _ := .undefined
  call := host.scripts.call
  conversions := plainConversions
  text := host.scripts.text
  decode := host.decode
  encodeLimit := host.encodeLimit

/-- `script_host::emit`. -/
def emit (host : Host) (name : String) (alert : Option Value) : Native Unit := do
  pushGlobalStash host.scripts.engine
  if ← getPropString "hdkn" then
    if ← getPropString "emit" then
      if !(← isCallable) then
        return
      dup
      pushString name
      match alert with
      | some wrapped => push wrapped
      | none => push .undefined
      if !(← pcallMethod host.scripts.engine 2) then
        let _ ← safeToString host.scripts.engine
      pop
    pop
  pop

/-- `script_host::rpc`, for any scripts. -/
def rpc (host : Host) (request : List UInt8) : Native (Option Json) := do
  let mut result : Option Json := none
  pushGlobalStash host.scripts.engine
  if ← getPropString "hdkn" then
    if ← getPropString "rpc" then
      if !(← isCallable) then
        return none
      dup
      RemoteCalls.pushDecoded host.codec request
      if !(← pcallMethod host.scripts.engine 1) then
        let _ ← safeToString host.scripts.engine
      if RemoteCalls.isObject (← top) then
        result ← RemoteCalls.jsonEncode host.codec
      pop
    pop
  pop
  return result

/-- With the core scripts loaded it is the call that answers JSON-RPC requests. -/
theorem rpc_core (scripts : RemoteCalls.Scripts) (request : List UInt8) :
    rpc ⟨⟨some [("rpc", .function 0)], scripts.engine.call, scripts.text⟩, scripts.decode,
      scripts.encodeLimit⟩ request = RemoteCalls.rpc scripts request := rfl

/-- `duk_put_global_string`, as far as the stack goes. -/
def putGlobalString : Native Unit := pop

/-- `script_host::define_global`. -/
def defineGlobal (value : String) : Native Unit := do
  pushString value
  putGlobalString

/-- The calls of the host. -/
inductive Call where
  | emit (name : String) (alert : Option Value)
  | rpc (request : List UInt8)
  | isAuthenticated (uninitialised : Bool) (authHeader : String)
  | defineGlobal (name value : String)

/-- The stack after a program that returns. -/
def returned {α : Type} (program : Native α) (stack : List Value) : Option (List Value) :=
  match exec program stack with
  | (.ok _, left) => some left
  | (.error _, _) => none

/-- One call, with the scripts as they are then. -/
def step (stack : List Value) : Host × Call → Option (List Value)
  | (host, .emit name alert) => returned (emit host name alert) stack
  | (host, .rpc request) => returned (rpc host request) stack
  | (host, .isAuthenticated uninitialised authHeader) =>
      returned (isAuthenticated host.scripts uninitialised authHeader) stack
  | (_, .defineGlobal _ value) => returned (defineGlobal value) stack

/-- The scripts registered a function under the name. -/
def Registered (host : Host) (name : String) : Prop :=
  ∃ members identity, host.scripts.hdkn = some members ∧
    members.lookup name = some (.function identity)

/-- The entry that a call uses is a registered function. -/
def Wired : Host × Call → Prop
  | (host, .emit _ _) => Registered host "emit"
  | (host, .rpc _) => Registered host "rpc"
  | (host, .isAuthenticated _ _) => Registered host "authenticator"
  | (_, .defineGlobal _ _) => True

/-- How many values an entry that is no registered function leaves behind. -/
def leak (host : Host) (name : String) : Nat :=
  match host.scripts.hdkn with
  | none => 1
  | some members =>
      match members.lookup name with
      | none => 1
      | some (.function _) => 0
      | some _ => 3

/-- Nothing is left exactly where the function is registered. -/
theorem leak_eq_zero_iff (host : Host) (name : String) :
    leak host name = 0 ↔ Registered host name := by
  unfold leak Registered
  cases host.scripts.hdkn with
  | none => simp
  | some members =>
    cases registered : members.lookup name with
    | none => simp [registered]
    | some value => cases value <;> simp [registered]

/-- An entry that cannot be called leaves itself and what it was looked up in. -/
theorem leak_of_ne (host : Host) (name : String) (members : Members) (value : Value)
    (registered : host.scripts.hdkn = some members) (entry : members.lookup name = some value)
    (other : ∀ identity, value ≠ .function identity) : leak host name = 3 := by
  rw [leak, registered]
  cases value with
  | function identity => exact absurd rfl (other identity)
  | _ => simp only [entry]

/-- A tick or an alert always returns, and leaves what its entry leaves. -/
theorem height_emit (host : Host) (name : String) (alert : Option Value) (stack : List Value) :
    ∃ left, returned (emit host name alert) stack = some left ∧
      left.length = stack.length + leak host "emit" := by
  obtain ⟨⟨hdkn, call, text⟩, decode, encodeLimit⟩ := host
  cases hdkn with
  | none => simp [returned, emit, leak, Scripts.engine]
  | some members =>
    cases registered : members.lookup "emit" with
    | none => simp [returned, emit, leak, Scripts.engine, registered]
    | some value =>
      by_cases callable : ∃ identity, value = .function identity
      · obtain ⟨identity, rfl⟩ := callable
        cases alert with
        | none =>
          cases outcome : call identity (.function identity) [.string (cString name), .undefined] <;>
            simp [returned, emit, leak, Scripts.engine, registered, outcome]
        | some wrapped =>
          cases outcome : call identity (.function identity) [.string (cString name), wrapped] <;>
            simp [returned, emit, leak, Scripts.engine, registered, outcome]
      · have other : ∀ identity, value ≠ .function identity := fun identity same =>
          callable ⟨identity, same⟩
        rw [leak_of_ne _ "emit" members value rfl registered other]
        simp [returned, emit, Scripts.engine, registered, exec_isCallable_of_ne, other]

/-- A check leaves what it found, and what leaks. -/
theorem height_isAuthenticated (host : Host) (uninitialised : Bool) (authHeader : String)
    (stack : List Value) :
    ∃ left, returned (isAuthenticated host.scripts uninitialised authHeader) stack = some left ∧
      left.length = stack.length + leak host "authenticator" := by
  obtain ⟨⟨hdkn, call, text⟩, decode, encodeLimit⟩ := host
  cases hdkn with
  | none => simp [returned, isAuthenticated, leak, Scripts.engine]
  | some members =>
    cases registered : members.lookup "authenticator" with
    | none => simp [returned, isAuthenticated, leak, Scripts.engine, registered]
    | some value =>
      by_cases callable : ∃ identity, value = .function identity
      · obtain ⟨identity, rfl⟩ := callable
        cases outcome : call identity (.function identity) [.string (cString authHeader)] with
        | error thrown =>
          simp [returned, isAuthenticated, leak, Scripts.engine, registered, outcome]
        | ok answer =>
          cases answer <;>
            simp [returned, isAuthenticated, leak, Scripts.engine, registered, outcome]
      · have other : ∀ identity, value ≠ .function identity := fun identity same =>
          callable ⟨identity, same⟩
        rw [leak_of_ne _ "authenticator" members value rfl registered other]
        simp [returned, isAuthenticated, Scripts.engine, registered, exec_isCallable_of_ne, other]

/-- A request whose entry is no registered function returns at once. -/
theorem height_rpc (host : Host) (request : List UInt8) (stack : List Value) :
    (∀ left, returned (rpc host request) stack = some left →
      left.length = stack.length + leak host "rpc") ∧
    (leak host "rpc" ≠ 0 → (returned (rpc host request) stack).isSome = true) := by
  obtain ⟨⟨hdkn, call, text⟩, decode, encodeLimit⟩ := host
  cases hdkn with
  | none => simp [returned, rpc, leak, Scripts.engine]
  | some members =>
    cases registered : members.lookup "rpc" with
    | none => simp [returned, rpc, leak, Scripts.engine, registered]
    | some value =>
      by_cases callable : ∃ identity, value = .function identity
      · obtain ⟨identity, rfl⟩ := callable
        cases decoded : decode (RemoteCalls.cBytes request) with
        | none =>
          simp [returned, rpc, leak, Scripts.engine, registered, RemoteCalls.pushDecoded,
            Host.codec, decoded]
        | some value =>
          cases outcome : call identity (.function identity) [value] with
          | error thrown =>
            simp [returned, rpc, leak, Scripts.engine, registered, RemoteCalls.pushDecoded,
              Host.codec, decoded, outcome, RemoteCalls.isObject]
          | ok answer =>
            by_cases object : RemoteCalls.isObject answer = true
            · cases encoded : Json.encode encodeLimit answer <;>
                simp [returned, rpc, leak, Scripts.engine, registered, RemoteCalls.pushDecoded,
                  Host.codec, decoded, outcome, object, RemoteCalls.jsonEncode, encoded]
            · simp [returned, rpc, leak, Scripts.engine, registered, RemoteCalls.pushDecoded,
                Host.codec, decoded, outcome, object]
      · have other : ∀ identity, value ≠ .function identity := fun identity same =>
          callable ⟨identity, same⟩
        rw [leak_of_ne _ "rpc" members value rfl registered other]
        simp [returned, rpc, Scripts.engine, registered, exec_isCallable_of_ne, other]

/-- What a call leaves on the stack when its entry is no registered function. -/
def leftBehind : Host × Call → Nat
  | (host, .emit _ _) => leak host "emit"
  | (host, .rpc _) => leak host "rpc"
  | (host, .isAuthenticated _ _) => leak host "authenticator"
  | (_, .defineGlobal _ _) => 0

/-- A call leaves nothing exactly where its entry point is wired. -/
theorem leftBehind_eq_zero_iff (call : Host × Call) : leftBehind call = 0 ↔ Wired call := by
  obtain ⟨host, call⟩ := call
  cases call with
  | emit name alert => exact leak_eq_zero_iff host "emit"
  | rpc request => exact leak_eq_zero_iff host "rpc"
  | isAuthenticated uninitialised authHeader => exact leak_eq_zero_iff host "authenticator"
  | defineGlobal name value => simp [leftBehind, Wired]

/-- A call that returns raises the stack by what it leaves behind, and a call
that leaves something behind returns. -/
theorem height_step (stack : List Value) (call : Host × Call) :
    (∀ left, step stack call = some left → left.length = stack.length + leftBehind call) ∧
      (leftBehind call ≠ 0 → (step stack call).isSome = true) := by
  obtain ⟨host, call⟩ := call
  cases call with
  | emit name alert =>
    obtain ⟨left, done, height⟩ := height_emit host name alert stack
    refine ⟨fun reached same => ?_, fun _ => by rw [step, done]; rfl⟩
    obtain rfl : left = reached := Option.some.inj (done.symm.trans same)
    exact height
  | rpc request => exact height_rpc host request stack
  | isAuthenticated uninitialised authHeader =>
    obtain ⟨left, done, height⟩ := height_isAuthenticated host uninitialised authHeader stack
    refine ⟨fun reached same => ?_, fun _ => by rw [step, done]; rfl⟩
    obtain rfl : left = reached := Option.some.inj (done.symm.trans same)
    exact height
  | defineGlobal name value =>
    refine ⟨fun reached same => ?_, fun leaves => absurd rfl leaves⟩
    obtain rfl : stack = reached := Option.some.inj same
    rfl

/-- One call keeps a height exactly when its entry is a registered function. -/
theorem height_step_iff (height : Nat) (stack : List Value) (call : Host × Call)
    (held : stack.length = height) :
    (∀ left, step stack call = some left → left.length = height) ↔ Wired call := by
  obtain ⟨raised, returns⟩ := height_step stack call
  rw [← leftBehind_eq_zero_iff]
  constructor
  · intro kept
    by_contra leaves
    obtain ⟨left, done⟩ := Option.isSome_iff_exists.mp (returns leaves)
    have := raised left done
    have := kept left done
    omega
  · intro nothing left done
    rw [raised left done, nothing, held, Nat.add_zero]

/-- Over calls that all return the stack grows by what each of them leaves. -/
theorem height_run (calls : List (Host × Call)) (stack left : List Value)
    (ran : run step stack calls = some left) :
    left.length = stack.length + (calls.map leftBehind).sum := by
  induction calls generalizing stack with
  | nil =>
    obtain rfl : stack = left := Option.some.inj ran
    rfl
  | cons call rest ih =>
    obtain ⟨next, stepped, continued⟩ := (run_cons stack left call rest).mp ran
    rw [ih next continued, (height_step stack call).1 next stepped, List.map_cons, List.sum_cons,
      Nat.add_assoc]

/-- A host whose scripts failed to load: their object has no entries. -/
def bare : Host where
  scripts := { hdkn := some [], call := fun _ _ _ => .ok .undefined, text := fun _ => "" }
  decode _ := none
  encodeLimit := 1000

/-- Each tick leaves a value while its entry is missing. -/
theorem ticks_accumulate (ticks : Nat) (stack left : List Value)
    (ran : run step stack (List.replicate ticks (bare, .emit "tick" none)) = some left) :
    left.length = stack.length + ticks := by
  rw [height_run _ stack left ran, List.map_replicate, List.sum_replicate_nat]
  exact congrArg (stack.length + ·) (Nat.mul_one ticks)

end Hadouken.StackBalance
