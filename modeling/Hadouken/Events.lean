import Hadouken.Library.Members
import Hadouken.Library.Runs

/-!
# Event delivery

`session.on` registers a callback under an event name, which stands for the name
of an alert. `script_host::emit` has the emitter of events.js call the callbacks
of an alert's name, one after the other, and logs what they throw.

A callback is a function of the script's state: it may change the state, call
`session.on` itself, and throw. The list the emitter goes through is the live
one, so that callbacks registered on the way for the same alert are called as
well and a delivery need not end. Alert names are never names that a plain
object inherits.
-/

namespace Hadouken.Events

open Runs

/-- The names of events and the alerts they stand for. -/
def eventMap : List (String × String) :=
  [("peer.blockDownloading", "block_downloading_alert"),
    ("peer.blockFinished", "block_finished_alert"),
    ("peer.blockTimeout", "block_timeout_alert"),
    ("torrent.cacheFlushed", "cache_flushed_alert"),
    ("dht.bootstrap", "dht_bootstrap_alert"),
    ("dht.reply", "dht_reply_alert"),
    ("externalAddress", "external_ip_alert"),
    ("file.completed", "file_completed_alert"),
    ("file.error", "file_error_alert"),
    ("file.renamed", "file_renamed_alert"),
    ("file.renameFailed", "file_rename_failed_alert"),
    ("torrent.hashFailed", "hash_failed_alert"),
    ("incomingConnection", "incoming_connection_alert"),
    ("listenSucceeded", "listen_succeeded_alert"),
    ("peer.lsd", "lsd_peer_alert"),
    ("torrent.metadataFailed", "metadata_failed_alert"),
    ("torrent.metadataReceived", "metadata_received_alert"),
    ("peer.ban", "peer_ban_alert"),
    ("peer.blocked", "peer_blocked_alert"),
    ("peer.connect", "peer_connect_alert"),
    ("peer.disconnected", "peer_disconnected_alert"),
    ("peer.error", "peer_error_alert"),
    ("peer.snubbed", "peer_snubbed_alert"),
    ("peer.unsnubbed", "peer_unsnubbed_alert"),
    ("torrent.performanceWarning", "performance_alert"),
    ("piece.finished", "piece_finished_alert"),
    ("peer.requestDropped", "request_dropped_alert"),
    ("tracker.scrapeReply", "scrape_reply_alert"),
    ("tracker.scrapeFailed", "scrape_failed_alert"),
    ("torrent.stateChanged", "state_changed_alert"),
    ("torrent.stateUpdate", "state_update_alert"),
    ("torrent.stats", "stats_alert"),
    ("torrent.moved", "storage_moved_alert"),
    ("torrent.moveFailed", "storage_moved_failed_alert"),
    ("torrent.add", "add_torrent_alert"),
    ("torrent.added", "torrent_added_alert"),
    ("torrent.checked", "torrent_checked_alert"),
    ("torrent.deleted", "torrent_deleted_alert"),
    ("torrent.deleteFailed", "torrent_delete_failed_alert"),
    ("torrent.error", "torrent_error_alert"),
    ("torrent.finished", "torrent_finished_alert"),
    ("torrent.needCertificate", "torrent_need_cert_alert"),
    ("torrent.paused", "torrent_paused_alert"),
    ("torrent.resumed", "torrent_resumed_alert"),
    ("torrent.removed", "torrent_removed_alert"),
    ("torrent.hashUpdated", "torrent_update_alert"),
    ("tracker.id", "trackerid_alert"),
    ("tracker.announce", "tracker_announce_alert"),
    ("tracker.error", "tracker_error_alert"),
    ("tracker.reply", "tracker_reply_alert"),
    ("tracker.warning", "tracker_warning_alert"),
    ("peer.unwantedBlock", "unwanted_block_alert"),
    ("torrent.urlSeed", "url_seed_alert"),
    ("rss", "rss_alert")]

/-- The data of an alert that the filter reads: its name, and how much its
torrent has downloaded. -/
structure Alert where
  name : String
  downloadedBytes : Nat
deriving DecidableEq

/-- `eventFilter` of bittorrent.js. -/
def eventFilter (name : String) (alert : Alert) : Bool :=
  !(name = "torrent.finished" && alert.downloadedBytes = 0)

/-- What a callback does with an alert. -/
structure Reaction (σ : Type) where
  script : σ
  registers : List (String × Nat)
  throws : Bool

/-- The behaviour of the registered functions, and the names that `eventMap`
inherits, with the texts they become as property names. -/
structure Scripts (σ : Type) where
  invoke : Nat → Alert → σ → Reaction σ
  inherited : String → Option String
  inherited_other : ∀ name text, inherited name = some text → text ∉ eventMap.map Prod.snd

variable {σ : Type}

/-- The alert an event name stands for. -/
def Scripts.alertOf (scripts : Scripts σ) (name : String) : Option String :=
  (eventMap.lookup name).or (scripts.inherited name)

/-- The callbacks of events.js, the state of the script, and a record of the
registrations made through `session.on`. -/
structure State (σ : Type) where
  callbacks : List (String × List Nat)
  script : σ
  registrations : List (String × Nat)

/-- The callbacks of an alert's name. -/
def State.list (state : State σ) (name : String) : List Nat :=
  (state.callbacks.lookup name).getD []

/-- `events.register`. -/
def register (callbacks : List (String × List Nat)) (name : String) (callback : Nat) :
    List (String × List Nat) :=
  assign name ((callbacks.lookup name).getD [] ++ [callback]) callbacks

/-- `session.on`, which throws on an unknown name and then registers nothing. -/
def on (scripts : Scripts σ) (state : State σ) (registration : String × Nat) : State σ :=
  match scripts.alertOf registration.1 with
  | some name =>
      { state with
        callbacks := register state.callbacks name registration.2
        registrations := state.registrations ++ [registration] }
  | none => state

/-- The state after one callback, with the registrations it made. -/
def after (scripts : Scripts σ) (alert : Alert) (callback : Nat) (state : State σ) : State σ :=
  let reaction := scripts.invoke callback alert state.script
  reaction.registers.foldl (on scripts) { state with script := reaction.script }

/-- The callbacks a delivery has called, in order, and the state it left if it
has ended. -/
structure Delivery (σ : Type) where
  called : List Nat
  ended : Option (State σ)

/-- The loop of the emitter from a position on, for a number of iterations. -/
def emitter (scripts : Scripts σ) (alert : Alert) : Nat → Nat → State σ → Delivery σ
  | 0, _, _ => ⟨[], none⟩
  | iterations + 1, i, state =>
      match (state.list alert.name)[i]? with
      | none => ⟨[], some state⟩
      | some callback =>
          let next := after scripts alert callback state
          if (scripts.invoke callback alert state.script).throws then ⟨[callback], some next⟩
          else
            let rest := emitter scripts alert iterations (i + 1) next
            ⟨callback :: rest.called, rest.ended⟩

/-- What happens in a run: a registration, or the delivery of an alert that ends
within some number of iterations. -/
inductive Event where
  | on (registration : String × Nat)
  | emit (alert : Alert) (iterations : Nat)

/-- A registration, or an alert, whose handling ends or never does. -/
def step (scripts : Scripts σ) (state : State σ) : Event → Option (State σ)
  | .on registration => some (on scripts state registration)
  | .emit alert iterations => (emitter scripts alert iterations 0 state).ended

/-- The callbacks registered for an alert before it, in registration order. -/
def registered (scripts : Scripts σ) (state : State σ) (alert : Alert) : List Nat :=
  (state.registrations.filter fun registration =>
    scripts.alertOf registration.1 = some alert.name).map Prod.snd

/-- Those of them whose event name the filter admits. -/
def admitted (scripts : Scripts σ) (state : State σ) (alert : Alert) : List Nat :=
  (state.registrations.filter fun registration =>
    scripts.alertOf registration.1 = some alert.name ∧ eventFilter registration.1 alert).map Prod.snd

/-- Of the callbacks registered before the alert, its delivery calls those that
are admitted, each once and in order, as soon as it has gone on long enough. -/
def Served (scripts : Scripts σ) (state : State σ) (alert : Alert) : Prop :=
  ∀ iterations, (registered scripts state alert).length ≤ iterations →
    (emitter scripts alert iterations 0 state).called.take (registered scripts state alert).length =
      admitted scripts state alert

/-- None of the callbacks but the last throws when they are called in order. -/
def QuietBeforeLast (scripts : Scripts σ) (alert : Alert) : σ → List Nat → Prop
  | _, [] => True
  | script, callback :: rest =>
      (rest ≠ [] → (scripts.invoke callback alert script).throws = false) ∧
        QuietBeforeLast scripts alert (scripts.invoke callback alert script).script rest

/-- There is no callback to mute, and none that cuts others off. -/
def Undisturbed (scripts : Scripts σ) (state : State σ) (alert : Alert) : Prop :=
  (alert.name = "torrent_finished_alert" → alert.downloadedBytes = 0 →
      registered scripts state alert = []) ∧
    QuietBeforeLast scripts alert state.script (registered scripts state alert)

/-- The callbacks that are called until one throws. -/
def heard (scripts : Scripts σ) (alert : Alert) : σ → List Nat → List Nat
  | _, [] => []
  | script, callback :: rest =>
      let reaction := scripts.invoke callback alert script
      callback :: if reaction.throws then [] else heard scripts alert reaction.script rest

/-- The callbacks of a name are those registered for it, in registration order. -/
def Recorded (scripts : Scripts σ) (state : State σ) : Prop :=
  ∀ name, state.list name =
    (state.registrations.filter fun registration =>
      scripts.alertOf registration.1 = some name).map Prod.snd

section Registering

variable (scripts : Scripts σ)

/-- A registration adds its callback at the end of the list of its alert. -/
theorem list_on (state : State σ) (registration : String × Nat) (name : String) :
    (on scripts state registration).list name =
      state.list name ++ if scripts.alertOf registration.1 = some name then [registration.2]
        else [] := by
  unfold on
  cases known : scripts.alertOf registration.1 with
  | none => simp
  | some own =>
    by_cases same : name = own
    · subst same
      simp [State.list, register]
    · simp [State.list, register, same, Ne.symm same]

/-- A registration leaves the state of the scripts. -/
theorem script_on (state : State σ) (registration : String × Nat) :
    (on scripts state registration).script = state.script := by
  unfold on
  split <;> rfl

/-- A registration is recorded. -/
theorem recorded_on (state : State σ) (registration : String × Nat)
    (recorded : Recorded scripts state) : Recorded scripts (on scripts state registration) := by
  intro name
  rw [list_on, recorded name]
  unfold on
  cases known : scripts.alertOf registration.1 with
  | none => simp
  | some own => by_cases same : own = name <;> simp [known, same]

variable (alert : Alert)

/-- So do many registrations. -/
theorem script_foldl_on (registrations : List (String × Nat)) (state : State σ) :
    (registrations.foldl (on scripts) state).script = state.script := by
  induction registrations generalizing state with
  | nil => rfl
  | cons registration rest ih => rw [List.foldl_cons, ih, script_on]

/-- Registrations go behind those before. -/
theorem list_foldl_on (registrations : List (String × Nat)) (state : State σ) (name : String) :
    state.list name <+: (registrations.foldl (on scripts) state).list name := by
  induction registrations generalizing state with
  | nil => exact List.prefix_refl _
  | cons registration rest ih =>
    refine List.IsPrefix.trans ?_ (ih (on scripts state registration))
    rw [list_on]
    exact List.prefix_append _ _

/-- Many registrations are recorded. -/
theorem recorded_foldl_on (registrations : List (String × Nat)) (state : State σ)
    (recorded : Recorded scripts state) :
    Recorded scripts (registrations.foldl (on scripts) state) := by
  induction registrations generalizing state with
  | nil => exact recorded
  | cons registration rest ih => exact ih _ (recorded_on scripts state registration recorded)

/-- After a callback the script is in the state it left. -/
theorem script_after (callback : Nat) (state : State σ) :
    (after scripts alert callback state).script =
      (scripts.invoke callback alert state.script).script :=
  script_foldl_on scripts _ _

/-- A callback takes none from the list. -/
theorem list_after (callback : Nat) (state : State σ) (name : String) :
    state.list name <+: (after scripts alert callback state).list name :=
  list_foldl_on scripts _
    { state with script := (scripts.invoke callback alert state.script).script } name

/-- What a callback registers is recorded. -/
theorem recorded_after (callback : Nat) (state : State σ) (recorded : Recorded scripts state) :
    Recorded scripts (after scripts alert callback state) :=
  recorded_foldl_on scripts _ { state with script := _ } recorded

end Registering

section Delivering

variable (scripts : Scripts σ) (alert : Alert)

/-- The callbacks that stand in the list when a delivery comes to them are
called until one throws, whatever is registered on the way. -/
theorem called_take (callbacks : List Nat) (iterations i : Nat) (state : State σ)
    (standing : callbacks <+: (state.list alert.name).drop i)
    (enough : callbacks.length ≤ iterations) :
    (emitter scripts alert iterations i state).called.take callbacks.length =
      heard scripts alert state.script callbacks := by
  induction callbacks generalizing iterations i state with
  | nil => simp [heard]
  | cons callback rest ih =>
    cases iterations with
    | zero => simp at enough
    | succ iterations =>
      obtain ⟨more, whole⟩ := standing
      have here : (state.list alert.name)[i]? = some callback := by
        rw [← List.head?_drop, ← whole]
        rfl
      have later : rest <+: ((after scripts alert callback state).list alert.name).drop (i + 1) := by
        have own : rest <+: (state.list alert.name).drop (i + 1) := by
          rw [← List.tail_drop, ← whole]
          exact List.prefix_append _ _
        obtain ⟨extra, grown⟩ := list_after scripts alert callback state alert.name
        rw [← grown, List.drop_append]
        exact own.trans (List.prefix_append _ _)
      have next := ih iterations (i + 1) (after scripts alert callback state) later
        (Nat.le_of_succ_le_succ enough)
      rw [script_after] at next
      rw [emitter, here, heard]
      cases thrown : (scripts.invoke callback alert state.script).throws with
      | true => simp [thrown]
      | false => simp [thrown, next]

/-- All of the callbacks are called exactly when none before the last throws. -/
theorem heard_eq_iff (callbacks : List Nat) (script : σ) :
    heard scripts alert script callbacks = callbacks ↔
      QuietBeforeLast scripts alert script callbacks := by
  induction callbacks generalizing script with
  | nil => simp [heard, QuietBeforeLast]
  | cons callback rest ih =>
    rw [heard, QuietBeforeLast, List.cons.injEq]
    cases thrown : (scripts.invoke callback alert script).throws with
    | true =>
      cases rest with
      | nil => simp [QuietBeforeLast]
      | cons second others => simp
    | false => simp [ih]

/-- The first callback is called in any case. -/
theorem heard_eq_nil_iff (callbacks : List Nat) (script : σ) :
    heard scripts alert script callbacks = [] ↔ callbacks = [] := by
  cases callbacks <;> simp [heard]

/-- A delivery whose callbacks register nothing for its alert ends behind the
last one. -/
theorem emitter_ends (closed : ∀ callback script,
      ∀ registration ∈ (scripts.invoke callback alert script).registers,
        scripts.alertOf registration.1 ≠ some alert.name)
    (iterations i : Nat) (state : State σ) (reached : i ≤ (state.list alert.name).length)
    (enough : (state.list alert.name).length < i + iterations) :
    (emitter scripts alert iterations i state).ended.isSome = true := by
  have same : ∀ (registrations : List (String × Nat)) (state : State σ),
      (∀ registration ∈ registrations, scripts.alertOf registration.1 ≠ some alert.name) →
      (registrations.foldl (on scripts) state).list alert.name = state.list alert.name := by
    intro registrations
    induction registrations with
    | nil => exact fun _ _ => rfl
    | cons registration rest ih =>
      intro state others
      rw [List.foldl_cons, ih _ fun other member => others other (List.mem_cons_of_mem _ member),
        list_on, if_neg (others registration List.mem_cons_self), List.append_nil]
  induction iterations generalizing i state with
  | zero => omega
  | succ iterations ih =>
    rw [emitter]
    cases here : (state.list alert.name)[i]? with
    | none => rfl
    | some callback =>
      simp only
      split
      · rfl
      · have inside := (List.getElem?_eq_some_iff.mp here).1
        have kept : ((after scripts alert callback state).list alert.name).length =
            (state.list alert.name).length :=
          congrArg List.length (same _ _ (closed callback state.script))
        refine ih (i + 1) _ ?_ ?_ <;> omega

/-- A delivery that ends keeps the record of registrations. -/
theorem recorded_emitter (iterations i : Nat) (state final : State σ)
    (recorded : Recorded scripts state)
    (ended : (emitter scripts alert iterations i state).ended = some final) :
    Recorded scripts final := by
  induction iterations generalizing i state with
  | zero => cases ended
  | succ iterations ih =>
    rw [emitter] at ended
    cases here : (state.list alert.name)[i]? with
    | none =>
      rw [here] at ended
      exact Option.some.inj ended ▸ recorded
    | some callback =>
      have next := recorded_after scripts alert callback state recorded
      simp only [here] at ended
      split at ended
      · exact Option.some.inj ended ▸ next
      · exact ih (i + 1) _ next ended

end Delivering

/-- Every step keeps the record. -/
theorem recorded_step (scripts : Scripts σ) (state : State σ) (event : Event) (next : State σ)
    (recorded : Recorded scripts state) (stepped : step scripts state event = some next) :
    Recorded scripts next := by
  cases event with
  | on registration =>
    obtain rfl := Option.some.inj stepped
    exact recorded_on scripts state registration recorded
  | emit alert iterations =>
    exact recorded_emitter scripts alert iterations 0 state next recorded stepped

/-- Only one event name stands for the end of a download. -/
theorem alertOf_finished (scripts : Scripts σ) (name : String)
    (known : scripts.alertOf name = some "torrent_finished_alert") :
    name = "torrent.finished" := by
  have single : eventMap.all (fun entry =>
      decide (entry.2 = "torrent_finished_alert" → entry.1 = "torrent.finished")) = true := by
    decide
  rw [Scripts.alertOf, Option.or_eq_some_iff] at known
  rcases known with own | ⟨_, inherits⟩
  · have entry := List.all_eq_true.mp single _ (mem_of_lookup _ _ _ own)
    simpa using entry
  · exact absurd (by decide) (scripts.inherited_other name _ inherits)

/-- The alert behind `torrent.finished`. -/
theorem alertOf_of_finished (scripts : Scripts σ) :
    scripts.alertOf "torrent.finished" = some "torrent_finished_alert" := by
  have own : eventMap.lookup "torrent.finished" = some "torrent_finished_alert" := by decide
  rw [Scripts.alertOf, own, Option.some_or]

/-- The filter mutes all callbacks of an alert or none. -/
theorem admitted_eq (scripts : Scripts σ) (state : State σ) (alert : Alert) :
    admitted scripts state alert =
      if alert.name = "torrent_finished_alert" ∧ alert.downloadedBytes = 0 then []
      else registered scripts state alert := by
  unfold admitted registered
  split
  · rename_i muted
    rw [List.map_eq_nil_iff, List.filter_eq_nil_iff]
    intro registration _
    simp only [decide_eq_true_eq, not_and, Bool.not_eq_true]
    intro known
    have finished := alertOf_finished scripts registration.1 (by rw [known, muted.1])
    simp [eventFilter, finished, muted.2]
  · rename_i audible
    congr 1
    refine List.filter_congr fun registration _ => ?_
    rw [decide_eq_decide, and_iff_left_iff_imp]
    intro known
    by_cases finished : registration.1 = "torrent.finished"
    · have same : alert.name = "torrent_finished_alert" := by
        rw [finished, alertOf_of_finished] at known
        exact (Option.some.inj known).symm
      have some : alert.downloadedBytes ≠ 0 := fun none => audible ⟨same, none⟩
      simp [eventFilter, some]
    · simp [eventFilter, finished]

/-- An alert is served exactly when it is undisturbed. -/
theorem served_iff (scripts : Scripts σ) (state : State σ) (alert : Alert)
    (recorded : Recorded scripts state) :
    Served scripts state alert ↔ Undisturbed scripts state alert := by
  have calls : ∀ iterations, (registered scripts state alert).length ≤ iterations →
      (emitter scripts alert iterations 0 state).called.take
          (registered scripts state alert).length =
        heard scripts alert state.script (registered scripts state alert) := by
    intro iterations enough
    refine called_take scripts alert _ iterations 0 state ?_ enough
    rw [List.drop_zero, recorded alert.name]
    exact List.prefix_refl _
  have served : Served scripts state alert ↔
      heard scripts alert state.script (registered scripts state alert) =
        admitted scripts state alert := by
    constructor
    · intro all
      rw [← calls _ (Nat.le_refl _)]
      exact all _ (Nat.le_refl _)
    · intro same iterations enough
      rw [calls iterations enough, same]
  rw [served, admitted_eq, Undisturbed]
  split
  · rename_i muted
    rw [heard_eq_nil_iff]
    constructor
    · intro none
      rw [none]
      exact ⟨fun _ _ => rfl, trivial⟩
    · exact fun undisturbed => undisturbed.1 muted.1 muted.2
  · rename_i audible
    rw [heard_eq_iff]
    exact ⟨fun quiet => ⟨fun finished none => absurd ⟨finished, none⟩ audible, quiet⟩, And.right⟩

/-- A guard on the alerts of a run. -/
def OnAlerts (guard : State σ → Alert → Prop) (state : State σ) : Event → Prop
  | .on _ => True
  | .emit alert _ => guard state alert

/-- Before any registration. -/
def start (script : σ) : State σ := ⟨[], script, []⟩

/-- In a run from no registrations every alert is served exactly when every
alert is undisturbed: it is no finished torrent without a download that has
callbacks, and none of its callbacks but the last throws. -/
theorem delivered_iff_undisturbed (scripts : Scripts σ) (script : σ) (events : List Event) :
    Guarded (step scripts) (OnAlerts (Served scripts)) (start script) events ↔
      Guarded (step scripts) (OnAlerts (Undisturbed scripts)) (start script) events := by
  have agree : ∀ state event, Recorded scripts state →
      (OnAlerts (Served scripts) state event ↔ OnAlerts (Undisturbed scripts) state event) := by
    intro state event recorded
    cases event with
    | on registration => exact Iff.rfl
    | emit alert iterations => exact served_iff scripts state alert recorded
  have initial : Recorded scripts (start script) := fun name => rfl
  exact guarded_congr (recorded_step scripts) agree events (start script) initial

/-- Two callbacks of which the first throws. -/
def throwing : Scripts Unit where
  invoke callback _ _ := ⟨(), [], callback == 0⟩
  inherited _ := none
  inherited_other _ _ none := by cases none

/-- A callback behind one that throws is not called. -/
theorem throwing_callback_cuts_off :
    ¬ Guarded (step throwing) (OnAlerts (Served throwing)) (start ())
      [.on ("rss", 0), .on ("rss", 1), .emit ⟨"rss_alert", 0⟩ 3] := by
  intro guarded
  have served : Served throwing
      (on throwing (on throwing (start ()) ("rss", 0)) ("rss", 1)) ⟨"rss_alert", 0⟩ :=
    ((guarded.2 _ rfl).2 _ rfl).1
  exact absurd (served 3 (by decide)) (by decide)

end Hadouken.Events
