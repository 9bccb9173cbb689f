import Hadouken.Library.Batches
import Hadouken.Library.QueueMoves
import Hadouken.MetadataStore
import Hadouken.TorrentFiles

/-!
# Actions on torrents

`webui.perform` takes one torrent of its list after the other. An unknown hash or
an unknown action makes it throw; what was done before stays done.

A hash in a request stands for the text that spells it. Of the library, the
torrents, their queue and the checks that were asked for are modelled: pauses and
resumes take effect at once, and a check ends in an alert of its own.
-/

namespace Hadouken.Perform

open Script MetadataStore QueueMoves TorrentFiles Batches

/-- What the actions change of a torrent. -/
structure Torrent where
  autoManaged : Bool
  paused : Bool
  hasMetadata : Bool
  /-- The checks that have not ended. -/
  checks : Nat
deriving DecidableEq

/-- The session with the torrents in its queue, the metadata store, and what was
removed, with or without its data. -/
structure Session where
  torrents : InfoHash → Option Torrent
  queue : List InfoHash
  nodup : queue.Nodup
  present : ∀ hash ∈ queue, (torrents hash).isSome = true
  store : Store
  removed : List (InfoHash × Bool)

/-- The actions of `webui.perform`. -/
inductive Action where
  | forcestart
  | pause
  | queuebottom
  | queuedown
  | queuetop
  | queueup
  | recheck
  | remove
  | removedata
  | start
deriving DecidableEq

/-- The cases of the switch. -/
def Action.parse (action : String) : Option Action :=
  if action = "forcestart" then some .forcestart
  else if action = "pause" then some .pause
  else if action = "queuebottom" then some .queuebottom
  else if action = "queuedown" then some .queuedown
  else if action = "queuetop" then some .queuetop
  else if action = "queueup" then some .queueup
  else if action = "recheck" then some .recheck
  else if action = "remove" then some .remove
  else if action = "removedata" then some .removedata
  else if action = "start" then some .start
  else none

namespace Session

/-- The session after a change of one torrent. -/
def update (session : Session) (hash : InfoHash) (torrent : Torrent) : Session :=
  { session with
    torrents := Function.update session.torrents hash (some torrent)
    present := by
      intro other queued
      by_cases same : other = hash
      · simp [same]
      · simpa [Function.update_of_ne same] using session.present other queued }

/-- The session after one move in its queue. -/
def moveQueue (session : Session) (move : Move) (hash : InfoHash) : Session :=
  { session with
    queue := move.apply hash session.queue
    nodup := (apply_perm move hash session.queue).nodup_iff.mpr session.nodup
    present := fun other queued =>
      session.present other ((apply_perm move hash session.queue).mem_iff.mp queued) }

/-- `session.removeTorrent`. -/
def removeTorrent (session : Session) (hash : InfoHash) (data : Bool) : Session :=
  { session with
    torrents := Function.update session.torrents hash none
    queue := session.queue.filter (· ≠ hash)
    nodup := session.nodup.filter _
    present := by
      intro other queued
      obtain ⟨inside, different⟩ := List.mem_filter.mp queued
      rw [Function.update_of_ne (by simpa using different)]
      exact session.present other inside
    removed := session.removed ++ [(hash, data)] }

/-- `torrent.metadata("_pauseAfterRecheck", true)`. -/
def markPause (session : Session) (hash : InfoHash) : Session :=
  { session with
    store := (setMetadata session.store hash.text pauseKey (.boolean true)).getD session.store }

/-- `torrent.metadata("_pauseAfterRecheck")`, as a condition. -/
def marked (session : Session) (hash : InfoHash) : Bool :=
  (metadataOf session.store hash.text pauseKey).truthy

/-- `perform`, on a torrent of the session. -/
def perform (session : Session) (hash : InfoHash) (torrent : Torrent) : Action → Session
  | .forcestart => session.update hash { torrent with autoManaged := false, paused := false }
  | .pause => session.update hash { torrent with paused := true }
  | .queuebottom => session.moveQueue .bottom hash
  | .queuedown => session.moveQueue .down hash
  | .queuetop => session.moveQueue .top hash
  | .queueup => session.moveQueue .up hash
  | .recheck =>
      if torrent.hasMetadata then
        let checks := torrent.checks + 1
        if torrent.paused ∧ torrent.autoManaged = false then
          (session.markPause hash).update hash { torrent with paused := false, checks := checks }
        else session.update hash { torrent with checks := checks }
      else session
  | .remove => session.removeTorrent hash false
  | .removedata => session.removeTorrent hash true
  | .start => session.update hash { torrent with paused := false }

/-- One round of the loop. It has no result where it throws. -/
def performOne (action : String) (session : Session) (hash : InfoHash) : Option Session := do
  let torrent ← session.torrents hash
  let action ← Action.parse action
  return session.perform hash torrent action

end Session

/-- The method of `webui.perform`. -/
def method (action : String) (hashList : List InfoHash) (session : Session) : Session × Bool :=
  each (Session.performOne action) hashList session

/-- The mark is read back where it was set, and no other torrent is marked. -/
theorem Session.marked_markPause (session : Session) (hash other : InfoHash) :
    (session.markPause hash).marked other = if other = hash then true else session.marked other := by
  obtain ⟨written, wrote, elsewhere, _, read⟩ := setMetadata_spec session.store hash.text pauseKey
    (.boolean true) (.boolean true) (by decide) rfl
  simp only [marked, markPause, wrote, Option.getD_some]
  by_cases same : other = hash
  · subst same
    simp [metadataOf, read, Json.toValue, Value.truthy]
  · rw [if_neg same]
    simp only [metadataOf, elsewhere other.text (InfoHash.text_ne same)]

end Hadouken.Perform
