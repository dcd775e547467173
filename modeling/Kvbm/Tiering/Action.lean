/-
The record the engine keeps of a transfer.

A load or a save of a request is an action.  The engine keeps a record of it until the
handle has been dropped and the transfer has ended, whichever comes later; while the
record is there, an eviction or the end of the request can hang a barrier on it.  This
file is what one critical section does to a record.

The in-flight hash table and the cancellation token are not modelled: a token only lets the
logical terminal of a load come at once, and here it can come at any time.
-/
import Kvbm.Index.Basic

namespace Kvbm.Tiering

abbrev RequestId := Nat

abbrev ActionId := Nat

/-- A shared barrier, by the order in which they are minted. -/
abbrev BarrierId := Nat

abbrev LogicalResourceId := Nat

inductive ActionFailure
  | allBlocks
  | partially (blockIds : List BlockId)
  | resource (resource : LogicalResourceId) (blockIds : Option (List BlockId))
  deriving DecidableEq, Repr

inductive ActionStatus
  | pending
  | complete
  | failed (failure : ActionFailure)
  deriving DecidableEq, Repr

inductive LoadOutcome
  | done
  | failedPartial (blockIds : List BlockId)
  deriving DecidableEq, Repr

def loadOutcomeOf : ActionStatus → LoadOutcome
  | .pending => .done
  | .complete => .done
  | .failed .allBlocks => .failedPartial []
  | .failed (.partially blockIds) => .failedPartial blockIds
  | .failed (.resource _ blockIds) => .failedPartial (blockIds.getD [])

/-- A load that fails as a whole names the blocks it was to fill. -/
def ActionStatus.resolve (destIds : List BlockId) : ActionStatus → ActionStatus
  | .failed .allBlocks => .failed (.partially destIds)
  | .failed (.resource r none) => .failed (.resource r (some destIds))
  | other => other

inductive LoadTerminalState
  | pending
  /-- The handle is terminal, and the worker is told after the physical terminal. -/
  | deferred (outcome : LoadOutcome)
  | settled
  deriving DecidableEq, Repr

inductive SaveTerminalState
  | pending
  | settled
  deriving DecidableEq, Repr

inductive ActionKind
  | load (terminal : LoadTerminalState)
  | save (terminal : SaveTerminalState)
  deriving DecidableEq, Repr

structure ActionRecord where
  requestId : RequestId
  fence : Option BarrierId
  drain : Option BarrierId
  droppedByHandle : Bool
  /-- The record has a key in the in-flight table. -/
  inflight : Bool
  physicalPending : Bool
  kind : ActionKind
  deriving DecidableEq, Repr

namespace ActionRecord

def new (requestId : RequestId) : ActionRecord :=
  ⟨requestId, none, none, false, false, false, .load .pending⟩

def newSave (requestId : RequestId) : ActionRecord :=
  ⟨requestId, none, none, false, false, false, .save .pending⟩

variable (r : ActionRecord)

def withInflight : ActionRecord := { r with inflight := true }

def withPhysicalDrain : ActionRecord := { r with physicalPending := true }

def hasPendingPhysicalWork : Bool := r.physicalPending || r.kind = .save .pending

/-- `cell` is what the record's weak reference gives: nothing once the handle is gone. -/
def hasPendingWork (cell : Option ActionStatus) : Bool :=
  cell = some .pending || r.hasPendingPhysicalWork

def mustRetainAfterHandleDrop (cell : Option ActionStatus) : Bool :=
  r.fence.isSome || r.drain.isSome || r.hasPendingPhysicalWork ||
    (r.inflight && r.hasPendingWork cell)

/-- An eviction or a drain is armed, and the worker is not told of the load. -/
def suppressTerminal : Bool := r.fence.isSome || r.drain.isSome

end ActionRecord

/-! ### What is left to do after the lock of a record has been released -/

inductive Effect
  /-- Tell the worker. -/
  | markLoadFinished (outcome : LoadOutcome)
  /-- Drop a clone of a barrier. -/
  | dropClone (barrier : BarrierId)
  /-- Publish the end of the physical work to the leader. -/
  | physicalDrain
  /-- `remove_action_record`. -/
  | removeActionRecord
  /-- Its second half, which follows if there was a record. -/
  | untrackAction
  /-- The handle's fields go: the completion cell with them. -/
  | freeCell
  deriving DecidableEq, Repr

/-- The clones that are taken from a record, or go with it, in the order they are dropped in. -/
def ActionRecord.dropClones (r : ActionRecord) : List Effect :=
  (r.fence.toList ++ r.drain.toList).map .dropClone

/-- A terminal is the last owner of a record whose handle has been dropped. -/
def ActionRecord.removeNow (r : ActionRecord) : List Effect :=
  if r.droppedByHandle then [.removeActionRecord] else []

/-- What a terminal does with a record under its lock. -/
inductive Terminal
  /-- It came before. -/
  | duplicate
  /-- The action goes on: for a load whose physical work is pending, this is its logical half. -/
  | updated (r : ActionRecord)
  /-- The last terminal of the action. -/
  | last (r : ActionRecord) (rest : List Effect)
  deriving DecidableEq, Repr

namespace ActionRecord

variable (r : ActionRecord)

/-- The clones have been taken. -/
def disarm : ActionRecord := { r with fence := none, drain := none }

/-- `finish_load_action`. -/
def finishLoad (outcome : ActionStatus) : Terminal :=
  if r.kind ≠ .load .pending then .duplicate
  else if r.physicalPending then
    .updated { r with
      kind := .load (if r.suppressTerminal then .settled else .deferred (loadOutcomeOf outcome)) }
  else
    .last { r.disarm with kind := .load .settled }
      ((if r.suppressTerminal then [] else [.markLoadFinished (loadOutcomeOf outcome)]) ++
        r.dropClones ++ r.removeNow)

/-- `finish_physical_load_action`. -/
def finishPhysicalLoad : Terminal :=
  match r.kind with
  | .save _ => .updated { r with physicalPending := false }
  | .load prior =>
    let (kind, notify) : LoadTerminalState × List Effect :=
      match prior with
      | .deferred outcome =>
        (.settled, if r.suppressTerminal then [] else [.markLoadFinished outcome])
      | .pending => (.pending, [])
      | .settled => (.settled, [])
    .last { r.disarm with physicalPending := false, kind := .load kind }
      (r.dropClones ++ [.physicalDrain] ++ notify ++ r.removeNow)

/-- `finish_save_action`, with `settle_save_once`. -/
def finishSave : Terminal :=
  match r.kind with
  | .load _ => .duplicate
  | .save .settled => .duplicate
  | .save .pending =>
    .last { r.disarm with kind := .save .settled } (r.dropClones ++ r.removeNow)

end ActionRecord

end Kvbm.Tiering
