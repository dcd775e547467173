/-
Cancellation of an offload transfer.

A transfer is carried by units of work, which one gate counts.  A request for cancellation
either comes before the transfer has been committed, or makes the committed work drain.
The last unit reports the result of the transfer before it is released.

A step is one critical section, of the gate or of the transfer's state, or the run of a
terminal action, which holds neither lock.  Where a unit is in its destructor, or between
two critical sections of one call, is its phase.  An assertion that fails while the gate
is locked ends the program; here the step is not taken.
-/
import Kvbm.Index.Basic

namespace Kvbm.Offload

/-! ### The gate -/

inductive CancelState
  | active
  | requested
  | draining (inFlight : Nat)
  | confirmed
  deriving DecidableEq, Repr

inductive CommitmentPhase
  | opened
  | committed
  | cancelled
  deriving DecidableEq, Repr

structure CommitmentGate where
  phase : CommitmentPhase
  cancelRequested : Bool
  rootIssued : Bool
  outstandingUnits : Nat
  deriving DecidableEq, Repr

namespace CommitmentGate

def new : CommitmentGate := ⟨.opened, false, false, 0⟩

variable (g : CommitmentGate)

/-- What `publish_state` sends. -/
def state : CancelState :=
  if !g.cancelRequested then .active
  else if g.outstandingUnits = 0 then .confirmed
  else
    match g.phase with
    | .opened => .requested
    | .cancelled => .requested
    | .committed => .draining g.outstandingUnits

def request : CommitmentGate :=
  { g with
    cancelRequested := true
    phase := if g.phase = .opened then .cancelled else g.phase }

/-- Whether the claim wins, and the gate after it. -/
def claimCommitment : Option (Bool × CommitmentGate) :=
  if 0 < g.outstandingUnits then
    match g.phase with
    | .opened => some (true, { g with phase := .committed })
    | .committed => some (true, g)
    | .cancelled => some (false, g)
  else none

def rootUnit : Option CommitmentGate :=
  if g.phase ≠ .opened ∨ g.rootIssued then none
  else some { g with rootIssued := true, outstandingUnits := g.outstandingUnits + 1 }

def releaseUnit : Option CommitmentGate :=
  if 0 < g.outstandingUnits then some { g with outstandingUnits := g.outstandingUnits - 1 }
  else none

/-- Whether the unit is the last, which is not released. -/
def releaseNonfinalUnit : Option (Bool × CommitmentGate) :=
  if 0 < g.outstandingUnits then
    if g.outstandingUnits = 1 then some (true, g)
    else some (false, { g with outstandingUnits := g.outstandingUnits - 1 })
  else none

def fanOut (targetCount : Nat) : Option CommitmentGate :=
  if g.phase = .committed ∧ 0 < g.outstandingUnits then
    some { g with outstandingUnits := g.outstandingUnits - 1 + targetCount }
  else none

end CommitmentGate

/-! ### The state of the transfer -/

inductive TransferStatus
  | evaluating
  | queued
  | transferring
  | complete
  | cancelled
  | failed
  deriving DecidableEq, Repr

def TransferStatus.isTerminal : TransferStatus → Bool
  | .complete => true
  | .cancelled => true
  | .failed => true
  | _ => false

/-- What the terminal action reads and writes. -/
structure TransferState where
  status : TransferStatus
  committed : Bool
  failed : List BlockId
  error : Option String
  deriving DecidableEq, Repr

namespace TransferState

def new : TransferState := ⟨.evaluating, false, [], none⟩

variable (t : TransferState)

def recordError (error : String) : TransferState :=
  if t.status.isTerminal || t.error.isSome then t else { t with error := some error }

def markFailed (ids : List BlockId) : TransferState := { t with failed := t.failed ++ ids }

def setCancelled : TransferState :=
  if t.committed || t.status.isTerminal then t else { t with status := .cancelled }

/-- The result that is published, if none has been yet. -/
def finishLogicalOperation : Option TransferStatus × TransferState :=
  if t.status.isTerminal then (none, t)
  else
    let status := if t.error.isSome || !t.failed.isEmpty then .failed else .complete
    (some status, { t with status := status })

end TransferState

/-- `ABANDONED_COMMITTED_ROUTE_ERROR`. -/
def abandonedCommittedRouteError : String := "committed offload route dropped before settlement"

/-! ### Units -/

abbrev UnitId := Nat

/-- The terminal action of a settlement: that of `settle_transfer_unit`, or one that leaves the
transfer's state alone. -/
inductive OnLast
  | finish
  | other
  deriving DecidableEq, Repr

/-- How a terminal action ends; one that panics may have done its work before. -/
inductive Outcome
  | returned
  | panicked (ran : Bool)
  deriving DecidableEq, Repr

inductive UnitPhase
  /-- Owned by a container, a batch or a route. -/
  | held
  /-- Its route has failed, and the settlement follows. -/
  | failing (onLast : OnLast)
  /-- It is the last unit, and its terminal action follows. -/
  | last (onLast : OnLast)
  /-- Its destructor has still to ask whether the work is committed. -/
  | dropping
  /-- It was dropped although it is committed and not settled. -/
  | abandoned
  /-- The error of the abandoned route has been recorded. -/
  | recorded
  /-- It was abandoned, it is the last, and the result has still to be published. -/
  | lastAbandoned
  /-- It has only to be released. -/
  | releasing
  /-- It has been released, or replaced by others. -/
  | gone
  deriving DecidableEq, Repr

/-- A terminal action that was carried out: for a result that was published, its status, and
whether a route had failed or been abandoned before. -/
inductive Terminal
  | published (status : TransferStatus) (troubled : Bool)
  | other
  deriving DecidableEq, Repr

structure State where
  gate : CommitmentGate
  /-- What the watchers see. -/
  published : CancelState
  /-- Units carry a `TransferState`. -/
  bound : Bool
  units : List UnitPhase
  transfer : TransferState
  /-- A route has failed or been abandoned. -/
  troubled : Bool
  terminals : List Terminal
  deriving DecidableEq, Repr

inductive Op
  | request
  | rootUnit
  | claimCommitment (u : UnitId)
  | fanOut (u : UnitId) (targetCount : Nat)
  | settle (u : UnitId) (onLast : OnLast)
  /-- `fail_transfer_unit`, which settles after it has recorded the error. -/
  | failTransferUnit (u : UnitId) (error : String)
  | markFailed (u : UnitId) (ids : List BlockId)
  | markCommitted (u : UnitId)
  /-- A container finds that cancellation has won. -/
  | setCancelled (u : UnitId)
  /-- The unit goes out of scope. -/
  | drop (u : UnitId)
  /-- The next step of a call on the unit; `outcome` is that of a terminal action. -/
  | advance (u : UnitId) (outcome : Outcome)
  deriving DecidableEq, Repr

namespace State

def new (bound : Bool) : State where
  gate := .new
  published := .active
  bound := bound
  units := []
  transfer := .new
  troubled := false
  terminals := []

variable (s : State)

/-- A critical section of the gate ends with `publish_state`. -/
def setGate (g : CommitmentGate) : State := { s with gate := g, published := g.state }

def setUnit (u : UnitId) (phase : UnitPhase) : State := { s with units := s.units.set u phase }

def recordError (s : State) (error : String) : State :=
  { s with transfer := s.transfer.recordError error, troubled := true }

/-- `finish_logical_operation`. -/
def finish : State :=
  let (result, transfer) := s.transfer.finishLogicalOperation
  { s with
    transfer := transfer
    terminals := s.terminals ++ result.toList.map (.published · s.troubled) }

/-- `release_nonfinal_unit`, for a unit that goes on to `last` when it is the last. -/
def releaseNonfinalUnit (s : State) (u : UnitId) (last : UnitPhase) : Option State :=
  s.gate.releaseNonfinalUnit.map fun
    | (true, _) => s.setUnit u last
    | (false, g) => (s.setGate g).setUnit u .gone

/-- Run the terminal action of the last unit. -/
def runOnLast (onLast : OnLast) : Outcome → State
  | .returned =>
    match onLast with
    | .finish => s.finish
    | .other => { s with terminals := s.terminals ++ [.other] }
  | .panicked true =>
    match onLast with
    | .finish => s.finish
    | .other => s
  | .panicked false => s

/-- A unit whose action has returned is settled; one whose action panics is dropped. -/
def afterOnLast : Outcome → UnitPhase
  | .returned => .releasing
  | .panicked _ => .dropping

def advance (u : UnitId) (outcome : Outcome) : Option State :=
  match s.units[u]? with
  | some (.failing onLast) => s.releaseNonfinalUnit u (.last onLast)
  | some (.last onLast) => some ((s.runOnLast onLast outcome).setUnit u (afterOnLast outcome))
  | some .dropping =>
    if s.bound ∧ s.gate.phase = .committed then some (s.setUnit u .abandoned)
    else some (s.setUnit u .releasing)
  | some .abandoned => some ((s.recordError abandonedCommittedRouteError).setUnit u .recorded)
  | some .recorded => s.releaseNonfinalUnit u .lastAbandoned
  | some .lastAbandoned => some (s.finish.setUnit u .releasing)
  | some .releasing => s.gate.releaseUnit.map fun g => (s.setGate g).setUnit u .gone
  | _ => none

/-- The unit is owned by somebody. -/
def holds (u : UnitId) : Bool := s.units[u]? = some .held

def step : Op → Option State
  | .request => some (s.setGate s.gate.request)
  | .rootUnit =>
    match s.gate.rootUnit with
    | none => some s
    | some g => some { s.setGate g with units := s.units ++ [.held] }
  | .claimCommitment u =>
    if s.holds u then s.gate.claimCommitment.map fun r => s.setGate r.2 else none
  | .fanOut u n =>
    if s.holds u then
      -- a route to nowhere panics before it takes the lock
      if n = 0 then some (s.setUnit u .dropping)
      else
        (s.gate.fanOut n).map fun g =>
          { s.setGate g with units := s.units.set u .gone ++ List.replicate n .held }
    else none
  | .settle u onLast => if s.holds u then s.releaseNonfinalUnit u (.last onLast) else none
  | .failTransferUnit u error =>
    if s.holds u then some ((s.recordError error).setUnit u (.failing .finish)) else none
  | .markFailed u ids =>
    if s.holds u then
      some { s with transfer := s.transfer.markFailed ids, troubled := s.troubled || !ids.isEmpty }
    else none
  | .markCommitted u =>
    if s.holds u ∧ s.gate.phase = .committed then
      some { s with transfer.committed := true }
    else none
  | .setCancelled u =>
    if s.holds u ∧ s.gate.phase = .cancelled then
      some { s with transfer := s.transfer.setCancelled }
    else none
  | .drop u => if s.holds u then some (s.setUnit u .dropping) else none
  | .advance u outcome => s.advance u outcome

end State

end Kvbm.Offload
