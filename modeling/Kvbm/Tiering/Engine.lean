/-
The barriers of an eviction and of the end of a request.

An eviction hangs one shared barrier on every action of the request that is still pending,
and so does the commit of the request's drain.  A terminal takes the clones its record
holds and drops them; the drop of the last clone of a barrier tells the workers.

A step is one critical section of an action's record, or one thing that is done between two
of them: a drop of a clone, a call of the sink.  The calls that create actions, evict and
commit come one after another for each request, so creating an action is one step; an
eviction or a commit is a loop whose visits are steps of their own.  A save runs from its
start to its terminal, however it is buffered, flushed and submitted in between.

Who waits for what is recorded in `Call.found` and `Call.since`, which the engine does not
have and nothing reads.
-/
import Kvbm.Lib.Shared
import Kvbm.Tiering.Action

namespace Kvbm.Tiering

/-- The transfer an action stands for. -/
inductive Work
  /-- `local_onboard`, `cd_onboard` and the other loads without a physical drain. -/
  | load
  /-- A bundle load, which drains physically. -/
  | bundle
  | save
  deriving DecidableEq, Repr

def Work.record (req : RequestId) : Work → ActionRecord
  | .load => .new req
  | .bundle => (ActionRecord.new req).withInflight.withPhysicalDrain
  | .save => .newSave req

/-- Where the driver of the transfer is. -/
inductive Driver
  | running
  /-- The logical terminal has come, and the physical one has not. -/
  | draining
  /-- The last terminal has come; the rest of its call follows. -/
  | settled (rest : List Effect)
  deriving DecidableEq, Repr

inductive Handle
  | held
  /-- `release_action` has looked at the record; the rest of the drop follows. -/
  | released (rest : List Effect)
  deriving DecidableEq, Repr

structure Action where
  work : Work
  requestId : RequestId
  record : Option ActionRecord
  /-- Content of the completion cell, which the handle owns. -/
  status : ActionStatus
  handle : Handle
  driver : Driver
  deriving DecidableEq, Repr

namespace Action

def start (work : Work) (req : RequestId) : Action :=
  ⟨work, req, some (work.record req), .pending, .held, .running⟩

variable (x : Action)

def cellAlive : Bool :=
  match x.handle with
  | .held => true
  | .released rest => .freeCell ∈ rest

/-- The upgrade of the record's weak reference. -/
def cell : Option ActionStatus := if x.cellAlive then some x.status else none

/-- The last terminal of the transfer has not come. -/
def undrained : Bool :=
  match x.driver with
  | .settled _ => false
  | _ => true

/-- The calls of its driver have returned. -/
def finished : Bool := x.driver = .settled []

/-- Write a terminal status through the weak reference. -/
def writeCell (outcome : ActionStatus) : Action :=
  if x.cellAlive then { x with status := outcome } else x

end Action

/-! ### Barriers -/

structure FenceToken where
  /-- Fresh for every eviction. -/
  generation : BarrierId
  rank : Nat
  deriving DecidableEq, Repr

/-- Calls of the worker sink. -/
inductive Signal
  | markLoadFinished (req : RequestId) (outcome : LoadOutcome)
  | markFenceComplete (token : FenceToken)
  /-- The drain that emits it is not part of the call. -/
  | markSaveFinished (req : RequestId) (drain : BarrierId)
  deriving DecidableEq, Repr

inductive BarrierKind
  | fence (tokens : List FenceToken)
  | drain (requestId : RequestId)
  deriving DecidableEq, Repr

/-- A barrier with the number of its clones. -/
abbrev Barrier := Lib.Shared BarrierKind

/-- What the drop of the barrier emits. -/
def BarrierKind.signals (b : BarrierId) : BarrierKind → List Signal
  | .fence tokens => tokens.map .markFenceComplete
  | .drain req => [.markSaveFinished req b]

/-- The tokens of an eviction: one for each worker, and at least one. -/
def fenceTokens (b : BarrierId) (workerCount : Nat) : List FenceToken :=
  (List.range (max workerCount 1)).map fun rank => ⟨b, rank⟩

/-! ### The engine -/

inductive CallKind
  | evict
  | commit
  deriving DecidableEq, Repr

/-- A call of `evict` or `arm_drain_emission`. -/
structure Call where
  kind : CallKind
  requestId : RequestId
  /-- Actions its loop has still to visit. -/
  todo : List ActionId
  barrier : Option BarrierId
  /-- The tokens of the fence it has returned. -/
  returned : Option (List FenceToken)
  /-- Actions there were when it began. -/
  since : Nat
  /-- Actions it found undrained, and that no eviction before had found so. -/
  found : List ActionId
  deriving DecidableEq, Repr

structure Engine where
  workerCount : Nat
  actions : List Action
  byRequest : RequestId → List ActionId
  /-- Requests that have offloaded and whose drain has not been taken. -/
  offloadDrains : List RequestId
  /-- Drains that were taken and are not committed yet. -/
  taken : List RequestId
  barriers : List Barrier
  calls : List Call
  sink : List Signal

inductive Op
  | start (work : Work) (req : RequestId)
  | finishLoad (a : ActionId) (outcome : ActionStatus) (destIds : List BlockId)
  | finishPhysicalLoad (a : ActionId)
  | finishSave (a : ActionId) (outcome : ActionStatus)
  /-- The next thing the driver does. -/
  | driver (a : ActionId)
  /-- The handle is dropped: `release_action` looks at the record. -/
  | releaseAction (a : ActionId)
  /-- The next thing the drop of the handle does. -/
  | handle (a : ActionId)
  | takeOffloadDrain (req : RequestId)
  | evict (req : RequestId)
  | commit (req : RequestId)
  /-- The loop of a call visits an action. -/
  | visit (c : Nat)
  /-- A call returns. -/
  | leave (c : Nat)
  deriving DecidableEq, Repr

namespace Engine

def new (workerCount : Nat) : Engine := ⟨workerCount, [], fun _ => [], [], [], [], [], []⟩

variable (s : Engine)

def setAction (a : ActionId) (x : Action) : Engine := { s with actions := s.actions.set a x }

def setCall (c : Nat) (x : Call) : Engine := { s with calls := s.calls.set c x }

def emit (signals : List Signal) : Engine := { s with sink := s.sink ++ signals }

/-- Drop one clone of a barrier; the drop of the last one calls the sink. -/
def dropClone (b : BarrierId) : Engine :=
  let (barriers, signals) := Lib.dropShared BarrierKind.signals s.barriers b
  { s with barriers := barriers, sink := s.sink ++ signals }

def clone (b : BarrierId) : Engine := { s with barriers := Lib.addClone s.barriers b }

def mint (kind : BarrierKind) : Engine := { s with barriers := Lib.mintShared s.barriers kind }

/-- No call for the request is under way. -/
def quiet (req : RequestId) : Bool := s.calls.all fun x => x.requestId ≠ req || x.returned.isSome

/-- One thing that is done outside of a record's lock, and what it adds to do. -/
def perform (a : ActionId) (x : Action) : Effect → Engine × Action × List Effect
  | .markLoadFinished outcome => (s.emit [.markLoadFinished x.requestId outcome], x, [])
  | .dropClone b => (s.dropClone b, x, [])
  | .physicalDrain => (s, x, [])
  | .removeActionRecord =>
    match x.record with
    | none => (s, x, [])
    -- the clones go with the record
    | some r => (s, { x with record := none }, .untrackAction :: r.dropClones)
  | .untrackAction =>
    ({ s with
      byRequest := Function.update s.byRequest x.requestId
        ((s.byRequest x.requestId).filter (· ≠ a)) }, x, [])
  | .freeCell => (s, x, [])

/-- The terminal of an action, with its record if there is one. -/
def settle (a : ActionId) (x : Action) (outcome : Option ActionStatus) : Terminal → Engine
  | .duplicate => s
  | .updated r =>
    s.setAction a { outcome.elim x x.writeCell with record := some r, driver := .draining }
  | .last r rest =>
    s.setAction a { outcome.elim x x.writeCell with record := some r, driver := .settled rest }

/-- Arm an action, if it is pending and has no barrier of this kind. -/
def arm (a : ActionId) (x : Action) (r : ActionRecord) (call : Call) : Engine × Option BarrierId :=
  match call.kind with
  | .evict =>
    if r.hasPendingWork x.cell && r.fence.isNone then
      match call.barrier with
      | some b => ((s.clone b).setAction a { x with record := some { r with fence := b } }, some b)
      | none =>
        let b := s.barriers.length
        (((s.mint (.fence (fenceTokens b s.workerCount))).clone b).setAction a
          { x with record := some { r with fence := b } }, some b)
    else (s, call.barrier)
  | .commit =>
    match call.barrier with
    | some b =>
      if r.hasPendingWork x.cell && r.drain.isNone then
        ((s.clone b).setAction a { x with record := some { r with drain := b } }, some b)
      else (s, some b)
    | none => (s, none)

/-- An eviction before has found the action undrained. -/
def evicted (a : ActionId) : Bool := s.calls.any fun x => x.kind = .evict && x.found.contains a

/-- The actions a call has found, after it has visited another. -/
def findings (a : ActionId) (x : Action) (call : Call) : List ActionId :=
  if x.undrained && (call.kind = .commit || !s.evicted a) then call.found ++ [a] else call.found

def visit (c : Nat) (call : Call) (a : ActionId) (todo : List ActionId) : Engine :=
  match s.actions[a]? with
  | none => s.setCall c { call with todo := todo }
  | some x =>
    let call := { call with todo := todo, found := s.findings a x call }
    match x.record with
    | none => s.setCall c call
    | some r =>
      let (s, barrier) := s.arm a x r call
      s.setCall c { call with barrier := barrier }

/-- The fence that a call returns. -/
def outcome (call : Call) : List FenceToken :=
  match call.barrier.bind (s.barriers[·]?) with
  | some ⟨.fence tokens, _⟩ => tokens
  | _ => []

/-- The end of a call, with the drop of the clone that guarded its loop. -/
def leave (c : Nat) (call : Call) : Engine :=
  let s := s.setCall c { call with returned := some (s.outcome call) }
  call.barrier.elim s s.dropClone

def step : Op → Option Engine
  | .start work req =>
    if s.quiet req then
      let a := s.actions.length
      some { s with
        actions := s.actions ++ [.start work req]
        byRequest := Function.update s.byRequest req (s.byRequest req ++ [a])
        offloadDrains := if work = .save then s.offloadDrains.insert req else s.offloadDrains }
    else none
  | .finishLoad a outcome destIds =>
    match s.actions[a]? with
    | none => none
    | some x =>
      if x.work = .save ∨ outcome = .pending then none
      else
        let outcome := outcome.resolve destIds
        match x.record with
        | some r => some (s.settle a x outcome (r.finishLoad outcome))
        | none =>
          let s := s.emit [.markLoadFinished x.requestId (loadOutcomeOf outcome)]
          if x.driver = .running then some (s.setAction a { x with driver := .settled [] })
          else some s
  | .finishPhysicalLoad a =>
    match s.actions[a]? with
    | none => none
    | some x =>
      if x.driver = .draining then
        match x.record with
        | some r => some (s.settle a x none r.finishPhysicalLoad)
        | none => some (s.setAction a { x with driver := .settled [.physicalDrain] })
      else none
  | .finishSave a outcome =>
    match s.actions[a]? with
    | none => none
    | some x =>
      if x.work ≠ .save ∨ outcome = .pending then none
      else
        match x.record with
        | some r => some (s.settle a x outcome r.finishSave)
        | none =>
          if x.driver = .running then some (s.setAction a { x with driver := .settled [] })
          else some s
  | .driver a =>
    match s.actions[a]? with
    | none => none
    | some x =>
      match x.driver with
      | .settled (e :: rest) =>
        let (s, x, more) := s.perform a x e
        some (s.setAction a { x with driver := .settled (more ++ rest) })
      | _ => none
  | .releaseAction a =>
    match s.actions[a]? with
    | none => none
    | some x =>
      if x.handle = .held then
        match x.record with
        | none =>
          some (s.setAction a { x with handle := .released [.removeActionRecord, .freeCell] })
        | some r =>
          if r.mustRetainAfterHandleDrop x.cell then
            some (s.setAction a { x with
              record := some { r with droppedByHandle := true }
              handle := .released [.freeCell] })
          else
            some (s.setAction a { x with handle := .released [.removeActionRecord, .freeCell] })
      else none
  | .handle a =>
    match s.actions[a]? with
    | none => none
    | some x =>
      match x.handle with
      | .released (e :: rest) =>
        let (s, x, more) := s.perform a x e
        some (s.setAction a { x with handle := .released (more ++ rest) })
      | _ => none
  | .takeOffloadDrain req =>
    if req ∈ s.offloadDrains then
      some { s with offloadDrains := s.offloadDrains.erase req, taken := s.taken ++ [req] }
    else some s
  | .evict req =>
    if s.quiet req then
      some { s with
        calls := s.calls ++ [⟨.evict, req, s.byRequest req, none, none, s.actions.length, []⟩] }
    else none
  | .commit req =>
    if s.quiet req ∧ req ∈ s.taken then
      let b := s.barriers.length
      some { s.mint (.drain req) with
        taken := s.taken.erase req
        calls := s.calls ++ [⟨.commit, req, s.byRequest req, some b, none, s.actions.length, []⟩] }
    else none
  | .visit c =>
    match s.calls[c]? with
    | some call =>
      match call.todo with
      | a :: todo => some (s.visit c call a todo)
      | [] => none
    | none => none
  | .leave c =>
    match s.calls[c]? with
    | some call =>
      if call.todo = [] ∧ call.returned = none then some (s.leave c call) else none
    | none => none

end Engine

end Kvbm.Tiering
