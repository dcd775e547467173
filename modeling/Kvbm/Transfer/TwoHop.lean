/-
Transfers through a bounce buffer.

Blocks that cannot be copied straight from their source to their destination are copied into a
bounce buffer first and from there to the destination.  With more than one bounce block, two
workers each own a part of them, take chunks of (source, destination) pairs from one shared
iterator, and run both hops of a chunk before they take the next.  The first error ends the
transfer: the other worker's future is dropped where it stands.

A hop copies its blocks one by one, in any order, while it runs.  It runs until its own completion
event, whether or not somebody awaits it.
-/
import Kvbm.Index.Basic

namespace Kvbm.Transfer

inductive StorageKind
  | system
  | pinned
  | device (id : Nat)
  | disk (id : Nat)
  deriving DecidableEq, Repr

structure BounceBuffer where
  location : StorageKind
  blockIds : List BlockId
  deriving DecidableEq, Repr

/-- The parameters of `execute_two_hop_transfer`; `C` is the content of a block, or of the layers
of it that are to be copied. -/
structure TwoHop (C : Type) where
  src : BlockId → C
  srcBlockIds : List BlockId
  dstBlockIds : List BlockId
  bounceBuffer : Option BounceBuffer
  bounceLocation : StorageKind

/-- The way of one pair. -/
structure Lane where
  src : BlockId
  bounce : BlockId
  dst : BlockId
  deriving DecidableEq, Repr

inductive Hop
  | first
  | second
  deriving DecidableEq, Repr

inductive HopStatus
  | running
  | completed
  | failed
  deriving DecidableEq, Repr

inductive Worker
  /-- At the top of its loop. -/
  | idle
  /-- About to launch a hop of a chunk. -/
  | launching (hop : Hop) (chunk : Nat)
  /-- Awaiting a hop that still has to copy `todo`. -/
  | awaiting (hop : Hop) (chunk : Nat) (todo : List Lane) (status : HopStatus)
  /-- It has returned `Ok`. -/
  | done
  /-- Its future was dropped in an `await`; the hop goes on. -/
  | dropped (hop : Hop) (chunk : Nat) (todo : List Lane) (status : HopStatus)
  /-- It has failed, or was dropped outside of a hop. -/
  | gone
  deriving DecidableEq, Repr

namespace Worker

def chunk? : Worker → Option Nat
  | .launching _ k => some k
  | .awaiting _ k _ _ => some k
  | .dropped _ k _ _ => some k
  | _ => none

/-- A hop it has launched is running. -/
def isRunning : Worker → Bool
  | .awaiting _ _ _ .running => true
  | .dropped _ _ _ .running => true
  | _ => false

/-- The future of the worker is dropped. -/
def drop : Worker → Worker
  | .awaiting hop k todo status => .dropped hop k todo status
  | .dropped hop k todo status => .dropped hop k todo status
  | _ => .gone

end Worker

namespace TwoHop

variable {C : Type} (r : TwoHop C)

def pairs : List (BlockId × BlockId) := r.srcBlockIds.zip r.dstBlockIds

/-- The bounce blocks of each worker.  A single bounce block has one worker, that takes one pair at
a time; otherwise as many blocks as there are pairs are split in two. -/
def bounceGroups (bounceIds : List BlockId) : List (List BlockId) :=
  if bounceIds.length = 1 then [bounceIds]
  else
    let groups := bounceIds.take (min r.srcBlockIds.length bounceIds.length)
    [groups.take (groups.length / 2), groups.drop (groups.length / 2)]

/-- The groups of the buffer that was given, if it is of the right kind. -/
def groups : Option (List (List BlockId)) :=
  match r.bounceBuffer with
  | none => none
  | some spec =>
    if spec.location ≠ r.bounceLocation then none else some (r.bounceGroups spec.blockIds)

def group (w : Nat) : List BlockId := ((r.groups.getD [])[w]?).getD []

end TwoHop

structure State (C : Type) where
  bounce : BlockId → C
  dst : BlockId → C
  /-- What is left of the shared iterator. -/
  rest : List (BlockId × BlockId)
  /-- The chunks taken so far. -/
  taken : List (List (BlockId × BlockId))
  workers : List Worker
  /-- The hops that have completed, by chunk. -/
  completed : List (Hop × Nat)
  /-- What the workers together have returned: `true` for `Ok`. -/
  joined : Option Bool
  /-- The completion event: `true` when triggered, `false` when poisoned. -/
  published : Option Bool
  /-- The registrations of the source and the destination are held. -/
  guarded : Bool

inductive Op
  | take (w : Nat)
  | launch (w : Nat) (ok : Bool)
  | copy (w : Nat) (i : Nat)
  | finish (w : Nat) (ok : Bool)
  | wake (w : Nat)
  | join
  | publish
  | release
  deriving DecidableEq, Repr

namespace State

variable {C : Type} (r : TwoHop C)

def start (bounce dst : BlockId → C) : State C where
  bounce := bounce
  dst := dst
  rest := r.pairs
  taken := []
  workers := (r.groups.getD []).map fun _ => .idle
  completed := []
  joined := if r.groups.isSome then none else some false
  published := none
  guarded := true

variable (s : State C)

/-- The pairs of a chunk with the bounce blocks they go through. -/
def lanes (w k : Nat) : List Lane :=
  List.zipWith (fun p b => ⟨p.1, b, p.2⟩) ((s.taken[k]?).getD []) (r.group w)

def setWorker (w : Nat) (x : Worker) : State C := { s with workers := s.workers.set w x }

/-- `try_join` returns at the first error, and the other futures are dropped. -/
def fail (w : Nat) : State C :=
  { s with
    workers := (s.workers.map Worker.drop).set w .gone
    joined := some false }

def copyLane (hop : Hop) (l : Lane) : State C :=
  match hop with
  | .first => { s with bounce := fun b => if b = l.bounce then r.src l.src else s.bounce b }
  | .second => { s with dst := fun d => if d = l.dst then s.bounce l.bounce else s.dst d }

/-- One worker takes the next chunk, or returns when there is none. -/
def take (s : State C) (w : Nat) : Option (State C) :=
  match s.workers[w]? with
  | some .idle =>
    let batch := s.rest.take (r.group w).length
    if batch.isEmpty then some (s.setWorker w .done)
    else some { s.setWorker w (.launching .first s.taken.length) with
      rest := s.rest.drop (r.group w).length
      taken := s.taken ++ [batch] }
  | _ => none

/-- `execute_direct_transfer`, which may refuse. -/
def launch (w : Nat) (ok : Bool) : Option (State C) :=
  match s.workers[w]? with
  | some (.launching hop k) =>
    if ok then some (s.setWorker w (.awaiting hop k (s.lanes r w k) .running))
    else some (s.fail w)
  | _ => none

def copy (w i : Nat) : Option (State C) :=
  match s.workers[w]? with
  | some (.awaiting hop k todo .running) =>
    todo[i]?.map fun l =>
      (s.copyLane r hop l).setWorker w (.awaiting hop k (todo.eraseIdx i) .running)
  | some (.dropped hop k todo .running) =>
    todo[i]?.map fun l =>
      (s.copyLane r hop l).setWorker w (.dropped hop k (todo.eraseIdx i) .running)
  | _ => none

/-- A hop ends: it has copied everything, or it has failed. -/
def finish (w : Nat) (ok : Bool) : Option (State C) :=
  match s.workers[w]? with
  | some (.awaiting hop k todo .running) =>
    if ok then
      if todo.isEmpty then
        some { s.setWorker w (.awaiting hop k todo .completed) with
          completed := (hop, k) :: s.completed }
      else none
    else some (s.setWorker w (.awaiting hop k todo .failed))
  | some (.dropped hop k todo .running) =>
    if ok then
      if todo.isEmpty then
        some { s.setWorker w (.dropped hop k todo .completed) with
          completed := (hop, k) :: s.completed }
      else none
    else some (s.setWorker w (.dropped hop k todo .failed))
  | _ => none

/-- The worker sees that the hop it awaits has ended. -/
def wake (w : Nat) : Option (State C) :=
  match s.workers[w]? with
  | some (.awaiting .first k _ .completed) => some (s.setWorker w (.launching .second k))
  | some (.awaiting .second _ _ .completed) => some (s.setWorker w .idle)
  | some (.awaiting _ _ _ .failed) => some (s.fail w)
  | _ => none

def step : Op → Option (State C)
  | .take w => s.take r w
  | .launch w ok => s.launch r w ok
  | .copy w i => s.copy r w i
  | .finish w ok => s.finish w ok
  | .wake w => s.wake w
  | .join =>
    if s.joined = none ∧ s.workers.all (· = .done) then some { s with joined := some true }
    else none
  | .publish => match s.joined, s.published with
      | some ok, none => some { s with published := some ok }
      | _, _ => none
  | .release => if s.published.isSome then some { s with guarded := false } else none

end State

end Kvbm.Transfer
