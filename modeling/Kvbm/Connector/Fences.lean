/-
Eviction fences between the leader and one of its workers.

The leader sends the fences of its evictions with the next envelope.  The worker at a position of
the leader's list picks tokens from the envelope by its rank, and waits for them in whichever of
its two hooks comes first.  The sink sends a token to the worker whose position is the token's rank.
-/
import Kvbm.Tiering.Engine

namespace Kvbm.Connector

open Tiering (FenceToken fenceTokens)

structure ConnectorMetadata where
  iteration : Nat
  evictedRequests : Finset Tiering.RequestId
  /-- The tokens of each fence. -/
  fences : List (List FenceToken)

namespace ConnectorMetadata

def fenceTokensForRank (m : ConnectorMetadata) (rank : Nat) : List FenceToken :=
  m.fences.flatten.filter (·.rank = rank)

/-- The tokens that `mark_fence_complete` sends to the worker at the position. -/
def sentTo (m : ConnectorMetadata) (workers position : Nat) : List FenceToken :=
  m.fences.flatten.filter fun token => token.rank < workers ∧ token.rank = position

end ConnectorMetadata

/-- `Worker::new` is `with_actions`, which sets the rank to 0. -/
def Worker.newRank : Nat := 0

/-- The leader and the worker at one position. -/
structure Fencing where
  iteration : Nat
  pendingEvictions : Finset Tiering.RequestId
  pendingFences : List (List FenceToken)
  /-- How many fences the engine has made. -/
  minted : Nat
  /-- Envelopes that the worker has not received. -/
  queue : List ConnectorMetadata
  past : List ConnectorMetadata
  envelope : Option ConnectorMetadata
  completedFences : Finset FenceToken
  fencedIteration : Option Nat
  /-- A hook is blocked. -/
  waiting : Bool
  /-- A hook has returned in this step. -/
  returned : Bool
  /-- All tokens that have come, and all that were waited for. -/
  delivered : Finset FenceToken
  waited : List FenceToken

inductive FencingAct
  /-- Whether the slot has handles, and whether the engine finds an action in flight. -/
  | onEvicted (request : Tiering.RequestId) (mustFence inFlight : Bool)
  | buildMetadata
  | markFenceComplete (token : FenceToken)
  | receive
  | handlePreemptions
  | bindSerializedMetadata (shouldBind : Bool)
  | wake

namespace Fencing

def new : Fencing := ⟨0, ∅, [], 0, [], [], none, ∅, none, false, false, ∅, []⟩

variable (workers position rank : Nat) (s : Fencing)

def onEvicted (request : Tiering.RequestId) (mustFence inFlight : Bool) : Fencing :=
  let evicted := { s with pendingEvictions := insert request s.pendingEvictions }
  if (request ∉ s.pendingEvictions ∨ mustFence) ∧ inFlight then
    { evicted with
      pendingFences := s.pendingFences ++ [fenceTokens s.minted workers]
      minted := s.minted + 1 }
  else evicted

def buildMetadata : Fencing :=
  let iteration := min (s.iteration + 1) (2 ^ 64 - 1)
  { s with
    iteration
    pendingEvictions := ∅
    pendingFences := []
    queue := s.queue ++ [⟨iteration, s.pendingEvictions, s.pendingFences⟩] }

def ensureFencesAwaited (m : ConnectorMetadata) : Fencing :=
  if s.fencedIteration = some m.iteration then { s with returned := true }
  else { s with fencedIteration := some m.iteration, waiting := true }

/-- The hook goes on once the tokens have come, and takes them. -/
def wake (m : ConnectorMetadata) : Option Fencing :=
  let tokens := m.fenceTokensForRank rank
  if s.waiting ∧ ∀ t ∈ tokens, t ∈ s.completedFences then
    some { s with
      completedFences := s.completedFences \ tokens.toFinset
      waiting := false
      returned := true
      waited := s.waited ++ tokens }
  else none

def step : FencingAct → Option Fencing
  | .onEvicted request mustFence inFlight => s.onEvicted workers request mustFence inFlight
  | .buildMetadata => s.buildMetadata
  | .markFenceComplete token =>
    if token.rank < workers ∧ token.rank = position then
      some { s with
        completedFences := insert token s.completedFences
        delivered := insert token s.delivered }
    else s
  | .receive =>
    match s.queue with
    | m :: queue =>
      if s.waiting then none
      else some { s with
        queue
        past := s.past ++ s.envelope.toList
        envelope := some m
        returned := false }
    | [] => none
  | .handlePreemptions => if s.waiting then none else s.envelope.map s.ensureFencesAwaited
  | .bindSerializedMetadata shouldBind =>
    if s.waiting then none
    else s.envelope.map fun m =>
      if shouldBind ∨ m.fences ≠ [] ∨ m.evictedRequests ≠ ∅ then s.ensureFencesAwaited m
      else { s with returned := true }
  | .wake => s.envelope.bind (s.wake rank)

end Fencing

end Kvbm.Connector
