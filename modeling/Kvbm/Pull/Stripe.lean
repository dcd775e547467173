/-
Replicated caches whose lower tiers are striped over the workers.

A block has one global id; the worker that holds its copy, and the slot there, follow from it.  A
pull between two such groups is cut into one batch for each pair of owners.
-/
import Kvbm.Pull.Plan
import Kvbm.Lib.OrdMap
import Kvbm.Lib.Outcome
import Mathlib.Data.Prod.Lex

namespace Kvbm

open Lib

inductive StripeError
  | noWorkers
  | rankOutside (rank worldSize : Nat)
  | blockIdOverflow
  deriving DecidableEq, Repr

def usizeMax : Nat := 2 ^ 64 - 1

structure StripedBlockPlacement where
  worldSize : Nat
  pos : 0 < worldSize

namespace StripedBlockPlacement

def new (worldSize : Nat) : Except StripeError StripedBlockPlacement :=
  if h : worldSize = 0 then .error .noWorkers else .ok ⟨worldSize, Nat.pos_of_ne_zero h⟩

variable (s : StripedBlockPlacement)

/-- Owner and slot of a block. -/
def resolve (globalBlockId : BlockId) : Nat × BlockId :=
  (globalBlockId % s.worldSize, globalBlockId / s.worldSize)

def validateRank (rank : Nat) : Except StripeError Unit :=
  ensure (rank < s.worldSize) (.rankOutside rank s.worldSize)

def global (ownerRank : Nat) (localBlockId : BlockId) : Except StripeError BlockId :=
  (s.validateRank ownerRank).bind fun _ =>
    (ensure (localBlockId * s.worldSize + ownerRank ≤ usizeMax) .blockIdOverflow).map fun _ =>
      localBlockId * s.worldSize + ownerRank

def localCapacity (globalCapacity rank : Nat) : Except StripeError Nat :=
  (s.validateRank rank).map fun _ =>
    if globalCapacity ≤ rank then 0 else 1 + (globalCapacity - 1 - rank) / s.worldSize

end StripedBlockPlacement

structure ReplicatedPullBatch where
  localRank : Nat
  remoteRank : Nat
  srcBlockIds : List BlockId
  dstBlockIds : List BlockId
  deriving DecidableEq, Repr

variable (own remote : StripedBlockPlacement)

/-- The ranks that hold the two blocks of a pair: this side's and the other's. -/
def PullRef.owners (pair : PullRef) : Nat ×ₗ Nat :=
  toLex ((own.resolve pair.dstBlockId).1, (remote.resolve pair.srcBlockId).1)

/-- Put a pair into the batch of its owners. -/
def batchPair (batches : List ((Nat ×ₗ Nat) × ReplicatedPullBatch)) (pair : PullRef) :
    List ((Nat ×ₗ Nat) × ReplicatedPullBatch) :=
  let key := pair.owners own remote
  let batch := (ordGet key batches).getD ⟨(ofLex key).1, (ofLex key).2, [], []⟩
  ordInsert key
    { batch with
      srcBlockIds := batch.srcBlockIds ++ [(remote.resolve pair.srcBlockId).2]
      dstBlockIds := batch.dstBlockIds ++ [(own.resolve pair.dstBlockId).2] } batches

def planReplicatedPull (localWorldSize remoteWorldSize : Nat) (refs : List PullRef) :
    Except StripeError (List ReplicatedPullBatch) :=
  (StripedBlockPlacement.new localWorldSize).bind fun own =>
  (StripedBlockPlacement.new remoteWorldSize).map fun remote =>
    (refs.foldl (batchPair own remote) []).map Prod.snd

end Kvbm
