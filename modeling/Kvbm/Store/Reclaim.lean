/-
Exact reclaim and lineage holds.

An exact reclaim evicts the inactive blocks a caller has named, and no others: every name
carries the tenure it was taken in, and all names are checked before anything changes.
A lineage hold takes one complete inactive lineage out of the pool, for a caller that has
yet to decide; giving it back restores the blocks, committing it gives up the last one.
-/
import Kvbm.Store.Allocate

namespace Kvbm

open InactiveIndex

inductive ExactAllocationError
  | wrongManager (expected actual : ManagerId)
  | duplicateVictim (blockId : BlockId)
  | staleVictim (blockId : BlockId)
  | fencedVictim (blockId : BlockId)
  | activeVictim (blockId : BlockId)
  | resetCapacityDrift (expected actual : Nat)
  | insufficientCapacity (requested available : Nat)
  | zeroCountWithVictims (supplied : Nat)
  | unsupportedReclaimPlan
  | invalidVictimOrder (parentBlockId childBlockId : BlockId)
  | incompleteVictimSet (parentBlockId childBlockId : BlockId)
  | missingVictimAncestor (childBlockId parentBlockId : BlockId)
  deriving DecidableEq, Repr

structure FreshExactReclaimPlan where
  managerId : ManagerId
  expectedResetSlots : Nat
  victimsLeafToRoot : List ExactInactiveVictim
  deriving DecidableEq, Repr

def mapExactReclaimPlanError : ExactReclaimPlanError → ExactAllocationError
  | .unsupported => .unsupportedReclaimPlan
  | .missingVictim id => .staleVictim id
  | .parentBeforeChild p c => .invalidVictimOrder p c
  | .omittedLiveChild p c => .incompleteVictimSet p c
  | .missingRealAncestor c p => .missingVictimAncestor c p

/-- What a hold compares of a snapshot of an inactive block. -/
structure InactiveCandidate where
  seqHash : SequenceHash
  blockId : BlockId
  generation : Nat
  inactiveEpoch : Nat
  deriving DecidableEq, Repr

namespace BlockStore

variable {ι : Type} (s : BlockStore ι)

def inactiveUnder (h : SequenceHash) (id : BlockId) : Bool :=
  match s.state id with
  | .inactive g _ => g = h
  | _ => false

variable [InactiveIndex ι] (s : BlockStore ι)

/-! ### Exact reclaim -/

/-- Victims of this manager only, each slot once. -/
def checkVictimIds (s : BlockStore ι) : List ExactInactiveVictim → List BlockId →
    Except ExactAllocationError Unit
  | [], _ => .ok ()
  | victim :: rest, seen =>
    if victim.managerId ≠ s.id then .error (.wrongManager s.id victim.managerId)
    else if victim.blockId ∈ seen then .error (.duplicateVictim victim.blockId)
    else checkVictimIds s rest (victim.blockId :: seen)

def checkVictim (victim : ExactInactiveVictim) : Except ExactAllocationError Unit :=
  if s.slotCount ≤ victim.blockId then .error (.staleVictim victim.blockId)
  else
    match s.state victim.blockId with
    | .inactive h _ =>
      if h = victim.seqHash ∧ (s.slots victim.blockId).generation = victim.generation ∧
          (s.slots victim.blockId).inactiveEpoch = victim.inactiveEpoch then
        if s.effectiveCeiling ≤ victim.blockId then .error (.fencedVictim victim.blockId)
        else .ok ()
      else .error (.staleVictim victim.blockId)
    | _ => .error (.activeVictim victim.blockId)

def checkVictims (s : BlockStore ι) : List ExactInactiveVictim → Except ExactAllocationError Unit
  | [] => .ok ()
  | victim :: rest =>
    match s.checkVictim victim with
    | .error e => .error e
    | .ok () => checkVictims s rest

/-- Take the victims out of the index, and their slots to the reset pool. -/
def reclaimVictims : List ExactInactiveVictim → BlockStore ι → Eviction →
    Option (Eviction × BlockStore ι)
  | [], s, ev => some (ev, s)
  | victim :: rest, s, ev =>
    (take s.inactive victim.seqHash victim.blockId).bind fun (taken, ix) =>
      if taken then
        (s.takeInactiveHandle victim.blockId).bind fun handle =>
          let s := { s with inactive := ix }.setState victim.blockId .reset
          let s := (s.setFlag victim.blockId s.defaultResetOnRelease).pushResetId victim.blockId
          reclaimVictims rest s ⟨ev.blocks, ev.evicted ++ [victim.seqHash], ev.handles ++ [handle]⟩
      else none

def allocateExactReclaim (count expectedResetSlots : Nat) (victims : List ExactInactiveVictim) :
    Option (Except ExactAllocationError Eviction × BlockStore ι) :=
  if s.free.card ≠ expectedResetSlots then
    some (.error (.resetCapacityDrift expectedResetSlots s.free.card), s)
  else if count = 0 ∧ victims ≠ [] then
    some (.error (.zeroCountWithVictims victims.length), s)
  else
    match s.checkVictimIds victims [] with
    | .error e => some (.error e, s)
    | .ok () =>
      if s.free.card + victims.length < count then
        some (.error (.insufficientCapacity count (s.free.card + victims.length)), s)
      else
        match s.checkVictims victims with
        | .error e => some (.error e, s)
        | .ok () =>
          (preflightExactReclaim s.inactive victims).bind fun
            | .error e => some (.error (mapExactReclaimPlanError e), s)
            | .ok () =>
              (reclaimVictims victims s ⟨[], [], []⟩).bind fun (ev, s) =>
                (allocateResetBlocksLocked count s).map fun (blocks, s) =>
                  (.ok { ev with blocks := blocks }, s)

/-! ### Lineage holds -/

/-- The lineage that a hold can claim at this instant. -/
def currentInactiveLineage (candidate : InactiveCandidate) : Option (List Entry) :=
  if (s.heldByHash candidate.seqHash).isSome then none
  else if s.slotCount ≤ candidate.blockId then none
  else if s.inactiveUnder candidate.seqHash candidate.blockId ∧
      (s.slots candidate.blockId).generation = candidate.generation ∧
      (s.slots candidate.blockId).inactiveEpoch = candidate.inactiveEpoch then
    match completeLineage s.inactive candidate.seqHash candidate.blockId with
    | none => none
    | some source => if source.any fun e => (s.heldByHash e.1).isSome then none else some source
  else none

/-- The slots of a lineage become held. -/
def holdBlocks : List Entry → BlockStore ι → Option (BlockStore ι)
  | [], s => some s
  | (h, id) :: rest, s =>
    match s.state id with
    | .inactive g handle =>
      if g = h ∧ s.heldByHash h = none then
        let s := { s with heldByHash := Function.update s.heldByHash h (some id) }
        holdBlocks rest (s.setState id (.held h handle))
      else none
    | _ => none

/-- `try_hold_inactive_lineage_if_current`: the blocks held, if the hold succeeds. -/
def tryHoldInactiveLineageIfCurrent (candidate : InactiveCandidate)
    (expected : Option (List Entry)) : Option (Option (List Entry) × BlockStore ι) :=
  match s.currentInactiveLineage candidate with
  | none => some (none, s)
  | some source =>
    if expected.any (· ≠ source) then some (none, s)
    else
      (takeCompleteLineage s.inactive candidate.seqHash candidate.blockId).bind
        fun (extracted, ix) =>
          let s := { s with inactive := ix }
          if extracted.isNone then some (none, s)
          else (holdBlocks source s).map fun s => (some source, s)

/-- `take_exact_held_handle`. -/
def takeExactHeldHandle (h : SequenceHash) (id : BlockId) : Option BlockRegistrationHandle :=
  match s.state id with
  | .held g handle => if g = h then some handle else none
  | _ => none

def hasNewerRegisteredCopy (h : SequenceHash) (heldId : BlockId) : Bool :=
  (s.activeByHash h).any (· ≠ heldId) || has s.inactive h

/-- Give held blocks back to the inactive pool, or to the reset pool where a newer copy has been
registered: the handles of those. -/
def restoreSupportBlocks : List Entry → BlockStore ι →
    Option (List BlockRegistrationHandle × BlockStore ι)
  | [], s => some ([], s)
  | (h, id) :: rest, s =>
    (s.takeExactHeldHandle h id).bind fun handle =>
      if s.heldByHash h = some id then
        let s := { s with heldByHash := Function.update s.heldByHash h none }
        if s.hasNewerRegisteredCopy h id then
          let s := (s.setState id .reset).setFlag id s.defaultResetOnRelease
          (restoreSupportBlocks rest (s.pushResetId id)).map fun r => (handle :: r.1, r.2)
        else
          let s := s.setState id (.inactive h handle)
          (insert s.inactive h id).bind fun ix =>
            restoreSupportBlocks rest { s with inactive := ix }
      else none

def restoreLineageHold (source : List Entry) :
    Option (List BlockRegistrationHandle × BlockStore ι) :=
  restoreSupportBlocks source s

/-- Give up the last block of the lineage and restore the others: the hash reported as evicted,
and the handles to be marked. -/
def commitLineageHold (source : List Entry) :
    Option ((Option SequenceHash × List BlockRegistrationHandle) × BlockStore ι) :=
  match source.getLast? with
  | none => none
  | some (victimHash, victimId) =>
    (restoreSupportBlocks source.dropLast s).bind fun (discarded, s) =>
      let victimReplaced := s.hasNewerRegisteredCopy victimHash victimId
      (s.takeExactHeldHandle victimHash victimId).bind fun handle =>
        if s.heldByHash victimHash = some victimId then
          let s := { s with heldByHash := Function.update s.heldByHash victimHash none }
          let s := (s.setState victimId .reset).setFlag victimId s.defaultResetOnRelease
          some ((if victimReplaced then none else some victimHash, discarded ++ [handle]),
            s.pushResetId victimId)
        else none

end BlockStore

end Kvbm
