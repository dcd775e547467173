/-
The publisher's side of the tier placement stream.

The sequencer numbers batches and snapshots.  After a snapshot it holds back batches until the hub
has acknowledged the snapshot, and a publisher that has lost a change burns a number, which the
hub sees as a gap.  Arithmetic that overflows ends the publisher.
-/
import Kvbm.Hub.Tier.Wire

namespace Kvbm.Hub.Tier

inductive SealOutcome (H : Type)
  | batch (batch : TierPlacementBatch H)
  | deferred (ops : List (TierPlacementOp H))
  deriving DecidableEq, Repr

structure Sequencer where
  cache : CacheManifestId
  instanceId : InstanceId
  registrationEpoch : RegistrationEpoch
  snapshotGeneration : Nat
  nextSeq : Nat
  /-- Generation of a sealed snapshot that is not acknowledged. -/
  pendingInstall : Option Nat
  /-- The publisher has lost a change it never sent. -/
  divergent : Bool
  deriving DecidableEq, Repr

namespace Sequencer

variable {H : Type}

def new (cache : CacheManifestId) (instanceId : InstanceId)
    (registrationEpoch : RegistrationEpoch) : Sequencer :=
  ⟨cache, instanceId, registrationEpoch, 0, 1, none, false⟩

variable (s : Sequencer)

def lastSeq : Nat := s.nextSeq - 1

def awaitingSnapshotInstall : Bool := s.pendingInstall.isSome

def needsSnapshot : Bool := s.divergent

/-- One number is burned, with an addition that saturates, unless one is burned already. -/
def markDivergent : Sequencer × Bool :=
  if s.divergent then (s, false)
  else ({ s with divergent := true, nextSeq := min (s.nextSeq + 1) u64Max }, true)

def abandonPendingSnapshot : Sequencer × Bool :=
  if s.pendingInstall.isNone then (s, false)
  else (({ s with pendingInstall := none } : Sequencer).markDivergent.1, true)

def noteSnapshotInstalled (installedGeneration : Nat) : Sequencer × Bool :=
  if s.pendingInstall = some installedGeneration then ({ s with pendingInstall := none }, true)
  else (s, false)

def nextBatch (ops : List (TierPlacementOp H)) : TierPlacementBatch H :=
  ⟨schemaVersion, s.cache, s.instanceId, s.registrationEpoch, s.nextSeq, s.snapshotGeneration, ops⟩

/-- `seal`.  Nothing where the number of the next batch overflows. -/
def sealBatch (ops : List (TierPlacementOp H)) :
    Option (Except (TierPlacementError H) (Sequencer × SealOutcome H)) :=
  if s.awaitingSnapshotInstall then some (.ok (s, .deferred ops))
  else
    match (s.nextBatch ops).validate with
    | .error error => some (.error error)
    | .ok _ =>
      if s.nextSeq = u64Max then none
      else some (.ok ({ s with nextSeq := s.nextSeq + 1 }, .batch (s.nextBatch ops)))

def nextSnapshot (media : List TierMedium) (manifests : List (TierPlacementManifest H))
    (entries : List (TierPlacementEntry H)) : TierPlacementSnapshot H :=
  ⟨schemaVersion, s.cache, s.instanceId, s.registrationEpoch, s.snapshotGeneration + 1, s.lastSeq,
    media, manifests, entries⟩

/-- Nothing where the generation overflows. -/
def snapshot [DecidableEq H] [LineageHash H] (s : Sequencer) (media : List TierMedium)
    (manifests : List (TierPlacementManifest H)) (entries : List (TierPlacementEntry H)) :
    Option (Except (TierPlacementError H) (Sequencer × TierPlacementSnapshot H)) :=
  if s.snapshotGeneration = u64Max then none
  else
    let snapshot := s.nextSnapshot media manifests entries
    match snapshot.validate with
    | .error error => some (.error error)
    | .ok _ =>
      some (.ok ({ s with
        snapshotGeneration := snapshot.snapshotGeneration
        pendingInstall := some snapshot.snapshotGeneration
        divergent := false }, snapshot))

end Sequencer

end Kvbm.Hub.Tier
