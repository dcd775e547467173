/-
A publisher, the network and the hub.

The publisher hands operations to its sequencer; what a seal defers it keeps and hands over first
the next time, and it drops operations only while the sequencer is marked divergent.  The network
delivers any batch and any snapshot that was sealed, in any order and any number of times.  The hub
also hears of other publishers.  An action that cannot be taken changes nothing.
-/
import Kvbm.Hub.Tier.Projection
import Kvbm.Hub.Tier.Sequencer

namespace Kvbm.Hub.Tier

/-! ### The publisher -/

/-- A sealed batch, with what is known of the publisher when it was sealed. -/
structure Issue (H : Type) where
  batch : TierPlacementBatch H
  /-- The operations kept at the last snapshot, and those accepted from then to this batch. -/
  accepted : List (TierPlacementOp H)
  /-- The operations that are kept for later batches. -/
  kept : List (TierPlacementOp H)

structure Publisher (H : Type) where
  sequencer : Sequencer
  /-- Operations a seal deferred, the oldest first. -/
  waiting : List (TierPlacementOp H)
  /-- The operations kept at the last snapshot, and those accepted since. -/
  accepted : List (TierPlacementOp H)
  issued : List (Issue H)
  pushed : List (TierPlacementSnapshot H)

namespace Publisher

variable {H : Type}

def new (cache : CacheManifestId) (instanceId : InstanceId) (epoch : RegistrationEpoch) :
    Publisher H := ⟨.new cache instanceId epoch, [], [], [], []⟩

def key (b : Publisher H) : CacheManifestId × InstanceId :=
  (b.sequencer.cache, b.sequencer.instanceId)

def epoch (b : Publisher H) : RegistrationEpoch := b.sequencer.registrationEpoch

/-- Seal the first `n` operations that wait, and new ones if no other is left. -/
def sealBatch (b : Publisher H) (n : Nat) (fresh : List (TierPlacementOp H)) : Publisher H :=
  let fresh := if b.waiting.length ≤ n then fresh else []
  let accepted := b.accepted ++ fresh
  let kept := b.waiting.drop n
  match b.sequencer.sealBatch (b.waiting.take n ++ fresh) with
  | some (.ok (s, .batch batch)) =>
    ⟨s, kept, accepted, b.issued ++ [⟨batch, accepted, kept⟩], b.pushed⟩
  | some (.ok (s, .deferred ops)) => ⟨s, ops ++ kept, accepted, b.issued, b.pushed⟩
  | _ => b

/-- Nothing is dropped before the sequencer is marked divergent. -/
def drop [DecidableEq H] (b : Publisher H) (kept : List (TierPlacementOp H)) : Publisher H :=
  if b.sequencer.needsSnapshot ∧ kept.Sublist b.waiting then { b with waiting := kept } else b

def snapshot [DecidableEq H] [LineageHash H] (b : Publisher H) (media : List TierMedium)
    (manifests : List (TierPlacementManifest H)) (entries : List (TierPlacementEntry H)) :
    Publisher H :=
  match b.sequencer.snapshot media manifests entries with
  | some (.ok (s, snapshot)) => ⟨s, b.waiting, b.waiting, b.issued, b.pushed ++ [snapshot]⟩
  | _ => b

end Publisher

/-! ### The whole -/

structure Net (H : Type) [DecidableEq H] where
  publisher : Publisher H
  hub : Projection H

inductive Action (H : Type)
  | sealBatch (n : Nat) (fresh : List (TierPlacementOp H))
  | drop (kept : List (TierPlacementOp H))
  | markDivergent
  | abandonPendingSnapshot
  | noteSnapshotInstalled (installedGeneration : Nat)
  | snapshot (media : List TierMedium) (manifests : List (TierPlacementManifest H))
      (entries : List (TierPlacementEntry H))
  | deliverBatch (i now : Nat)
  | deliverSnapshot (i now : Nat)
  /-- A batch that is not of this publisher and its epoch. -/
  | otherBatch (batch : TierPlacementBatch H) (now : Nat)
  /-- A snapshot that is not of this publisher. -/
  | otherSnapshot (snapshot : TierPlacementSnapshot H) (authorizedEpoch : RegistrationEpoch)
      (now : Nat)
  | setRegistered (registered : Finset InstanceId)

namespace Net

variable {H : Type} [DecidableEq H]

def init (cache : CacheManifestId) (instanceId : InstanceId) (epoch : RegistrationEpoch)
    (registered : Finset InstanceId) (limits : ProjectionLimits) : Net H :=
  ⟨.new cache instanceId epoch, .new registered limits⟩

variable (w : Net H)

def entry : Option (InstanceProjection H) := w.hub.state.lookup w.publisher.key

def onSequencer (f : Sequencer → Sequencer × Bool) : Net H :=
  { w with publisher := { w.publisher with sequencer := (f w.publisher.sequencer).1 } }

def deliverBatch (batch : TierPlacementBatch H) (now : Nat) : Net H :=
  { w with hub := (w.hub.applyDelta batch now).1 }

variable [LineageHash H] (w : Net H)

def deliverSnapshot (snapshot : TierPlacementSnapshot H) (authorizedEpoch : RegistrationEpoch)
    (now : Nat) : Net H :=
  match w.hub.installSnapshot snapshot authorizedEpoch now with
  | .ok r => { w with hub := r.1 }
  | .error _ => w

def step : Action H → Net H
  | .sealBatch n fresh => { w with publisher := w.publisher.sealBatch n fresh }
  | .drop kept => { w with publisher := w.publisher.drop kept }
  | .markDivergent => w.onSequencer Sequencer.markDivergent
  | .abandonPendingSnapshot => w.onSequencer Sequencer.abandonPendingSnapshot
  | .noteSnapshotInstalled g => w.onSequencer (Sequencer.noteSnapshotInstalled · g)
  | .snapshot media manifests entries =>
    { w with publisher := w.publisher.snapshot media manifests entries }
  | .deliverBatch i now =>
    match w.publisher.issued[i]? with
    | some issue => w.deliverBatch issue.batch now
    | none => w
  | .deliverSnapshot i now =>
    match w.publisher.pushed[i]? with
    | some snapshot => w.deliverSnapshot snapshot w.publisher.epoch now
    | none => w
  | .otherBatch batch now =>
    if batch.key ≠ w.publisher.key ∨ batch.registrationEpoch ≠ w.publisher.epoch then
      w.deliverBatch batch now
    else w
  | .otherSnapshot snapshot authorizedEpoch now =>
    if snapshot.key ≠ w.publisher.key then w.deliverSnapshot snapshot authorizedEpoch now else w
  | .setRegistered registered => { w with hub := { w.hub with registered := registered } }

def run (actions : List (Action H)) : Net H := actions.foldl step w

theorem run_concat {w : Net H} {actions : List (Action H)} {a : Action H} :
    w.run (actions ++ [a]) = (w.run actions).step a := by
  simp [run]

end Net

end Kvbm.Hub.Tier
