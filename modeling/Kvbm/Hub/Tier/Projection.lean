/-
The hub's side of the tier placement stream.

For every publishing instance the hub keeps a projection of what the instance holds.  A projection
is valid while the batches form one sequence from the installed snapshot on; a gap, an unknown
epoch or a generation that is ahead make it invalid, and only an authorised snapshot makes it
valid again.  An invalid projection answers nothing.  Telemetry counters are left out, and the
locks are never poisoned.
-/
import Kvbm.Hub.Tier.Wire
import Kvbm.Lib.Keyed
import Mathlib.Data.Finset.Sort

namespace Kvbm.Hub.Tier

open Lib

/-- Block, resource, lane and depth. -/
abbrev PlacementKey (H : Type) := H × LogicalResourceId × Nat × TierDepth

def PlacementKey.depth {H : Type} (k : PlacementKey H) : TierDepth := k.2.2.2

def PlacementScope.key {H : Type} (scope : PlacementScope) (tier : TierDepth) (hash : H) :
    PlacementKey H := (hash, scope.resource, scope.lane, tier)

structure ReadyRecord where
  generation : Nat
  placement : PhysicalPlacementMode
  observedAtUnixMs : Nat
  deriving DecidableEq, Repr

variable {H : Type} [DecidableEq H]

/-! ### Placements of one instance -/

/-- A key is in at most one of the two maps, and every live record's depth is known. -/
structure PlacementSet (H : Type) [DecidableEq H] where
  ready : Keyed (PlacementKey H) ReadyRecord
  /-- The newest generation a removal has spoken for. -/
  tombstones : Keyed (PlacementKey H) Nat
  depths : Finset TierDepth
  apart : ∀ k, (ready.lookup k).isSome → tombstones.lookup k = none
  described : ∀ k, (ready.lookup k).isSome → k.depth ∈ depths

namespace PlacementSet

def empty : PlacementSet H := ⟨∅, ∅, ∅, by simp, by simp⟩

variable (p : PlacementSet H)

def retained : Nat := p.ready.len + p.tombstones.len

/-- The live records of one block, shallowest depth first. -/
def atScope (hash : H) (scope : PlacementScope) : List (TierDepth × ReadyRecord) :=
  (p.depths.sort (· ≤ ·)).filterMap fun tier =>
    (p.ready.lookup (scope.key tier hash)).map fun record => (tier, record)

/-- A late `Ready` revives no removed copy and replaces no newer one. -/
def applyReady (key : PlacementKey H) (generation : Nat) (record : ReadyRecord) : PlacementSet H :=
  if (p.tombstones.lookup key).any (generation ≤ ·) then p
  else if (p.ready.lookup key).any (generation < ·.generation) then p
  else
    { ready := p.ready.insert key record
      tombstones := p.tombstones.erase key
      depths := insert key.depth p.depths
      apart := by
        intro k hk
        rw [Keyed.lookup_erase]
        split_ifs with h
        · rfl
        · exact p.apart k (by simpa [Keyed.lookup_insert, h] using hk)
      described := by
        intro k hk
        by_cases h : k = key
        · simp [h]
        · exact Finset.mem_insert_of_mem
            (p.described k (by simpa [Keyed.lookup_insert, h] using hk)) }

/-- A record of a snapshot; a snapshot has no removals. -/
def install (key : PlacementKey H) (record : ReadyRecord) : PlacementSet H :=
  { ready := p.ready.insert key record
    tombstones := ∅
    depths := insert key.depth p.depths
    apart := by simp
    described := by
      intro k hk
      by_cases h : k = key
      · simp [h]
      · exact Finset.mem_insert_of_mem
          (p.described k (by simpa [Keyed.lookup_insert, h] using hk)) }

/-- A late `Remove` removes no newer copy. -/
def applyRemove (key : PlacementKey H) (generation : Nat) : PlacementSet H :=
  if (p.ready.lookup key).any (generation < ·.generation) then p
  else
    { ready := p.ready.erase key
      tombstones :=
        p.tombstones.insert key (max ((p.tombstones.lookup key).getD generation) generation)
      depths := p.depths
      apart := by
        intro k hk
        rw [Keyed.lookup_erase] at hk
        rw [Keyed.lookup_insert]
        split_ifs at hk ⊢ with h
        · cases hk
        · exact p.apart k hk
      described := by
        intro k hk
        rw [Keyed.lookup_erase] at hk
        split_ifs at hk with h
        · cases hk
        · exact p.described k hk }

end PlacementSet

/-! ### One projection -/

structure ProjectionLimits where
  maxInstances : Nat
  maxReadyPerInstance : Nat
  maxManifestsPerInstance : Nat
  snapshotRequestMinIntervalMs : Nat
  deriving DecidableEq, Repr

/-- `ProjectionLimits::default`. -/
def ProjectionLimits.default : ProjectionLimits := ⟨4096, 2 ^ 20, 2 ^ 12, 1000⟩

structure TierPlacementHolder where
  instanceId : InstanceId
  tier : TierDepth
  placement : PhysicalPlacementMode
  generation : Nat
  observedAtUnixMs : Nat
  deriving DecidableEq, Repr

inductive InvalidationReason
  | noProjection
  | unknownEpoch
  | sequenceGap
  | generationAhead
  | unresolvedInterval
  | capacityExceeded
  deriving DecidableEq, Repr

inductive DiscardReason
  | unregisteredInstance
  | staleGeneration
  | awaitingSnapshot
  | rejected (rejection : TierPlacementRejection)
  deriving DecidableEq, Repr

inductive DeltaOutcome
  | applied (seq ready : Nat)
  | invalidated (reason : InvalidationReason)
  | discarded (reason : DiscardReason)
  deriving DecidableEq, Repr

/-- Whether a request for a snapshot follows. -/
def DeltaOutcome.asks : DeltaOutcome → Bool
  | .invalidated _ => true
  | .discarded .awaitingSnapshot => true
  | _ => false

inductive SnapshotInstall
  | installed (installedGeneration seqFloor : Nat)
  | alreadyCurrent (installedGeneration : Nat)
  deriving DecidableEq, Repr

inductive ProjectionError (H : Type)
  | invalid (error : TierPlacementError H)
  | epochMismatch
  | capacity (what : String) (limit : Nat)
  deriving DecidableEq, Repr

structure InstanceProjection (H : Type) [DecidableEq H] where
  installedEpoch : Option RegistrationEpoch
  lastSeq : Nat
  installedGeneration : Nat
  valid : Bool
  manifests : Nat → Option (BundleResourceLineage H)
  placements : PlacementSet H
  snapshotRequestedAtMs : Option Nat

namespace InstanceProjection

/-- `InstanceProjection::default`. -/
def empty : InstanceProjection H := ⟨none, 0, 0, false, fun _ => none, .empty, none⟩

def invalidate (p : InstanceProjection H) : InstanceProjection H := { p with valid := false }

def clear (p : InstanceProjection H) : InstanceProjection H :=
  { p with valid := false, placements := .empty, manifests := fun _ => none }

end InstanceProjection

variable (manifests : Nat → Option (BundleResourceLineage H))

/-- The keys an operation names; an interval needs a manifest of its resource that covers it. -/
def resolveKeys (op : TierPlacementOp H) : Option (List H) :=
  match op.keys with
  | .hashes hashes => some hashes
  | .manifestInterval manifestId start len =>
    (manifests manifestId).bind fun lineage =>
      if lineage.resource ≠ op.scope.resource then none
      else if start + len ≤ lineage.hashes.length then
        some ((lineage.hashes.drop start).take len)
      else none

def resolveOps (ops : List (TierPlacementOp H)) : Option (List (TierPlacementOp H × List H)) :=
  ops.mapM fun op => (resolveKeys manifests op).map fun keys => (op, keys)

def PlacementSet.applyOp (now : Nat) (p : PlacementSet H) (op : TierPlacementOp H × List H) :
    PlacementSet H :=
  match op.1 with
  | .ready scope tier placement generation _ =>
    op.2.foldl (fun p hash =>
      p.applyReady (scope.key tier hash) generation ⟨generation, placement, now⟩) p
  | .remove scope tier generation _ =>
    op.2.foldl (fun p hash => p.applyRemove (scope.key tier hash) generation) p

/-- The transitions of a projection that exists. -/
def applyTo (limits : ProjectionLimits) (projection : InstanceProjection H)
    (batch : TierPlacementBatch H) (now : Nat) : InstanceProjection H × DeltaOutcome :=
  if projection.installedEpoch ≠ some batch.registrationEpoch then
    (projection.clear, .invalidated .unknownEpoch)
  else if projection.valid = false then (projection, .discarded .awaitingSnapshot)
  else if batch.snapshotGeneration < projection.installedGeneration then
    (projection, .discarded .staleGeneration)
  else if projection.installedGeneration < batch.snapshotGeneration then
    (projection.invalidate, .invalidated .generationAhead)
  -- a successor that does not exist is a gap, not a replay
  else if projection.lastSeq = u64Max ∨ batch.seq ≠ projection.lastSeq + 1 then
    (projection.invalidate, .invalidated .sequenceGap)
  else
    match resolveOps projection.manifests batch.ops with
    | none => (projection.invalidate, .invalidated .unresolvedInterval)
    | some resolved =>
      let placements := resolved.foldl (PlacementSet.applyOp now) projection.placements
      if limits.maxReadyPerInstance < placements.retained then
        (projection.clear, .invalidated .capacityExceeded)
      else
        ({ projection with placements := placements, lastSeq := batch.seq },
          .applied batch.seq placements.ready.len)

/-! ### All projections -/

structure Projection (H : Type) [DecidableEq H] where
  state : Keyed (CacheManifestId × InstanceId) (InstanceProjection H)
  /-- The instances that registered the indexer feature; the manager keeps this set. -/
  registered : Finset InstanceId
  unknownRequestStamps : InstanceId → Option Nat
  limits : ProjectionLimits

namespace Projection

def new (registered : Finset InstanceId) (limits : ProjectionLimits) : Projection H :=
  ⟨∅, registered, fun _ => none, limits⟩

variable (t : Projection H)

def holder (instanceId : InstanceId) (p : TierDepth × ReadyRecord) : TierPlacementHolder :=
  ⟨instanceId, p.1, p.2.placement, p.2.generation, p.2.observedAtUnixMs⟩

/-- What one instance answers; an invalid projection answers nothing. -/
def answers (cache : CacheManifestId) (scope : PlacementScope) (hash : H)
    (instanceId : InstanceId) : List TierPlacementHolder :=
  match t.state.lookup (cache, instanceId) with
  | none => []
  | some projection =>
    if projection.valid then
      (projection.placements.atScope hash scope).map (holder instanceId)
    else []

/-- Sorted by depth, then by instance. -/
def holders (cache : CacheManifestId) (scope : PlacementScope) (hash : H) :
    List TierPlacementHolder :=
  let instances := ((t.state.keys.filter fun k => k.1 = cache).image Prod.snd).sort (· ≤ ·)
  (instances.flatMap (t.answers cache scope hash)).insertionSort fun left right =>
    left.tier < right.tier ∨ left.tier = right.tier ∧ left.instanceId ≤ right.instanceId

def removeInstance (instanceId : InstanceId) : Projection H :=
  { t with
    state := t.state.retain fun k _ => k.2 ≠ instanceId
    unknownRequestStamps := Function.update t.unknownRequestStamps instanceId none }

/-- Whether a request that was last made at `last` may be made again. -/
def mayRequest (limits : ProjectionLimits) (last : Option Nat) (now : Nat) : Bool :=
  last.all fun last => limits.snapshotRequestMinIntervalMs ≤ now - last

/-- Ask for a snapshot of a projection that is not there; the second result says whether a request
went out. -/
def requestUnknownSnapshot (instanceId : InstanceId) (now : Nat) : Projection H × Bool :=
  if mayRequest t.limits (t.unknownRequestStamps instanceId) now then
    ({ t with
      unknownRequestStamps := Function.update t.unknownRequestStamps instanceId (some now) }, true)
  else (t, false)

def requestSnapshot (limits : ProjectionLimits) (projection : InstanceProjection H) (now : Nat) :
    InstanceProjection H × Bool :=
  if mayRequest limits projection.snapshotRequestedAtMs now then
    ({ projection with snapshotRequestedAtMs := some now }, true)
  else (projection, false)

/-- A batch arrives.  It creates no entry. -/
def applyDelta (batch : TierPlacementBatch H) (now : Nat) : Projection H × DeltaOutcome × Bool :=
  match batch.validate with
  | .error error => (t, .discarded (.rejected error.rejection), false)
  | .ok _ =>
    if batch.instanceId ∉ t.registered then (t, .discarded .unregisteredInstance, false)
    else
      match t.state.lookup batch.key with
      | none =>
        let r := t.requestUnknownSnapshot batch.instanceId now
        (r.1, .invalidated .noProjection, r.2)
      | some projection =>
        let r := applyTo t.limits projection batch now
        let asked := if r.2.asks then requestSnapshot t.limits r.1 now else (r.1, false)
        ({ t with state := t.state.insert batch.key asked.1 }, r.2, asked.2)

variable [LineageHash H] (t : Projection H)

def installManifests : List (TierPlacementManifest H) →
    Except (TierPlacementError H) (Nat → Option (BundleResourceLineage H))
  | [] => .ok fun _ => none
  | m :: rest =>
    m.lineage.bind fun lineage => (installManifests rest).map fun manifests id =>
      -- a later manifest of the same number would replace this one
      (manifests id).or (if id = m.manifestId then some lineage else none)

omit [LineageHash H] in
/-- The keys of one entry of a snapshot, as long as there is room. -/
def installHashes (limit now : Nat) (entry : TierPlacementEntry H) : List H → PlacementSet H →
    Except (ProjectionError H) (PlacementSet H)
  | [], p => .ok p
  | hash :: rest, p =>
    (ensure (p.ready.len < limit) (.capacity "ready placements per instance" limit)).bind fun _ =>
      installHashes limit now entry rest
        (p.install (entry.scope.key entry.tier hash) ⟨entry.generation, entry.placement, now⟩)

omit [LineageHash H] in
def installEntries (limit now : Nat) : List (TierPlacementEntry H) → PlacementSet H →
    Except (ProjectionError H) (PlacementSet H)
  | [], p => .ok p
  | entry :: rest, p =>
    match entry.keys with
    | .hashes hashes =>
      (installHashes limit now entry hashes p).bind (installEntries limit now rest)
    | .manifestInterval _ _ _ => .error (.invalid (.inexactSnapshotKeys 0))

/-- A snapshot's contents, built before the state is touched. -/
def buildSnapshot (limits : ProjectionLimits) (snapshot : TierPlacementSnapshot H)
    (authorizedEpoch : RegistrationEpoch) (now : Nat) :
    Except (ProjectionError H) ((Nat → Option (BundleResourceLineage H)) × PlacementSet H) :=
  (snapshot.validate.mapError .invalid).bind fun _ =>
  (ensure (snapshot.registrationEpoch = authorizedEpoch) .epochMismatch).bind fun _ =>
  (ensure (snapshot.manifests.length ≤ limits.maxManifestsPerInstance)
    (.capacity "manifests per instance" limits.maxManifestsPerInstance)).bind fun _ =>
  ((installManifests snapshot.manifests).mapError .invalid).bind fun manifests =>
    (installEntries limits.maxReadyPerInstance now snapshot.entries .empty).map fun placements =>
      (manifests, placements)

/-- The hub has this snapshot or a newer one of the same epoch. -/
def isCurrent (projection : InstanceProjection H) (snapshot : TierPlacementSnapshot H)
    (authorizedEpoch : RegistrationEpoch) : Bool :=
  projection.installedEpoch = some authorizedEpoch ∧
    (snapshot.snapshotGeneration < projection.installedGeneration ∨
      snapshot.snapshotGeneration = projection.installedGeneration ∧ projection.valid = true)

/-- A snapshot arrives, pushed with a credential that authorises `authorizedEpoch`. -/
def installSnapshot (snapshot : TierPlacementSnapshot H) (authorizedEpoch : RegistrationEpoch)
    (now : Nat) : Except (ProjectionError H) (Projection H × SnapshotInstall) :=
  (buildSnapshot t.limits snapshot authorizedEpoch now).bind fun built =>
  (ensure (snapshot.key ∈ t.state.keys ∨ t.state.len < t.limits.maxInstances)
    (.capacity "projected instances" t.limits.maxInstances)).bind fun _ =>
    let projection := (t.state.lookup snapshot.key).getD .empty
    if isCurrent projection snapshot authorizedEpoch then
      .ok ({ t with state := t.state.insert snapshot.key projection },
        .alreadyCurrent projection.installedGeneration)
    else
      .ok ({ t with
        state := t.state.insert snapshot.key
          { installedEpoch := some authorizedEpoch
            lastSeq := snapshot.seqFloor
            installedGeneration := snapshot.snapshotGeneration
            valid := true
            manifests := built.1
            placements := built.2
            snapshotRequestedAtMs := none } },
        .installed snapshot.snapshotGeneration snapshot.seqFloor)

end Projection

end Kvbm.Hub.Tier
