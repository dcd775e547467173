/-
Messages of the tier placement stream.

A publisher tells the hub which blocks it holds at which depth.  A batch carries changes and is
numbered; a snapshot carries everything, is numbered by a generation, and says above which batch
number the changes go on.  Both sides check the shape of a message with the same functions.
-/
import Kvbm.Hub.Lineage
import Mathlib.Algebra.GroupWithZero.Nat

namespace Kvbm.Hub.Tier

open Lib

/-- `TIER_PLACEMENT_SCHEMA_VERSION`. -/
def schemaVersion : Nat := 1

def maxOpsPerBatch : Nat := 2 ^ 16

def maxSnapshotEntries : Nat := 2 ^ 20

def maxKeysPerMessage : Nat := 2 ^ 20

def maxMedia : Nat := 256

def maxManifests : Nat := 2 ^ 12

def u64Max : Nat := 2 ^ 64 - 1

/-- A numeric depth; depth `0` is G1 and is never published. -/
abbrev TierDepth := Nat

def isPublishable (depth : TierDepth) : Bool := depth ≠ 0

structure TierMedium where
  depth : TierDepth
  medium : String
  capabilities : Nat
  deriving DecidableEq, Repr

structure PlacementScope where
  resource : LogicalResourceId
  lane : Nat
  deriving DecidableEq, Repr

inductive PhysicalPlacementMode
  | whole
  | tpShards (count : Nat)
  | dataStripes (count : Nat)
  deriving DecidableEq, Repr

inductive KeyRange (H : Type)
  | hashes (hashes : List H)
  | manifestInterval (manifestId start len : Nat)
  deriving DecidableEq, Repr

inductive TierPlacementRejection
  | undecodable
  | unsupportedVersion
  | invalid
  deriving DecidableEq, Repr

inductive TierPlacementError (H : Type)
  | decode (detail : String)
  | unsupportedVersion (found supported : Nat)
  | g1NotPublishable (index : Nat)
  | mediumNotPublishable (index : Nat)
  | inexactSnapshotKeys (index : Nat)
  | emptyKeys (index : Nat)
  | intervalOverflow (index manifestId start len : Nat)
  | duplicateMediumDepth (depth : TierDepth)
  | undescribedDepth (index : Nat) (depth : TierDepth)
  | duplicateManifestId (manifestId : Nat)
  | invalidManifest (manifestId : Nat) (detail : BundleResourceLineageError H)
  | tooLarge (what : String) (count limit : Nat)
  deriving DecidableEq, Repr

def TierPlacementError.rejection {H : Type} : TierPlacementError H → TierPlacementRejection
  | .decode _ => .undecodable
  | .unsupportedVersion _ _ => .unsupportedVersion
  | _ => .invalid

variable {H : Type}

namespace KeyRange

def isExact : KeyRange H → Bool
  | hashes _ => true
  | manifestInterval _ _ _ => false

def keyCount : KeyRange H → Nat
  | hashes l => l.length
  | manifestInterval _ _ len => len

/-- The interval's end has to fit in a `u32`. -/
def validate (index : Nat) : KeyRange H → Except (TierPlacementError H) Unit
  | hashes l => ensure (l ≠ []) (.emptyKeys index)
  | manifestInterval manifestId start len =>
    (ensure (len ≠ 0) (.emptyKeys index)).bind fun _ =>
      ensure (start + len < 2 ^ 32) (.intervalOverflow index manifestId start len)

end KeyRange

inductive TierPlacementOp (H : Type)
  | ready (scope : PlacementScope) (tier : TierDepth) (placement : PhysicalPlacementMode)
      (generation : Nat) (keys : KeyRange H)
  | remove (scope : PlacementScope) (tier : TierDepth) (generation : Nat) (keys : KeyRange H)
  deriving DecidableEq, Repr

namespace TierPlacementOp

def scope : TierPlacementOp H → PlacementScope
  | ready scope _ _ _ _ | remove scope _ _ _ => scope

def tier : TierPlacementOp H → TierDepth
  | ready _ tier _ _ _ | remove _ tier _ _ => tier

def keys : TierPlacementOp H → KeyRange H
  | ready _ _ _ _ keys | remove _ _ _ keys => keys

def validate (index : Nat) (op : TierPlacementOp H) : Except (TierPlacementError H) Unit :=
  (ensure (isPublishable op.tier = true) (.g1NotPublishable index)).bind fun _ =>
    op.keys.validate index

end TierPlacementOp

structure TierPlacementEntry (H : Type) where
  scope : PlacementScope
  tier : TierDepth
  placement : PhysicalPlacementMode
  generation : Nat
  keys : KeyRange H
  deriving DecidableEq, Repr

def TierPlacementEntry.validate (index : Nat) (entry : TierPlacementEntry H) :
    Except (TierPlacementError H) Unit :=
  (ensure (isPublishable entry.tier = true) (.g1NotPublishable index)).bind fun _ =>
    (ensure (entry.keys.isExact = true) (.inexactSnapshotKeys index)).bind fun _ =>
      entry.keys.validate index

structure TierPlacementManifest (H : Type) where
  manifestId : Nat
  resource : LogicalResourceId
  hashes : List H
  deriving DecidableEq, Repr

/-- `TierPlacementBatchV1`. -/
structure TierPlacementBatch (H : Type) where
  v : Nat
  cache : CacheManifestId
  instanceId : InstanceId
  registrationEpoch : RegistrationEpoch
  seq : Nat
  snapshotGeneration : Nat
  ops : List (TierPlacementOp H)
  deriving DecidableEq, Repr

/-- `TierPlacementSnapshotV1`. -/
structure TierPlacementSnapshot (H : Type) where
  v : Nat
  cache : CacheManifestId
  instanceId : InstanceId
  registrationEpoch : RegistrationEpoch
  snapshotGeneration : Nat
  seqFloor : Nat
  media : List TierMedium
  manifests : List (TierPlacementManifest H)
  entries : List (TierPlacementEntry H)
  deriving DecidableEq, Repr

def checkVersion (v : Nat) : Except (TierPlacementError H) Unit :=
  ensure (v ≤ schemaVersion) (.unsupportedVersion v schemaVersion)

def checkSize (what : String) (count limit : Nat) : Except (TierPlacementError H) Unit :=
  ensure (count ≤ limit) (.tooLarge what count limit)

namespace TierPlacementBatch

def key (batch : TierPlacementBatch H) : CacheManifestId × InstanceId :=
  (batch.cache, batch.instanceId)

def validate (batch : TierPlacementBatch H) : Except (TierPlacementError H) Unit :=
  (checkVersion batch.v).bind fun _ =>
  (checkSize "batch ops" batch.ops.length maxOpsPerBatch).bind fun _ =>
  (forEach (fun p => p.1.validate p.2) batch.ops.zipIdx).bind fun _ =>
    checkSize "batch keys" (batch.ops.map fun op => op.keys.keyCount).sum maxKeysPerMessage

end TierPlacementBatch

variable [DecidableEq H] [LineageHash H]

def TierPlacementManifest.lineage (m : TierPlacementManifest H) :
    Except (TierPlacementError H) (BundleResourceLineage H) :=
  (BundleResourceLineage.new m.resource m.hashes).mapError (.invalidManifest m.manifestId)

namespace TierPlacementSnapshot

omit [DecidableEq H] [LineageHash H] in
def key (snapshot : TierPlacementSnapshot H) : CacheManifestId × InstanceId :=
  (snapshot.cache, snapshot.instanceId)

/-- The depths described, each once. -/
def checkMedia : List (TierMedium × Nat) → List TierDepth →
    Except (TierPlacementError H) (List TierDepth)
  | [], seen => .ok seen
  | (medium, index) :: rest, seen =>
    (ensure (isPublishable medium.depth = true) (.mediumNotPublishable index)).bind fun _ =>
    (ensure (medium.depth ∉ seen) (.duplicateMediumDepth medium.depth)).bind fun _ =>
      checkMedia rest (seen ++ [medium.depth])

def checkManifests : List (TierPlacementManifest H) → List Nat → Except (TierPlacementError H) Unit
  | [], _ => .ok ()
  | m :: rest, ids =>
    (ensure (m.manifestId ∉ ids) (.duplicateManifestId m.manifestId)).bind fun _ =>
    m.lineage.bind fun _ => checkManifests rest (ids ++ [m.manifestId])

def checkEntry (seen : List TierDepth) (entry : TierPlacementEntry H) (index : Nat) :
    Except (TierPlacementError H) Unit :=
  (entry.validate index).bind fun _ =>
    ensure (entry.tier ∈ seen) (.undescribedDepth index entry.tier)

def validate (snapshot : TierPlacementSnapshot H) : Except (TierPlacementError H) Unit :=
  (checkVersion snapshot.v).bind fun _ =>
  (checkSize "snapshot media" snapshot.media.length maxMedia).bind fun _ =>
  (checkSize "snapshot entries" snapshot.entries.length maxSnapshotEntries).bind fun _ =>
  (checkMedia snapshot.media.zipIdx []).bind fun seen =>
  (checkSize "snapshot manifests" snapshot.manifests.length maxManifests).bind fun _ =>
  (checkManifests snapshot.manifests []).bind fun _ =>
  (checkSize "snapshot manifest keys" (snapshot.manifests.map fun m => m.hashes.length).sum
    maxKeysPerMessage).bind fun _ =>
  (forEach (fun p => checkEntry seen p.1 p.2) snapshot.entries.zipIdx).bind fun _ =>
    checkSize "snapshot keys" (snapshot.entries.map fun entry => entry.keys.keyCount).sum
      maxKeysPerMessage

end TierPlacementSnapshot

end Kvbm.Hub.Tier
