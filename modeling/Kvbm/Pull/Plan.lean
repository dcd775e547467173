/-
Pulling blocks from a peer with another degree of tensor parallelism.

Both sides cut one axis of every block into equal shards, one for each worker.  A plan says,
for each worker of this side, from which workers of the other side it pulls which part of
the axis.  One degree of parallelism must divide the other.
-/
import Kvbm.Index.Basic
import Kvbm.Layout.Axis

namespace Kvbm

inductive LogicalLayoutHandle
  | g1
  | g2
  | g3
  | g4
  deriving DecidableEq, Repr

inductive KvbmTransferRoute
  | offloadD2H
  | offloadH2D
  | offloadD2D
  | offloadD2O
  | onboardD2H
  | onboardH2D
  | onboardD2D
  | onboardO2D
  deriving DecidableEq, Repr

abbrev InstanceId := Nat

abbrev LogicalResourceId := Nat

structure PullRef where
  srcBlockId : BlockId
  dstBlockId : BlockId
  deriving DecidableEq, Repr

/-- Axes that are not listed are not restricted. -/
structure LayoutSlice where
  axes : List (KvDim × Range)
  deriving DecidableEq, Repr

def LayoutSlice.full : LayoutSlice := ⟨[]⟩

def LayoutSlice.onAxis (dim : KvDim) (range : Range) : LayoutSlice := ⟨[(dim, range)]⟩

structure PullShard where
  remoteRank : Nat
  localSlice : LayoutSlice
  remoteSlice : LayoutSlice
  deriving DecidableEq, Repr

structure WirePullOptions where
  nixlWriteNotification : Option Nat
  metricRoute : Option KvbmTransferRoute
  deriving DecidableEq, Repr

structure WorkerPullPlan where
  remoteInstance : InstanceId
  sourceResource : LogicalResourceId
  sourceLayout : LogicalLayoutHandle
  dstResource : LogicalResourceId
  dstLayout : LogicalLayoutHandle
  srcBlockIds : List BlockId
  dstBlockIds : List BlockId
  shards : List PullShard
  options : WirePullOptions
  deriving DecidableEq, Repr

/-- What the planner reads of this side's parallelism. -/
structure ParallelismTemplate where
  tpSize : Nat
  ppSize : Nat
  shardAxis : KvDim
  deriving DecidableEq, Repr

/-- What the planner reads of a remote worker's parallelism. -/
structure ParallelismDescriptor where
  tpSize : Nat
  ppSize : Nat
  shardAxis : KvDim
  globalExtents : List (KvDim × Nat)
  deriving DecidableEq, Repr

inductive PullPlanError
  | localTpZero
  | localPpSize (ppSize : Nat)
  | remoteEmpty
  | remoteTpZero
  | remotePpSize (ppSize : Nat)
  | remoteTpDiffers (rank tpSize head : Nat)
  | coprimeTpSizes (localTp remoteTp : Nat)
  | shardAxisMissing (axis : KvDim)
  | notDivisibleByLocal (globalShard localTp : Nat)
  | notDivisibleByRemote (globalShard remoteTp : Nat)
  deriving DecidableEq, Repr

def extentFor (extents : List (KvDim × Nat)) (axis : KvDim) : Option Nat :=
  (extents.find? fun e => e.1 = axis).map Prod.snd

def computeShards (localRank localTp remoteTp : Nat) (shardAxis : KvDim)
    (localExtent remoteExtent : Nat) : List PullShard :=
  if localTp = remoteTp then [⟨localRank, .full, .full⟩]
  else if localTp < remoteTp then
    let n := remoteTp / localTp
    (List.range n).map fun k =>
      let localStart := k * remoteExtent
      ⟨localRank * n + k, .onAxis shardAxis ⟨localStart, localStart + remoteExtent⟩, .full⟩
  else
    let n := localTp / remoteTp
    let remoteStart := localRank % n * localExtent
    [⟨localRank / n, .full, .onAxis shardAxis ⟨remoteStart, remoteStart + localExtent⟩⟩]

/-- What all plans of one pull have in common. -/
structure PullHeader where
  remoteInstance : InstanceId
  sourceResource : LogicalResourceId
  sourceLayout : LogicalLayoutHandle
  dstResource : LogicalResourceId
  dstLayout : LogicalLayoutHandle
  options : WirePullOptions
  deriving DecidableEq, Repr

def workerPullPlan (header : PullHeader) (refs : List PullRef) (shards : List PullShard) :
    WorkerPullPlan where
  remoteInstance := header.remoteInstance
  sourceResource := header.sourceResource
  sourceLayout := header.sourceLayout
  dstResource := header.dstResource
  dstLayout := header.dstLayout
  srcBlockIds := refs.map PullRef.srcBlockId
  dstBlockIds := refs.map PullRef.dstBlockId
  shards := shards
  options := header.options

def planPullForResources (own : ParallelismTemplate) (remote : List ParallelismDescriptor)
    (header : PullHeader) (refs : List PullRef) :
    Except PullPlanError (List (Nat × WorkerPullPlan)) :=
  if own.tpSize = 0 then .error .localTpZero
  else if own.ppSize ≠ 1 then .error (.localPpSize own.ppSize)
  else
    match remote with
    | [] => .error .remoteEmpty
    | head :: rest =>
      if head.tpSize = 0 then .error .remoteTpZero
      else if head.ppSize ≠ 1 then .error (.remotePpSize head.ppSize)
      else
        match (rest.zipIdx 1).find? fun d => d.1.tpSize ≠ head.tpSize with
        | some (d, rank) => .error (.remoteTpDiffers rank d.tpSize head.tpSize)
        | none =>
          let localTp := own.tpSize
          let remoteTp := head.tpSize
          if localTp % remoteTp ≠ 0 ∧ remoteTp % localTp ≠ 0 then
            .error (.coprimeTpSizes localTp remoteTp)
          else if refs.isEmpty then .ok []
          else
            match extentFor head.globalExtents own.shardAxis with
            | none => .error (.shardAxisMissing own.shardAxis)
            | some globalShard =>
              let localExtent := globalShard / localTp
              let remoteExtent := globalShard / remoteTp
              if localExtent * localTp ≠ globalShard then
                .error (.notDivisibleByLocal globalShard localTp)
              else if remoteExtent * remoteTp ≠ globalShard then
                .error (.notDivisibleByRemote globalShard remoteTp)
              else
                .ok ((List.range localTp).filterMap fun localRank =>
                  let shards := computeShards localRank localTp remoteTp own.shardAxis
                    localExtent remoteExtent
                  if shards.isEmpty then none
                  else some (localRank, workerPullPlan header refs shards))

/-- `plan_pull`: both sides use the default resource. -/
def planPull (own : ParallelismTemplate) (remote : List ParallelismDescriptor)
    (remoteInstance : InstanceId) (sourceLayout dstLayout : LogicalLayoutHandle)
    (refs : List PullRef) (opts : WirePullOptions) :
    Except PullPlanError (List (Nat × WorkerPullPlan)) :=
  planPullForResources own remote ⟨remoteInstance, 0, sourceLayout, 0, dstLayout, opts⟩ refs

/-! ### Axis intersections -/

inductive AxisIntersectionError
  | missingFromRemote (dim : KvDim)
  | localSliceLength (dim : KvDim) (len remote : Nat)
  | restrictedOnBothSides (dim : KvDim)
  | missingFromLocal (dim : KvDim)
  | remoteSliceLength (dim : KvDim) (len own : Nat)
  deriving DecidableEq, Repr

/-- A slice of this side takes a whole axis of the other. -/
def intersectLocalSlice (remoteExtentOf : KvDim → Option Nat) (axis : KvDim × Range) :
    Except AxisIntersectionError AxisIntersection :=
  match remoteExtentOf axis.1 with
  | none => .error (.missingFromRemote axis.1)
  | some remote =>
    if axis.2.len ≠ remote then .error (.localSliceLength axis.1 axis.2.len remote)
    else .ok ⟨axis.1, ⟨0, remote⟩, axis.2⟩

/-- A slice of the other side fills a whole axis of this one. -/
def intersectRemoteSlice (seen : List KvDim) (localExtentOf : KvDim → Option Nat)
    (axis : KvDim × Range) : Except AxisIntersectionError AxisIntersection :=
  if axis.1 ∈ seen then .error (.restrictedOnBothSides axis.1)
  else
    match localExtentOf axis.1 with
    | none => .error (.missingFromLocal axis.1)
    | some own =>
      if axis.2.len ≠ own then .error (.remoteSliceLength axis.1 axis.2.len own)
      else .ok ⟨axis.1, axis.2, ⟨0, own⟩⟩

def buildAxisIntersections (shard : PullShard) (localExtentOf remoteExtentOf : KvDim → Option Nat) :
    Except AxisIntersectionError (List AxisIntersection) := do
  let fromLocal ← shard.localSlice.axes.mapM (intersectLocalSlice remoteExtentOf)
  let seen := shard.localSlice.axes.map Prod.fst
  let fromRemote ← shard.remoteSlice.axes.mapM (intersectRemoteSlice seen localExtentOf)
  return fromLocal ++ fromRemote

end Kvbm
