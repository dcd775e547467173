/-
How a transfer is routed.

The storage of both sides and the side of the wire they are on decide between a CPU copy, a CUDA
copy, a NIXL request and two hops through a bounce buffer.
-/
import Kvbm.Transfer.TwoHop

namespace Kvbm.Transfer

inductive TransferStrategy
  | memcpy
  | cudaAsyncH2D
  | cudaAsyncD2H
  | cudaAsyncD2D
  | nixlRead
  | nixlWrite
  | nixlWriteFlipped
  | nixlReadFlipped
  | invalid
  deriving DecidableEq, Repr

def TransferStrategy.isCudaFamily : TransferStrategy → Bool
  | cudaAsyncH2D | cudaAsyncD2H | cudaAsyncD2D => true
  | _ => false

inductive TransferPlan
  | direct (strategy : TransferStrategy)
  | twoHop (first : TransferStrategy) (bounceLocation : StorageKind) (second : TransferStrategy)
  deriving DecidableEq, Repr

structure TransferCapabilities where
  allowGds : Bool
  allowGpuRdma : Bool
  cudaGraphReplay : Bool
  deriving DecidableEq, Repr

inductive StrategyError
  | bothRemote
  | diskOverNixl
  | gpuRdmaDisabled
  /-- The source panics: pageable memory and a device do not exchange data. -/
  | systemAndDevice
  deriving DecidableEq, Repr

variable (caps : TransferCapabilities)

/-- Both sides are local. -/
def selectDirectStrategy : StorageKind → StorageKind → Except StrategyError TransferPlan
  | .system, .system | .system, .pinned | .pinned, .system | .pinned, .pinned =>
    .ok (.direct .memcpy)
  | .system, .device _ => .error .systemAndDevice
  | .pinned, .device _ => .ok (.direct .cudaAsyncH2D)
  | .device _, .system => .error .systemAndDevice
  | .device _, .pinned => .ok (.direct .cudaAsyncD2H)
  | .device _, .device _ => .ok (.direct .cudaAsyncD2D)
  | .system, .disk _ | .pinned, .disk _ => .ok (.direct .nixlWrite)
  | .disk _, .system | .disk _, .pinned => .ok (.direct .nixlReadFlipped)
  | .disk _, .disk _ => .ok (.twoHop .nixlReadFlipped .pinned .nixlWrite)
  | .device _, .disk _ =>
    .ok (if caps.allowGds then .direct .nixlWrite else .twoHop .cudaAsyncD2H .pinned .nixlWrite)
  | .disk _, .device _ =>
    .ok (if caps.allowGds then .direct .nixlRead
      else .twoHop .nixlReadFlipped .pinned .cudaAsyncH2D)

def StorageKind.isDisk : StorageKind → Bool
  | .disk _ => true
  | _ => false

def StorageKind.isDevice : StorageKind → Bool
  | .device _ => true
  | _ => false

/-- One side is local. -/
def selectRemoteStrategyNixl (src dst : StorageKind) (isSrcLocal : Bool) :
    Except StrategyError TransferPlan :=
  if src.isDisk ∨ dst.isDisk then .error .diskOverNixl
  else if !caps.allowGpuRdma ∧ (src.isDevice ∨ dst.isDevice) then .error .gpuRdmaDisabled
  else .ok (.direct (if isSrcLocal then .nixlWrite else .nixlReadFlipped))

/-- Where the memory of a layout is. -/
structure Location where
  storage : StorageKind
  isLocal : Bool
  deriving DecidableEq, Repr

def selectStrategy (src dst : Location) : Except StrategyError TransferPlan :=
  match src.isLocal, dst.isLocal with
  | false, false => .error .bothRemote
  | true, true => selectDirectStrategy caps src.storage dst.storage
  | isSrcLocal, _ => selectRemoteStrategyNixl caps src.storage dst.storage isSrcLocal

end Kvbm.Transfer
