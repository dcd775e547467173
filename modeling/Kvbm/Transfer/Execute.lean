/-
Executing a transfer without the planner.

The memcpy, CUDA and NIXL executors copy whole blocks when both layouts are fully contiguous and
all layers are asked for, and otherwise one region for each block, layer and outer index.  What
they issue is a list of copies.  A NIXL request may be split where the registered memory is; the
order of its two descriptor lists only tells the backend which one is local.
-/
import Kvbm.Transfer.Lower

namespace Kvbm.Transfer

open Lib

inductive CopyEngine
  | auto
  | vectorizedKernel
  | memcpyBatch
  deriving DecidableEq, Repr

inductive ExecuteError
  | lengthMismatch (src dst : Nat)
  | duplicateDestinationBlocks (duplicates : List Nat)
  | overlappingBlocks (overlapping : List Nat)
  | srcBlockOutOfRange (block max : Nat)
  | dstBlockOutOfRange (block max : Nat)
  | strategy (e : StrategyError)
  | slicesOnTwoHop
  | slicesNeedPlanner (count : Nat)
  | cudaStreamUnsupported
  | copyEngineUnsupported
  | layerRangeWithPlanner
  | layerCounts (src dst : Nat)
  | outerDims (src dst : Nat)
  | regionSizes (src dst : List Nat)
  | transformNeeded (src dst : KvBlockLayout)
  | layout (e : LayoutError)
  | sizeMismatch (src dst : Nat)
  | leaseRefused
  | leaseDoesNotCover
  | launchFailed
  | raggedForKernel
  | invalidStrategy
  /-- The source asserts that the local side of a request is local. -/
  | localityViolated
  deriving DecidableEq, Repr

/-- A physical layout: its memory, where that is, and what registers it. -/
structure PhysicalLayout where
  layout : Layout
  location : Location
  /-- Which layout object it is. -/
  identity : Nat
  /-- The registered ranges of some bytes, if the memory is mapped piece by piece. -/
  provider : Option (Nat → Nat → Option (List Range))

structure TransferOptions where
  layerRange : Option Range
  cudaStream : Bool
  copyEngine : CopyEngine
  usePlanner : Bool
  axisSlices : List AxisIntersection
  deriving DecidableEq, Repr

/-! ### The checks at the entry -/

/-- The numbers that occur again, in the order of their second occurrence. -/
def duplicatesOf : List Nat → List Nat → List Nat → List Nat
  | [], _, duplicates => duplicates
  | id :: rest, seen, duplicates =>
    if id ∈ seen then
      duplicatesOf rest seen (if id ∈ duplicates then duplicates else duplicates ++ [id])
    else duplicatesOf rest (id :: seen) duplicates

def validateDstUnique (dstBlockIds : List Nat) : Except ExecuteError Unit :=
  match duplicatesOf dstBlockIds [] [] with
  | [] => .ok ()
  | duplicates => .error (.duplicateDestinationBlocks duplicates)

def validateDisjointSameLayout (src dst : PhysicalLayout) (srcBlockIds dstBlockIds : List Nat) :
    Except ExecuteError Unit :=
  if src.identity ≠ dst.identity then .ok ()
  else
    match dstBlockIds.filter (· ∈ srcBlockIds) with
    | [] => .ok ()
    | overlapping => .error (.overlappingBlocks overlapping)

/-- A debug build also checks that the blocks are disjoint and in range. -/
def validateBlockTransfer (debug : Bool) (src dst : PhysicalLayout)
    (srcBlockIds dstBlockIds : List Nat) : Except ExecuteError Unit :=
  (ensure (srcBlockIds.length = dstBlockIds.length)
    (.lengthMismatch srcBlockIds.length dstBlockIds.length)).bind fun _ =>
  (validateDstUnique dstBlockIds).bind fun _ =>
  if debug then
    (validateDisjointSameLayout src dst srcBlockIds dstBlockIds).bind fun _ =>
    (forEach (fun b => ensure (b < src.layout.config.numBlocks)
      (.srcBlockOutOfRange b src.layout.config.numBlocks)) srcBlockIds).bind fun _ =>
    forEach (fun b => ensure (b < dst.layout.config.numBlocks)
      (.dstBlockOutOfRange b dst.layout.config.numBlocks)) dstBlockIds
  else .ok ()

/-! ### What all three executors do -/

section Executors

variable (src dst : PhysicalLayout) (pairs : List (Nat × Nat)) (layerRange : Option Range)

def validateLayoutCompatibility : Except ExecuteError Unit :=
  (ensure (src.layout.blockRegionSizes = dst.layout.blockRegionSizes)
    (.regionSizes src.layout.blockRegionSizes dst.layout.blockRegionSizes)).bind fun _ =>
  ensure (src.layout.blockLayout.requiresTransform dst.layout.blockLayout = false)
    (.transformNeeded src.layout.blockLayout dst.layout.blockLayout)

/-- The checks that every executor makes before it copies. -/
def checkShapes : Except ExecuteError Unit :=
  (ensure (src.layout.config.numLayers = dst.layout.config.numLayers)
    (.layerCounts src.layout.config.numLayers dst.layout.config.numLayers)).bind fun _ =>
  (ensure (src.layout.config.outerDim = dst.layout.config.outerDim)
    (.outerDims src.layout.config.outerDim dst.layout.config.outerDim)).bind fun _ =>
  validateLayoutCompatibility src dst

def layersOf : Range := layerRange.getD ⟨0, src.layout.config.numLayers⟩

def canUseWholeBlockTransfer : Bool :=
  (match layerRange with
    | none => true
    | some range => range.start = 0 ∧ range.stop = src.layout.config.numLayers) &&
  src.layout.isFullyContiguous && dst.layout.isFullyContiguous

variable (l : PhysicalLayout)

def regionOf (block layer outer : Nat) : Except ExecuteError MemoryRegion :=
  (l.layout.memoryRegion block layer outer).mapError .layout

/-- Where a pair of blocks starts on both sides. -/
def blockStarts (pair : Nat × Nat) : Except ExecuteError (Nat × Nat) :=
  (regionOf src pair.1 0 0).bind fun s => (regionOf dst pair.2 0 0).map fun d => (s.addr, d.addr)

/-- One copy for each pair of blocks. -/
def wholeBlocks : Except ExecuteError (List CopyOp) :=
  collect (fun pair => (blockStarts src dst pair).map fun a =>
    [⟨a.1, a.2, src.layout.bytesPerBlock⟩]) pairs

variable (layers : Range)

/-- The block pair, layer and outer index of every region to copy, in the order of the loops. -/
def chunkIds : List ((Nat × Nat) × Nat × Nat) :=
  pairs.flatMap fun pair =>
    ((List.range layers.len).map (layers.start + ·)).flatMap fun layer =>
      (List.range src.layout.config.outerDim).map fun outer => (pair, layer, outer)

def chunkRegions (c : (Nat × Nat) × Nat × Nat) :
    Except ExecuteError (MemoryRegion × MemoryRegion) :=
  (regionOf src c.1.1 c.2.1 c.2.2).bind fun s =>
    (regionOf dst c.1.2 c.2.1 c.2.2).map fun d => (s, d)

/-- One copy for each region, whose sizes must agree. -/
def checkedChunks : Except ExecuteError (List CopyOp) :=
  collect (fun c => (chunkRegions src dst c).bind fun (s, d) =>
    if s.size ≠ d.size then .error (.sizeMismatch s.size d.size)
    else .ok [⟨s.addr, d.addr, s.size⟩]) (chunkIds src pairs layers)

/-- One copy of `chunkSize` bytes for each region. -/
def uniformChunks (chunkSize : Nat) : Except ExecuteError (List CopyOp) :=
  collect (fun c => (chunkRegions src dst c).map fun (s, d) => [⟨s.addr, d.addr, chunkSize⟩])
    (chunkIds src pairs layers)

/-! ### memcpy -/

def executeMemcpyTransfer : Except ExecuteError (List CopyOp) :=
  (checkShapes src dst).bind fun _ =>
  if canUseWholeBlockTransfer src dst layerRange then wholeBlocks src dst pairs
  else checkedChunks src dst pairs (layersOf src layerRange)

/-! ### CUDA -/

/-- The kernel is given the number of copies as an `i32`. -/
def launchVectorizedCopy (ops : List CopyOp) : Except ExecuteError (List CopyOp) :=
  let count := ops.length % 2 ^ 32
  if 2 ^ 31 ≤ count then .error .launchFailed else .ok (ops.take count)

/-- The size of all regions, if there is one. -/
def uniformChunkBytes : Option Nat :=
  match src.layout.blockRegionSizes with
  | [] => none
  | first :: rest => if ∀ bytes ∈ rest, bytes = first then some first else none

/-- The lease of the registered memory must cover the bytes, piece by piece. -/
def validateRanges : List Range → Nat → Nat → Bool
  | [], cursor, stop => cursor = stop
  | r :: rest, cursor, stop =>
    r.start = cursor ∧ r.start < r.stop ∧ r.stop ≤ stop ∧ validateRanges rest r.stop stop

def acquire (address bytes : Nat) : Except ExecuteError (List Range) :=
  match l.provider with
  | none => .ok [⟨address, address + bytes⟩]
  | some lease =>
    match lease address bytes with
    | none => .error .leaseRefused
    | some ranges =>
      if validateRanges ranges address (address + bytes) then .ok ranges
      else .error .leaseDoesNotCover

/-- Acquires, and for CUDA only holds, what is registered under the blocks. -/
def acquireBlocks (blocks : List Nat) : Except ExecuteError Unit :=
  if l.provider.isNone then .ok ()
  else
    let layers := layersOf l layerRange
    forEach (fun block => forEach (fun layer => forEach (fun outer =>
      (regionOf l block layer outer).bind fun r => (acquire l r.addr r.size).map fun _ => ())
        (List.range l.layout.config.outerDim))
        ((List.range layers.len).map (layers.start + ·))) blocks

def cudaCopies (copyEngine : CopyEngine) : Except ExecuteError (List CopyOp) :=
  let layers := layersOf src layerRange
  if canUseWholeBlockTransfer src dst layerRange then
    match copyEngine with
    | .auto | .memcpyBatch => wholeBlocks src dst pairs
    | .vectorizedKernel => (wholeBlocks src dst pairs).bind launchVectorizedCopy
  else
    match uniformChunkBytes src, copyEngine with
    | some chunkSize, .memcpyBatch => uniformChunks src dst pairs layers chunkSize
    | some chunkSize, _ => (uniformChunks src dst pairs layers chunkSize).bind launchVectorizedCopy
    | none, .vectorizedKernel => .error .raggedForKernel
    | none, _ => checkedChunks src dst pairs layers

def executeCudaTransfer (copyEngine : CopyEngine) : Except ExecuteError (List CopyOp) :=
  (acquireBlocks layerRange src (pairs.map Prod.fst)).bind fun _ =>
  (acquireBlocks layerRange dst (pairs.map Prod.snd)).bind fun _ =>
  (checkShapes src dst).bind fun _ => cudaCopies src dst pairs layerRange copyEngine

/-! ### NIXL -/

/-- Split a copy where either side's ranges end.  Every turn ends a range, so there are not more
turns than ranges. -/
def splitLoop : Nat → List Range → List Range → List CopyOp
  | fuel + 1, s :: source, d :: destination =>
    let size := min s.len d.len
    let source' := if size = s.len then source else ⟨s.start + size, s.stop⟩ :: source
    let destination' :=
      if size = d.len then destination else ⟨d.start + size, d.stop⟩ :: destination
    ⟨s.start, d.start, size⟩ :: splitLoop fuel source' destination'
  | _, _, _ => []

def splitPairs (source destination : List Range) : List CopyOp :=
  splitLoop (source.length + destination.length) source destination

def appendPair (op : CopyOp) : Except ExecuteError (List CopyOp) :=
  if op.size = 0 then .ok []
  else
    (acquire src op.srcAddr op.size).bind fun source =>
      (acquire dst op.dstAddr op.size).map fun destination => splitPairs source destination

/-- A write needs a local source, a read a local destination. -/
def ownSideIsLocal : TransferStrategy → Bool
  | .nixlWrite | .nixlWriteFlipped => src.location.isLocal
  | _ => dst.location.isLocal

def executeNixlTransfer (strategy : TransferStrategy) : Except ExecuteError (List CopyOp) :=
  (checkShapes src dst).bind fun _ =>
  if !ownSideIsLocal src dst strategy then .error .localityViolated
  else
    (if canUseWholeBlockTransfer src dst layerRange then wholeBlocks src dst pairs
      else checkedChunks src dst pairs (layersOf src layerRange)).bind fun ops =>
      collect (appendPair src dst) ops

end Executors

/-! ### The entry -/

/-- What became of a transfer. -/
inductive Issued
  | copies (ops : List CopyOp)
  /-- The planner took it. -/
  | planner
  | twoHop
  deriving DecidableEq, Repr

def executeDirectTransfer (src dst : PhysicalLayout) (pairs : List (Nat × Nat))
    (o : TransferOptions) (usePlanner : Bool) (strategy : TransferStrategy) :
    Except ExecuteError Issued :=
  if o.axisSlices ≠ [] ∧ !usePlanner then .error (.slicesNeedPlanner o.axisSlices.length)
  else
    match strategy with
    | .memcpy =>
      if o.cudaStream then .error .cudaStreamUnsupported
      else if o.copyEngine ≠ .auto then .error .copyEngineUnsupported
      else (executeMemcpyTransfer src dst pairs o.layerRange).map .copies
    | .cudaAsyncH2D | .cudaAsyncD2H | .cudaAsyncD2D =>
      if usePlanner then
        if o.copyEngine ≠ .auto then .error .copyEngineUnsupported
        else if o.layerRange ≠ none ∧
            src.layout.blockLayout.requiresTransform dst.layout.blockLayout = false then
          .error .layerRangeWithPlanner
        else .ok .planner
      else (executeCudaTransfer src dst pairs o.layerRange o.copyEngine).map .copies
    | .nixlRead | .nixlWrite | .nixlReadFlipped | .nixlWriteFlipped =>
      if o.cudaStream then .error .cudaStreamUnsupported
      else if o.copyEngine ≠ .auto then .error .copyEngineUnsupported
      else if usePlanner then
        if o.layerRange ≠ none then .error .layerRangeWithPlanner else .ok .planner
      else (executeNixlTransfer src dst pairs o.layerRange strategy).map .copies
    | .invalid => .error .invalidStrategy

/-- Layouts that need a kernel always go to the planner, where the strategy has one. -/
def executeTransfer (debug : Bool) (caps : TransferCapabilities) (src dst : PhysicalLayout)
    (srcBlockIds dstBlockIds : List Nat) (o : TransferOptions) : Except ExecuteError Issued :=
  (validateBlockTransfer debug src dst srcBlockIds dstBlockIds).bind fun _ =>
  let usePlanner := o.usePlanner || src.layout.blockLayout.requiresTransform dst.layout.blockLayout
  ((selectStrategy caps src.location dst.location).mapError .strategy).bind fun
    | .direct strategy =>
      executeDirectTransfer src dst (srcBlockIds.zip dstBlockIds) o usePlanner strategy
    | .twoHop _ _ _ => if o.axisSlices ≠ [] then .error .slicesOnTwoHop else .ok .twoHop

end Kvbm.Transfer
