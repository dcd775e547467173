/-
Physical layouts of KV blocks.

A fully contiguous layout keeps all blocks in one allocation; a layer-separate layout has one
allocation for each layer.  Both address their memory in two ways: by (block, layer, outer), which
gives a region that holds all tokens and heads, and by a labelled view, in which every axis has
its stride.
-/
import Kvbm.Layout.View

namespace Kvbm

inductive BlockDim
  | layer
  | outer
  | page
  | head
  deriving DecidableEq, Repr

/-- The order of the dimensions within a block, outermost first; the head dimension is always
innermost. -/
inductive KvBlockLayout
  | universal
  | operationalHND
  | operationalNHD
  | custom (order : BlockDim × BlockDim × BlockDim × BlockDim)
  | unknown
  deriving DecidableEq, Repr

namespace KvBlockLayout

def dimOrder : KvBlockLayout → Option (BlockDim × BlockDim × BlockDim × BlockDim)
  | universal => some (.head, .layer, .outer, .page)
  | operationalHND => some (.layer, .outer, .head, .page)
  | operationalNHD => some (.layer, .outer, .page, .head)
  | custom order => some order
  | unknown => none

/-- Two unknown layouts pass as the same. -/
def requiresTransform (a b : KvBlockLayout) : Bool :=
  match a.dimOrder, b.dimOrder with
  | some x, some y => x ≠ y
  | none, none => false
  | _, _ => true

end KvBlockLayout

structure LayoutConfig where
  numBlocks : Nat
  numLayers : Nat
  outerDim : Nat
  pageSize : Nat
  innerDim : Nat
  dtypeWidthBytes : Nat
  numHeads : Option Nat
  deriving DecidableEq, Repr

variable (cfg : LayoutConfig)

/-- What `validate` asks of the fields above. -/
structure LayoutConfig.Valid : Prop where
  blocks : 1 ≤ cfg.numBlocks
  layers : 1 ≤ cfg.numLayers
  outer : 1 ≤ cfg.outerDim ∧ cfg.outerDim ≤ 2
  page : ∃ k, cfg.pageSize = 2 ^ k
  inner : 1 ≤ cfg.innerDim
  width : cfg.dtypeWidthBytes = 1 ∨ cfg.dtypeWidthBytes = 2 ∨ cfg.dtypeWidthBytes = 4 ∨
    cfg.dtypeWidthBytes = 8

/-- Heads and head size; the labelled views need them. -/
def resolveHeadDims : Except LayoutError (Nat × Nat) :=
  match cfg.numHeads with
  | none => .error .headsRequired
  | some nh =>
    if ¬nh ∣ cfg.innerDim then .error (.headsDoNotDivide cfg.innerDim nh)
    else .ok (nh, cfg.innerDim / nh)

structure MemoryRegion where
  addr : Nat
  size : Nat
  deriving DecidableEq, Repr

/-- What the transfers ask of a layout. -/
structure Layout where
  config : LayoutConfig
  blockLayout : KvBlockLayout
  layoutView : Except LayoutError LayoutView
  memoryRegion : Nat → Nat → Nat → Except LayoutError MemoryRegion
  bytesPerBlock : Nat
  blockRegionSizes : List Nat
  isFullyContiguous : Bool

/-- The checks of `calculate_address`, which both layouts make. -/
def checkIds (block layer outer : Nat) : Option LayoutError :=
  if cfg.numBlocks ≤ block then some (.blockOutOfRange block cfg.numBlocks)
  else if cfg.numLayers ≤ layer then some (.layerOutOfRange layer cfg.numLayers)
  else if cfg.outerDim ≤ outer then some (.outerOutOfRange outer cfg.outerDim)
  else none

/-- The bytes of all tokens and heads of one block, layer and outer index. -/
def LayoutConfig.regionSize : Nat := cfg.pageSize * cfg.innerDim * cfg.dtypeWidthBytes

/-- Axes with their sizes and strides as the three vectors of a view. -/
def viewOf (axes : List Axis) (elem : Nat) (regions : List Nat) (regionAxis : Option KvDim) :
    Except LayoutError LayoutView :=
  (KvDimLayout.new (axes.map Axis.dim) (axes.map Axis.size)).bind fun layout =>
  (KvDimStrides.fromByteStrides (axes.map Axis.stride) elem).bind fun strides =>
  LayoutView.full layout strides regions regionAxis

/-! ### One allocation for all -/

structure FullyContiguousLayout where
  config : LayoutConfig
  baseAddr : Nat
  memorySize : Nat
  kvBlockLayout : KvBlockLayout
  valid : config.Valid
  fits : config.regionSize * config.outerDim * config.numLayers * config.numBlocks ≤ memorySize

namespace FullyContiguousLayout

variable (l : FullyContiguousLayout)

def outerStride : Nat := l.config.regionSize

def layerStride : Nat := l.outerStride * l.config.outerDim

def blockStride : Nat := l.layerStride * l.config.numLayers

def memoryRegion (block layer outer : Nat) : Except LayoutError MemoryRegion :=
  match checkIds l.config block layer outer with
  | some e => .error e
  | none =>
    .ok ⟨l.baseAddr + block * l.blockStride + layer * l.layerStride + outer * l.outerStride,
      l.config.regionSize⟩

def viewAxes (nh hd : Nat) : Except LayoutError (List Axis) :=
  let cfg := l.config
  let elem := cfg.dtypeWidthBytes
  match l.kvBlockLayout with
  | .operationalNHD =>
    let hc := elem * hd
    let pg := hc * nh
    let ot := pg * cfg.pageSize
    let la := ot * cfg.outerDim
    let bk := la * cfg.numLayers
    .ok [⟨.block, cfg.numBlocks, bk⟩, ⟨.layer, cfg.numLayers, la⟩, ⟨.outer, cfg.outerDim, ot⟩,
      ⟨.page, cfg.pageSize, pg⟩, ⟨.headCount, nh, hc⟩, ⟨.headSize, hd, elem⟩]
  | .operationalHND =>
    let pg := elem * hd
    let hc := pg * cfg.pageSize
    let ot := hc * nh
    let la := ot * cfg.outerDim
    let bk := la * cfg.numLayers
    .ok [⟨.block, cfg.numBlocks, bk⟩, ⟨.layer, cfg.numLayers, la⟩, ⟨.outer, cfg.outerDim, ot⟩,
      ⟨.headCount, nh, hc⟩, ⟨.page, cfg.pageSize, pg⟩, ⟨.headSize, hd, elem⟩]
  | .universal =>
    let pg := elem * hd
    let ot := pg * cfg.pageSize
    let la := ot * cfg.outerDim
    let hc := la * cfg.numLayers
    let bk := hc * nh
    .ok [⟨.block, cfg.numBlocks, bk⟩, ⟨.headCount, nh, hc⟩, ⟨.layer, cfg.numLayers, la⟩,
      ⟨.outer, cfg.outerDim, ot⟩, ⟨.page, cfg.pageSize, pg⟩, ⟨.headSize, hd, elem⟩]
  | .custom _ => .error .unsupportedBlockLayout
  | .unknown => .error .unknownBlockLayout

def layoutView : Except LayoutError LayoutView :=
  if l.kvBlockLayout = .unknown then .error .unknownBlockLayout
  else
    (resolveHeadDims l.config).bind fun (nh, hd) =>
    (l.viewAxes nh hd).bind fun axes => viewOf axes l.config.dtypeWidthBytes [l.baseAddr] none

def toLayout : Layout where
  config := l.config
  blockLayout := l.kvBlockLayout
  layoutView := l.layoutView
  memoryRegion := l.memoryRegion
  bytesPerBlock := l.blockStride
  blockRegionSizes := List.replicate (l.config.numLayers * l.config.outerDim) l.config.regionSize
  isFullyContiguous := true

end FullyContiguousLayout

/-! ### An allocation for each layer -/

inductive BlockDimension
  | blockIsFirstDim
  | blockIsSecondDim
  deriving DecidableEq, Repr

structure LayerSeparateLayout where
  config : LayoutConfig
  memoryRegions : List MemoryRegion
  blockDim : BlockDimension
  kvBlockLayout : KvBlockLayout
  valid : config.Valid
  operational : kvBlockLayout = .operationalNHD ∨ kvBlockLayout = .operationalHND ∨
    kvBlockLayout = .unknown
  count : memoryRegions.length = config.numLayers
  fits : ∀ m ∈ memoryRegions, config.numBlocks * config.outerDim * config.regionSize ≤ m.size

namespace LayerSeparateLayout

variable (l : LayerSeparateLayout)

def blockStride : Nat :=
  match l.blockDim with
  | .blockIsSecondDim => l.config.regionSize
  | .blockIsFirstDim => l.config.regionSize * l.config.outerDim

def outerStride : Nat :=
  match l.blockDim with
  | .blockIsSecondDim => l.config.regionSize * l.config.numBlocks
  | .blockIsFirstDim => l.config.regionSize

def layerBase (layer : Nat) : Nat := (l.memoryRegions[layer]?.map MemoryRegion.addr).getD 0

def memoryRegion (block layer outer : Nat) : Except LayoutError MemoryRegion :=
  match checkIds l.config block layer outer with
  | some e => .error e
  | none =>
    .ok ⟨l.layerBase layer + (block * l.blockStride + outer * l.outerStride), l.config.regionSize⟩

/-- The axes inside of the outer and block axes, and the bytes they span. -/
def innerAxes (nh hd : Nat) : Except LayoutError (List Axis × Nat) :=
  let cfg := l.config
  let elem := cfg.dtypeWidthBytes
  match l.kvBlockLayout with
  | .operationalNHD =>
    let hc := elem * hd
    let pg := hc * nh
    .ok ([⟨.page, cfg.pageSize, pg⟩, ⟨.headCount, nh, hc⟩, ⟨.headSize, hd, elem⟩],
      pg * cfg.pageSize)
  | .operationalHND =>
    let pg := elem * hd
    let hc := pg * cfg.pageSize
    .ok ([⟨.headCount, nh, hc⟩, ⟨.page, cfg.pageSize, pg⟩, ⟨.headSize, hd, elem⟩], hc * nh)
  | .universal => .error .unsupportedBlockLayout
  | .custom _ => .error .unsupportedBlockLayout
  | .unknown => .error .unknownBlockLayout

/-- The axes around the inner ones; `pre` is what the inner ones span. -/
def aroundAxes (pre : Nat) : List Axis :=
  let cfg := l.config
  match l.blockDim with
  | .blockIsFirstDim =>
    let ot := pre
    let bk := ot * cfg.outerDim
    let la := bk * cfg.numBlocks
    [⟨.layer, cfg.numLayers, la⟩, ⟨.block, cfg.numBlocks, bk⟩, ⟨.outer, cfg.outerDim, ot⟩]
  | .blockIsSecondDim =>
    let bk := pre
    let ot := bk * cfg.numBlocks
    let la := ot * cfg.outerDim
    [⟨.layer, cfg.numLayers, la⟩, ⟨.outer, cfg.outerDim, ot⟩, ⟨.block, cfg.numBlocks, bk⟩]

def layoutView : Except LayoutError LayoutView :=
  if l.kvBlockLayout = .unknown then .error .unknownBlockLayout
  else
    (resolveHeadDims l.config).bind fun (nh, hd) =>
    (l.innerAxes nh hd).bind fun inner =>
      viewOf (l.aroundAxes inner.2 ++ inner.1) l.config.dtypeWidthBytes
        (l.memoryRegions.map MemoryRegion.addr) (some .layer)

def toLayout : Layout where
  config := l.config
  blockLayout := l.kvBlockLayout
  layoutView := l.layoutView
  memoryRegion := l.memoryRegion
  bytesPerBlock := l.config.numLayers * l.config.outerDim * l.config.pageSize * l.config.innerDim *
    l.config.dtypeWidthBytes
  blockRegionSizes := List.replicate (l.config.numLayers * l.config.outerDim) l.config.regionSize
  isFullyContiguous := false

end LayerSeparateLayout

end Kvbm
