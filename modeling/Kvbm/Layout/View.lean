/-
Views of KV tensors: labelled axes, byte strides and the memory regions under them.

A view says where the element of a labelled coordinate lies.  One axis may be partitioned over
separate allocations; its coordinate selects the region and every other axis adds its stride times
its coordinate.  Slicing an axis moves the addresses by the slice's start and leaves the strides
as they are.
-/
import Kvbm.Layout.Axis
import Mathlib.Data.List.Count
import Mathlib.Data.List.Nodup

namespace Kvbm

inductive LayoutError
  | emptyDims
  | rankMismatch (dims sizes : Nat)
  | zeroSize (axis : Nat)
  | blockCount (count : Nat)
  | repeated (dim : KvDim) (count : Nat)
  | headSizeAndPayload (headSize payload : Nat)
  | payloadNotTrailing
  | outerSize (size : Nat)
  | emptyStrides
  | zeroElemSize
  | zeroStride (axis : Nat)
  | strideRank (strides dims : Nat)
  | regionAxisMissing (dim : KvDim)
  | regionCount (regions size : Nat)
  | slicedAxisMissing (dim : KvDim)
  | unknownBlockLayout
  | unsupportedBlockLayout
  | headsRequired
  | headsDoNotDivide (innerDim heads : Nat)
  | blockOutOfRange (block count : Nat)
  | layerOutOfRange (layer count : Nat)
  | outerOutOfRange (outer count : Nat)
  deriving DecidableEq, Repr

/-- The size of the first axis that carries `dim`. -/
def sizeAt (dims : List KvDim) (sizes : List Nat) (dim : KvDim) : Option Nat :=
  ((dims.zip sizes).find? fun a => a.1 = dim).map Prod.snd

/-- Labels and sizes of the axes of a tensor, outermost first. -/
structure KvDimLayout where
  dims : List KvDim
  sizes : List Nat
  dims_ne : dims ≠ []
  rank : dims.length = sizes.length
  sizes_pos : 0 ∉ sizes
  block_one : dims.count .block = 1
  layer_le : dims.count .layer ≤ 1
  outer_le : dims.count .outer ≤ 1
  page_le : dims.count .page ≤ 1
  headCount_le : dims.count .headCount ≤ 1
  inner_le : dims.count .headSize + dims.count .payload ≤ 1
  payload_last : dims.count .payload = 1 → dims.getLast? = some .payload
  outer_size : ∀ n ∈ sizeAt dims sizes .outer, 1 ≤ n ∧ n ≤ 2
  deriving DecidableEq

namespace KvDimLayout

def new (dims : List KvDim) (sizes : List Nat) : Except LayoutError KvDimLayout :=
  if h₁ : dims = [] then .error .emptyDims
  else if h₂ : dims.length ≠ sizes.length then
    .error (.rankMismatch dims.length sizes.length)
  else if h₃ : 0 ∈ sizes then .error (.zeroSize (sizes.idxOf 0))
  else if h₄ : dims.count .block ≠ 1 then .error (.blockCount (dims.count .block))
  else if h₅ : 1 < dims.count .layer then .error (.repeated .layer (dims.count .layer))
  else if h₆ : 1 < dims.count .outer then .error (.repeated .outer (dims.count .outer))
  else if h₇ : 1 < dims.count .page then .error (.repeated .page (dims.count .page))
  else if h₈ : 1 < dims.count .headCount then
    .error (.repeated .headCount (dims.count .headCount))
  else if h₉ : 1 < dims.count .headSize + dims.count .payload then
    .error (.headSizeAndPayload (dims.count .headSize) (dims.count .payload))
  else if h₁₀ : dims.count .payload = 1 ∧ dims.getLast? ≠ some .payload then
    .error .payloadNotTrailing
  else if h₁₁ : ∃ n ∈ sizeAt dims sizes .outer, ¬(1 ≤ n ∧ n ≤ 2) then
    .error (.outerSize ((sizeAt dims sizes .outer).getD 0))
  else .ok
    { dims := dims, sizes := sizes
      dims_ne := h₁
      rank := Decidable.not_not.mp h₂
      sizes_pos := h₃
      block_one := Decidable.not_not.mp h₄
      layer_le := Nat.not_lt.mp h₅
      outer_le := Nat.not_lt.mp h₆
      page_le := Nat.not_lt.mp h₇
      headCount_le := Nat.not_lt.mp h₈
      inner_le := Nat.not_lt.mp h₉
      payload_last := fun h => Decidable.not_not.mp fun hne => h₁₀ ⟨h, hne⟩
      outer_size := fun n hn => Decidable.not_not.mp fun hne => h₁₁ ⟨n, hn, hne⟩ }

def sizeOf (l : KvDimLayout) (dim : KvDim) : Option Nat := sizeAt l.dims l.sizes dim

end KvDimLayout

/-- Byte strides of the axes of a tensor, and the size of its elements. -/
structure KvDimStrides where
  bytes : List Nat
  elemSize : Nat
  bytes_ne : bytes ≠ []
  elem_pos : 0 < elemSize
  bytes_pos : 0 ∉ bytes

def KvDimStrides.fromByteStrides (byteStrides : List Nat) (elemSize : Nat) :
    Except LayoutError KvDimStrides :=
  if h₁ : byteStrides = [] then .error .emptyStrides
  else if h₂ : elemSize = 0 then .error .zeroElemSize
  else if h₃ : 0 ∈ byteStrides then .error (.zeroStride (byteStrides.idxOf 0))
  else .ok ⟨byteStrides, elemSize, h₁, Nat.pos_of_ne_zero h₂, h₃⟩

/-- A coordinate by label.  Axes that were not set have none. -/
abbrev CoordByLabel := KvDim → Option Nat

namespace CoordByLabel

def new : CoordByLabel := fun _ => none

def set (c : CoordByLabel) (dim : KvDim) (value : Nat) : CoordByLabel :=
  fun d => if d = dim then some value else c d

end CoordByLabel

/-- An axis with its size and its byte stride. -/
structure Axis where
  dim : KvDim
  size : Nat
  stride : Nat
  deriving DecidableEq, Repr

/-- The three parallel vectors of a tensor as one list. -/
def axesOf (layout : KvDimLayout) (strides : KvDimStrides) : List Axis :=
  List.zipWith (fun a stride => ⟨a.1, a.2, stride⟩) (layout.dims.zip layout.sizes) strides.bytes

/-- There is one region for each coordinate of the region axis, or one region in all. -/
def RegionsFit (regions : List Nat) (regionAxis : Option KvDim) (layout : KvDimLayout) : Prop :=
  match regionAxis with
  | some d => layout.sizeOf d = some regions.length
  | none => regions.length = 1

instance (regions : List Nat) (regionAxis : Option KvDim) (layout : KvDimLayout) :
    Decidable (RegionsFit regions regionAxis layout) :=
  match regionAxis with
  | some d => inferInstanceAs (Decidable (layout.sizeOf d = some regions.length))
  | none => inferInstanceAs (Decidable (regions.length = 1))

/-- Why the regions do not fit. -/
def regionsMisfit (regions : List Nat) (regionAxis : Option KvDim) (layout : KvDimLayout) :
    LayoutError :=
  match regionAxis with
  | some d =>
    match layout.sizeOf d with
    | some size => .regionCount regions.length size
    | none => .regionAxisMissing d
  | none => .regionCount regions.length 1

/-- A window of one axis, in the coordinates of the whole axis. -/
structure AxisSlice where
  dim : KvDim
  start : Nat
  len : Nat
  globalLen : Nat
  deriving DecidableEq, Repr

inductive AddrError
  | regionCoordMissing (dim : KvDim)
  | regionOutOfRange (index regions : Nat)
  | coordMissing (dim : KvDim)
  | coordOutOfRange (dim : KvDim) (value size : Nat)
  deriving DecidableEq, Repr

/-- A sliced view of a registered tensor.  The sizes are those after slicing. -/
structure LayoutView where
  localLayout : KvDimLayout
  byteStrides : KvDimStrides
  regions : List Nat
  regionAxis : Option KvDim
  slices : List AxisSlice
  rank : byteStrides.bytes.length = localLayout.dims.length
  regions_fit : RegionsFit regions regionAxis localLayout

namespace LayoutView

def full (layout : KvDimLayout) (byteStrides : KvDimStrides) (regions : List Nat)
    (regionAxis : Option KvDim) : Except LayoutError LayoutView :=
  if h₁ : byteStrides.bytes.length ≠ layout.dims.length then
    .error (.strideRank byteStrides.bytes.length layout.dims.length)
  else if h₂ : RegionsFit regions regionAxis layout then
    .ok ⟨layout, byteStrides, regions, regionAxis, [], Decidable.not_not.mp h₁, h₂⟩
  else .error (regionsMisfit regions regionAxis layout)

variable (v : LayoutView)

/-- Where the slice of `dim` starts. -/
def sliceStart (dim : KvDim) : Nat :=
  ((v.slices.find? fun s => s.dim = dim).map AxisSlice.start).getD 0

/-- The offset of a coordinate within its region.  Every axis must be supplied. -/
def offset (v : LayoutView) (coord : CoordByLabel) : List Axis → Except AddrError Nat
  | [] => .ok 0
  | a :: rest =>
    if some a.dim = v.regionAxis then v.offset coord rest
    else
      match coord a.dim with
      | none => .error (.coordMissing a.dim)
      | some c =>
        if a.size ≤ c then .error (.coordOutOfRange a.dim c a.size)
        else (v.offset coord rest).map (a.stride * (v.sliceStart a.dim + c) + ·)

def regionBase (coord : CoordByLabel) : Except AddrError Nat :=
  match v.regionAxis with
  | none => .ok (v.regions.getD 0 0)
  | some d =>
    match coord d with
    | none => .error (.regionCoordMissing d)
    | some i =>
      match v.regions[i]? with
      | some base => .ok base
      | none => .error (.regionOutOfRange i v.regions.length)

def addrOf (coord : CoordByLabel) : Except AddrError Nat :=
  (v.regionBase coord).bind fun base =>
    (v.offset coord (axesOf v.localLayout v.byteStrides)).map (base + ·)

end LayoutView

end Kvbm
