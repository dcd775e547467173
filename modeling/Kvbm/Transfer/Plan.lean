/-
The copy planner.

Given two layouts, a list of block pairs and slices of some axes, the planner emits copies
(source address, destination address, number of bytes).  The innermost axes that both layouts
have in common, and that lie contiguously in both, are folded into one copy; all other axes are
iterated, with the coordinates of both sides at once.  Copies that continue each other may be
merged at the end.
-/
import Kvbm.Layout.View
import Kvbm.Lib.Outcome
import Mathlib.Data.List.Sort

namespace Kvbm.Transfer

open Lib

/-! ### Layouts -/

/-- A layout the planner can address. -/
structure AnnotatedLayout where
  regions : List Nat
  regionAxis : Option KvDim
  dimLayout : KvDimLayout
  byteStrides : KvDimStrides
  rank : byteStrides.bytes.length = dimLayout.dims.length
  regions_fit : RegionsFit regions regionAxis dimLayout

namespace AnnotatedLayout

theorem rank_of_not_ne {dimLayout : KvDimLayout} {byteStrides : KvDimStrides}
    (h : ¬byteStrides.bytes.length ≠ dimLayout.dims.length) :
    byteStrides.bytes.length = dimLayout.dims.length := Decidable.not_not.mp h

def new (regions : List Nat) (regionAxis : Option KvDim) (dimLayout : KvDimLayout)
    (byteStrides : KvDimStrides) : Except LayoutError AnnotatedLayout :=
  if h₁ : byteStrides.bytes.length ≠ dimLayout.dims.length then
    .error (.strideRank byteStrides.bytes.length dimLayout.dims.length)
  else if h₂ : RegionsFit regions regionAxis dimLayout then
    .ok ⟨regions, regionAxis, dimLayout, byteStrides, rank_of_not_ne h₁, h₂⟩
  else .error (regionsMisfit regions regionAxis dimLayout)

variable (l : AnnotatedLayout)

def axes : List Axis := axesOf l.dimLayout l.byteStrides

def elemSize (l : AnnotatedLayout) : Nat := l.byteStrides.elemSize

/-- The first axis that carries `dim`. -/
def axisAt (dim : KvDim) : Option Axis := l.axes.find? fun a => a.dim = dim

def sizeOf (dim : KvDim) : Option Nat := (l.axisAt dim).map Axis.size

/-- How far the slices of a view move its addresses.  A slice of the region axis has narrowed the
regions already. -/
def inTensorOffset (view : LayoutView) : List AxisSlice → Except LayoutError Nat
  | [] => .ok 0
  | s :: rest =>
    if some s.dim = view.regionAxis then inTensorOffset view rest
    else
      match (axesOf view.localLayout view.byteStrides).find? fun a => a.dim = s.dim with
      | none => .error (.slicedAxisMissing s.dim)
      | some a => (inTensorOffset view rest).map (a.stride * s.start + ·)

def fromView (view : LayoutView) : Except LayoutError AnnotatedLayout :=
  (inTensorOffset view view.slices).bind fun off =>
    new (view.regions.map (· + off)) view.regionAxis view.localLayout view.byteStrides

/-- The offset of a coordinate within its region.  An axis that was not supplied counts as `0`. -/
def offset (l : AnnotatedLayout) (coord : CoordByLabel) : List Axis → Except AddrError Nat
  | [] => .ok 0
  | a :: rest =>
    if some a.dim = l.regionAxis then l.offset coord rest
    else
      let v := (coord a.dim).getD 0
      if a.size ≤ v then .error (.coordOutOfRange a.dim v a.size)
      else (l.offset coord rest).map (a.stride * v + ·)

def regionBase (coord : CoordByLabel) : Except AddrError Nat :=
  match l.regionAxis with
  | none => regionAt 0
  | some d =>
    match coord d with
    | none => .error (.regionCoordMissing d)
    | some i => regionAt i
where
  regionAt (i : Nat) : Except AddrError Nat :=
    match l.regions[i]? with
    | some base => .ok base
    | none => .error (.regionOutOfRange i l.regions.length)

def addrOf (coord : CoordByLabel) : Except AddrError Nat :=
  (l.regionBase coord).bind fun base => (l.offset coord l.axes).map (base + ·)

end AnnotatedLayout

/-! ### Plans -/

structure CopyOp where
  srcAddr : Nat
  dstAddr : Nat
  size : Nat
  deriving DecidableEq, Repr

inductive TransformReason
  | thresholdFallback
  | semantic
  deriving DecidableEq, Repr

inductive CopyPlan
  | direct (ops : List CopyOp)
  | transform (src dst : AnnotatedLayout) (blockPairs : List (Nat × Nat)) (permutation : List Nat)
      (reason : TransformReason) (ops : List CopyOp)
  | staged (first second : CopyPlan) (intermediate : AnnotatedLayout)

structure CopyPolicy where
  minInnerBytes : Nat
  coalesce : Bool
  deriving DecidableEq, Repr

/-- The default policy of the CUDA route. -/
def CopyPolicy.default : CopyPolicy := ⟨4 * 1024, true⟩

structure TransferSelection where
  blockPairs : List (Nat × Nat)
  axisSlices : List AxisIntersection
  deriving DecidableEq, Repr

def TransferSelection.axisSlice (sel : TransferSelection) (dim : KvDim) : Option AxisIntersection :=
  sel.axisSlices.find? fun s => s.dim = dim

inductive PlanError
  | duplicateSlice (dim : KvDim)
  | blockSliced
  | sliceNotInSrc (dim : KvDim)
  | sliceNotInDst (dim : KvDim)
  | srcSliceOutOfRange (dim : KvDim) (range : Range) (size : Nat)
  | dstSliceOutOfRange (dim : KvDim) (range : Range) (size : Nat)
  | sliceLengths (dim : KvDim) (src dst : Nat)
  | sliceEmpty (dim : KvDim)
  | rankMismatch (src dst : Nat)
  | labelNotInDst (dim : KvDim)
  | labelNotInSrc (dim : KvDim)
  | sizesDisagree (dim : KvDim) (src dst : Nat)
  | elemSizes (src dst : Nat)
  | srcBlockMissing
  | dstBlockMissing
  | srcBlockOutOfRange (block size : Nat)
  | dstBlockOutOfRange (block size : Nat)
  | regionCapOverflow
  | innerBytesOverflow
  | axisSetsDiffer
  | address (e : AddrError)
  deriving DecidableEq, Repr

/-- Numbers of the machine type `usize` are below this one. -/
def usizeLimit : Nat := 2 ^ 64

def checkedMul (a b : Nat) (e : PlanError) : Except PlanError Nat :=
  if a * b < usizeLimit then .ok (a * b) else .error e

/-! ### The checks -/

section Checks

variable (src dst : AnnotatedLayout) (sel : TransferSelection)

def validateAxisSlice (slice : AxisIntersection) : Except PlanError Unit :=
  if slice.dim = .block then .error .blockSliced
  else
    match src.sizeOf slice.dim with
    | none => .error (.sliceNotInSrc slice.dim)
    | some srcSize =>
      match dst.sizeOf slice.dim with
      | none => .error (.sliceNotInDst slice.dim)
      | some dstSize =>
        if srcSize < slice.srcLocal.stop then
          .error (.srcSliceOutOfRange slice.dim slice.srcLocal srcSize)
        else if dstSize < slice.dstLocal.stop then
          .error (.dstSliceOutOfRange slice.dim slice.dstLocal dstSize)
        else if slice.srcLocal.len ≠ slice.dstLocal.len then
          .error (.sliceLengths slice.dim slice.srcLocal.len slice.dstLocal.len)
        else if slice.srcLocal.len = 0 then .error (.sliceEmpty slice.dim)
        else .ok ()

def validateAxisSlicesFrom (seen : List KvDim) : List AxisIntersection → Except PlanError Unit
  | [] => .ok ()
  | slice :: rest =>
    if slice.dim ∈ seen then .error (.duplicateSlice slice.dim)
    else
      (validateAxisSlice src dst slice).bind fun _ =>
        validateAxisSlicesFrom (seen ++ [slice.dim]) rest

def validateAxisSlices : Except PlanError Unit := validateAxisSlicesFrom src dst [] sel.axisSlices

def checkLabel (a : Axis) : Except PlanError Unit :=
  match dst.sizeOf a.dim with
  | none => .error (.labelNotInDst a.dim)
  | some dstSize =>
    if a.dim = .block then .ok ()
    else
      let eff := match sel.axisSlice a.dim with
        | some slice => (slice.srcLocal.len, slice.dstLocal.len)
        | none => (a.size, dstSize)
      ensure (eff.1 = eff.2) (.sizesDisagree a.dim eff.1 eff.2)

def checkLabelCompatibility : Except PlanError Unit :=
  (ensure (src.axes.length = dst.axes.length)
    (.rankMismatch src.axes.length dst.axes.length)).bind fun _ =>
  (forEach (checkLabel dst sel) src.axes).bind fun _ =>
  forEach (fun a => ensure ((src.axisAt a.dim).isSome) (.labelNotInSrc a.dim)) dst.axes

def checkBlockPair (srcBlocks dstBlocks : Nat) (pair : Nat × Nat) : Except PlanError Unit :=
  if srcBlocks ≤ pair.1 then .error (.srcBlockOutOfRange pair.1 srcBlocks)
  else if dstBlocks ≤ pair.2 then .error (.dstBlockOutOfRange pair.2 dstBlocks)
  else .ok ()

def checkBlockPairs : Except PlanError Unit :=
  match src.sizeOf .block with
  | none => .error .srcBlockMissing
  | some srcBlocks =>
    match dst.sizeOf .block with
    | none => .error .dstBlockMissing
    | some dstBlocks => forEach (checkBlockPair srcBlocks dstBlocks) sel.blockPairs

end Checks

/-! ### The inner run -/

section Inner

variable (src dst : AnnotatedLayout) (sel : TransferSelection)

/-- May an axis, at one and the same place in both layouts, be folded into the inner run? -/
def foldable (a : Axis × Axis) : Bool :=
  a.1.dim = a.2.dim ∧ a.1.size = a.2.size ∧ a.1.dim ≠ .block ∧
    some a.1.dim ≠ src.regionAxis ∧ some a.1.dim ≠ dst.regionAxis ∧ sel.axisSlice a.1.dim = none

/-- The longest common inner suffix, innermost axis first. -/
def innermostFirst : List (Axis × Axis) :=
  (src.axes.zip dst.axes).reverse.takeWhile (foldable src dst sel)

def matchingInnerSuffix : List (KvDim × Nat) :=
  ((innermostFirst src dst sel).map fun a => (a.1.dim, a.1.size)).reverse

/-- The bytes of one region; without a region axis there is no bound. -/
def regionCapBytes (l : AnnotatedLayout) : Except PlanError (Option Nat) :=
  match l.regionAxis with
  | none => .ok none
  | some d =>
    ((l.axes.drop (l.axes.findIdx (fun a => a.dim = d) + 1)).foldlM
      (fun bytes a => checkedMul bytes a.size .regionCapOverflow) l.elemSize).map some

def exceeds (n : Nat) : Option Nat → Bool
  | none => false
  | some cap => cap < n

/-- The smaller of two bounds. -/
def minCap : Option Nat → Option Nat → Option Nat
  | none, cap => cap
  | cap, none => cap
  | some a, some b => some (min a b)

/-- Walks the matching axes, innermost first; gives the bytes and the number of axes accepted. -/
def innerLoop (cap : Option Nat) : List (KvDim × Nat) → Nat → Nat → Except PlanError (Nat × Nat)
  | [], bytes, accepted => .ok (bytes, accepted)
  | (label, size) :: rest, bytes, accepted =>
    if (src.axisAt label).map Axis.stride ≠ some bytes then .ok (bytes, accepted)
    else if (dst.axisAt label).map Axis.stride ≠ some bytes then .ok (bytes, accepted)
    else
      (checkedMul bytes size .innerBytesOverflow).bind fun next =>
        if exceeds next cap then .ok (bytes, accepted)
        else innerLoop cap rest next (accepted + 1)

/-- The bytes of the inner run and the number of axes folded into it. -/
def computeInnerBytes (matching : List (KvDim × Nat)) : Except PlanError (Nat × Nat) :=
  (regionCapBytes src).bind fun srcCap =>
  (regionCapBytes dst).bind fun dstCap =>
    let cap := minCap srcCap dstCap
    if exceeds src.elemSize cap then .ok (0, 0)
    else
      (innerLoop src dst cap matching.reverse src.elemSize 0).map fun r =>
        if r.2 = 0 then (0, 0) else r

end Inner

/-! ### The outer iteration -/

structure OuterRange where
  srcStart : Nat
  dstStart : Nat
  len : Nat
  deriving DecidableEq, Repr

def outerRange (sel : TransferSelection) (a : Axis) : KvDim × OuterRange :=
  match sel.axisSlice a.dim with
  | some s => (a.dim, ⟨s.srcLocal.start, s.dstLocal.start, s.srcLocal.len⟩)
  | none => (a.dim, ⟨0, 0, a.size⟩)

def outerAxes (src : AnnotatedLayout) (sel : TransferSelection) (matching : List (KvDim × Nat))
    (accepted : Nat) : List (KvDim × OuterRange) :=
  let innerSet := (matching.drop (matching.length - accepted)).map Prod.fst
  (src.axes.filter fun a => a.dim ∉ innerSet).map (outerRange sel)

/-- The coordinates an axis takes, on both sides: the block axis those of the pairs, any other its
range. -/
def axisSteps (blockPairs : List (Nat × Nat)) (label : KvDim) (range : OuterRange) :
    List (Nat × Nat) :=
  if label = .block then blockPairs
  else (List.range range.len).map fun i => (range.srcStart + i, range.dstStart + i)

def emitOuter (src dst : AnnotatedLayout) (blockPairs : List (Nat × Nat)) (innerBytes : Nat) :
    List (KvDim × OuterRange) → CoordByLabel → CoordByLabel → Except PlanError (List CopyOp)
  | [], srcCoord, dstCoord =>
    ((src.addrOf srcCoord).mapError .address).bind fun srcAddr =>
    ((dst.addrOf dstCoord).mapError .address).map fun dstAddr => [⟨srcAddr, dstAddr, innerBytes⟩]
  | (label, range) :: rest, srcCoord, dstCoord =>
    collect (fun step => emitOuter src dst blockPairs innerBytes rest
      (srcCoord.set label step.1) (dstCoord.set label step.2)) (axisSteps blockPairs label range)

/-- Merge into `last` what continues it. -/
def mergeRuns : CopyOp → List CopyOp → List CopyOp
  | last, [] => [last]
  | last, op :: rest =>
    if last.srcAddr + last.size = op.srcAddr ∧ last.dstAddr + last.size = op.dstAddr then
      mergeRuns { last with size := last.size + op.size } rest
    else last :: mergeRuns op rest

def coalesce (ops : List CopyOp) : List CopyOp :=
  match ops.insertionSort fun a b => a.srcAddr ≤ b.srcAddr with
  | [] => []
  | op :: rest => mergeRuns op rest

/-- The axes of `dst`, without the region axes of both sides, by their places in `src`. -/
def inTensorPermutation (src dst : AnnotatedLayout) : Except PlanError (List Nat) :=
  let kept (l : AnnotatedLayout) :=
    (l.axes.map Axis.dim).filter fun d => some d ≠ src.regionAxis ∧ some d ≠ dst.regionAxis
  collect (fun d => match (kept src).idxOf? d with
    | some i => .ok [i]
    | none => .error .axisSetsDiffer) (kept dst)

def planCopy (src dst : AnnotatedLayout) (sel : TransferSelection) (policy : CopyPolicy) :
    Except PlanError CopyPlan :=
  (validateAxisSlices src dst sel).bind fun _ =>
  (checkLabelCompatibility src dst sel).bind fun _ =>
  (ensure (src.elemSize = dst.elemSize) (.elemSizes src.elemSize dst.elemSize)).bind fun _ =>
  (checkBlockPairs src dst sel).bind fun _ =>
  let matching := matchingInnerSuffix src dst sel
  (computeInnerBytes src dst matching).bind fun inner =>
  let emit := emitOuter src dst sel.blockPairs inner.1 (outerAxes src sel matching inner.2)
    .new .new
  if inner.1 < policy.minInnerBytes then
    -- the copies of the fallback stay as they are: the kernel wants them of one size
    (if 0 < inner.1 then emit else .ok []).bind fun ops =>
      (inTensorPermutation src dst).map fun permutation =>
        .transform src dst sel.blockPairs permutation .thresholdFallback ops
  else emit.map fun ops => .direct (if policy.coalesce then coalesce ops else ops)

end Kvbm.Transfer
