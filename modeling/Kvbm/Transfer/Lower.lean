/-
Lowering a copy plan to what the executor runs.

Pairs of layouts whose blocks are ordered differently go to a kernel.  For all others the copy
planner is asked, and its plan becomes a candidate: plain copies, a replayed graph of them, or
the strided-copy kernel.  The candidate with the best score is run.
-/
import Kvbm.Transfer.Plan
import Kvbm.Transfer.Strategy
import Kvbm.Layout.Physical

namespace Kvbm.Transfer

open Lib

/-- The key under which a captured graph is kept. -/
structure GraphCacheKey where
  descriptorCount : Nat
  totalBytes : Nat
  dtypeWidthBytes : Nat
  routeFamily : Nat
  candidateClass : Nat
  deriving DecidableEq, Repr

/-- The candidates that the copy planner's plans are lowered to. -/
inductive Candidate
  | directDma (ops : List CopyOp)
  | smallStridedCopy (ops : List CopyOp)
  | cudaGraphReplay (key : GraphCacheKey) (ops : List CopyOp)
  deriving DecidableEq, Repr

inductive CandidateClass
  | directDma
  | batchedDma
  | transformKernel
  | smallStridedCopy
  | staged
  | cudaGraphReplay
  deriving DecidableEq, Repr

def Candidate.className : Candidate → CandidateClass
  | directDma _ => .directDma
  | smallStridedCopy _ => .smallStridedCopy
  | cudaGraphReplay _ _ => .cudaGraphReplay

variable (caps : TransferCapabilities)

def scoreCandidateBase : Candidate → Int
  | .directDma _ => 1000
  | .smallStridedCopy _ => 950
  | .cudaGraphReplay _ _ => if caps.cudaGraphReplay then 1050 else -1

/-- A measured winner is preferred, unless it cannot be run at all. -/
def scoreCandidate (winner : Option CandidateClass) (c : Candidate) : Int :=
  let base := scoreCandidateBase caps c
  if 0 ≤ base ∧ winner = some c.className then base + 500 else base

/-- The best of the candidates that can be run; of equals, the first. -/
def selectCandidate (score : Candidate → Int) (candidates : List Candidate) : Option Candidate :=
  (candidates.filter fun c => 0 ≤ score c).foldl
    (fun best c => match best with
      | none => some c
      | some b => some (if score b < score c then c else b)) none

inductive LowerError
  | lengths (src dst : Nat)
  | slicesWithTransform
  | preparedPlanMissing
  | layerRangeOutOfBounds (range : Range) (numLayers : Nat)
  | layerRangeDirect
  | preparedPlanDirect
  | layout (e : LayoutError)
  | plan (e : PlanError)
  | noCandidate
  | unexpectedCandidate
  | semanticTransform
  | stagedReserved
  deriving DecidableEq, Repr

def lowerToCandidates : CopyPlan → Except LowerError (List Candidate)
  | .direct ops => .ok [.directDma ops]
  | .transform _ _ _ _ .thresholdFallback ops => .ok [.smallStridedCopy ops]
  | .transform _ _ _ _ .semantic _ => .error .semanticTransform
  | .staged _ _ _ => .error .stagedReserved

inductive PlanOutcome
  /-- Nothing to do: the executor reports the transfer as completed. -/
  | empty
  | direct (ops : List CopyOp)
  | transform (blockPairs : List (Nat × Nat)) (layerRange : Option Range)
  | smallStridedCopy (ops : List CopyOp)
  | cudaGraphReplay (key : GraphCacheKey) (ops : List CopyOp)
  deriving DecidableEq, Repr

/-- What a transfer asks the planner for. -/
structure PlanRequest where
  srcBlockIds : List Nat
  dstBlockIds : List Nat
  strategy : TransferStrategy
  capabilities : TransferCapabilities
  policy : CopyPolicy
  /-- The winner of a startup benchmark. -/
  benchmark : Option CandidateClass
  /-- The number of layers of the kernel invocation prepared. -/
  preparedPlan : Option Nat
  layerRange : Option Range
  axisSlices : List AxisIntersection
  deriving DecidableEq, Repr

namespace PlanRequest

variable (r : PlanRequest)

def blockPairs : List (Nat × Nat) := r.srcBlockIds.zip r.dstBlockIds

def selection : TransferSelection := ⟨r.blockPairs, r.axisSlices⟩

def select (candidates : List Candidate) : Except LowerError Candidate :=
  match selectCandidate (scoreCandidate r.capabilities r.benchmark) candidates with
  | some c => .ok c
  | none => .error .noCandidate

/-- The kernel moves whole blocks, or a range of their layers. -/
def planTransform : Except LowerError PlanOutcome :=
  if r.axisSlices ≠ [] then .error .slicesWithTransform
  else
    match r.preparedPlan with
    | none => .error .preparedPlanMissing
    | some numLayers =>
      match r.layerRange with
      | none => .ok (.transform r.blockPairs none)
      | some range =>
        if numLayers < range.stop ∨ range.stop < range.start then
          .error (.layerRangeOutOfBounds range numLayers)
        else .ok (.transform r.blockPairs (some range))

def routeFamily : Nat :=
  match r.strategy with
  | .cudaAsyncH2D => 0
  | .cudaAsyncD2H => 1
  | .cudaAsyncD2D => 2
  | _ => 3

/-- On CUDA routes a captured graph of the same copies competes with them. -/
def replayCandidates (dtypeWidthBytes : Nat) (ops : List CopyOp) : List Candidate :=
  if r.capabilities.cudaGraphReplay ∧ r.strategy.isCudaFamily then
    [.cudaGraphReplay ⟨ops.length, (ops.map CopyOp.size).sum, dtypeWidthBytes, r.routeFamily, 0⟩
      ops]
  else []

def lower (dtypeWidthBytes : Nat) (plan : CopyPlan) : Except LowerError PlanOutcome :=
  match plan with
  | .direct [] => .ok .empty
  | .direct (op :: ops) =>
    (lowerToCandidates (.direct (op :: ops))).bind fun candidates =>
    (r.select (candidates ++ r.replayCandidates dtypeWidthBytes (op :: ops))).bind fun
      | .directDma ops => .ok (.direct ops)
      | .cudaGraphReplay key ops => .ok (.cudaGraphReplay key ops)
      | .smallStridedCopy _ => .error .unexpectedCandidate
  | .transform _ _ _ _ .thresholdFallback [] => .ok .empty
  | .transform src dst pairs permutation .thresholdFallback (op :: ops) =>
    (lowerToCandidates
      (.transform src dst pairs permutation .thresholdFallback (op :: ops))).bind fun candidates =>
    (r.select candidates).bind fun
      | .smallStridedCopy ops => .ok (.smallStridedCopy ops)
      | _ => .error .unexpectedCandidate
  | .transform _ _ _ _ .semantic _ => .error .semanticTransform
  | .staged _ _ _ => .error .stagedReserved

end PlanRequest

/-- The layout as the copy planner sees it. -/
def annotate (l : Layout) : Except LowerError AnnotatedLayout :=
  (l.layoutView.bind AnnotatedLayout.fromView).mapError .layout

def planAndLower (src dst : Layout) (r : PlanRequest) : Except LowerError PlanOutcome :=
  if r.srcBlockIds.length ≠ r.dstBlockIds.length then
    .error (.lengths r.srcBlockIds.length r.dstBlockIds.length)
  else if r.srcBlockIds = [] then .ok .empty
  else if src.blockLayout.requiresTransform dst.blockLayout then r.planTransform
  else if r.layerRange ≠ none then .error .layerRangeDirect
  else if r.preparedPlan ≠ none then .error .preparedPlanDirect
  else
    (annotate src).bind fun srcAl =>
    (annotate dst).bind fun dstAl =>
    ((planCopy srcAl dstAl r.selection r.policy).mapError .plan).bind fun plan =>
      r.lower src.config.dtypeWidthBytes plan

end Kvbm.Transfer
