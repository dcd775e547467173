/-
Advertisements of complete bundles.

A bundle is everything that is cached for one prefix of a sequence: for each resource a lineage of
blocks.  An owner advertises a bundle under a key, with the number of its generation and the time
at which the advertisement expires.  What is checked here is that the lineages cover the resources
and reach the boundary that the key names.
-/
import Mathlib.Data.Finset.Sort
import Kvbm.Hub.Tier.Wire

namespace Kvbm.Hub.Bundle

open Lib LineageHash Tier

abbrev MutationCredential := Nat

abbrev RegistryIncarnation := Nat

/-- Addition of `u64` and `usize` values that stays at the largest. -/
def saturatingAdd (a b : Nat) : Nat := min (a + b) u64Max

/-- How a positional lineage hash is made, and its bits. -/
class SequenceHash (H : Type) extends LineageHash H where
  currentSequenceHash : H → Nat
  new : Nat → Option Nat → Nat → H
  asU128 : H → Nat
  asU128_injective : ∀ a b, asU128 a = asU128 b → a = b

open Bundle.SequenceHash

structure BundleKey (H : Type) where
  manifest : CacheManifestId
  boundaryHash : H
  boundaryTokens : Nat
  nonzero : 0 < boundaryTokens
  deriving DecidableEq, Repr

inductive ResourceRole
  | prefixHistory
  | boundaryCapsule
  deriving DecidableEq, Repr

structure ResourceRequirement where
  resource : LogicalResourceId
  role : ResourceRole
  nativeBlockTokens : Nat
  nonzero : 0 < nativeBlockTokens
  deriving DecidableEq, Repr

structure ReadyPlacement where
  resource : LogicalResourceId
  lane : Nat
  tier : TierDepth
  placement : PhysicalPlacementMode
  deriving DecidableEq, Repr

structure BundleAdvertisementRecord (H : Type) where
  key : BundleKey H
  generation : Nat
  owner : InstanceId
  registrationEpoch : Option RegistrationEpoch
  requirements : List ResourceRequirement
  lineages : List (BundleResourceLineage H)
  expiresAtUnixMs : Nat
  placements : List ReadyPlacement
  stageCostHintUs : Option Nat
  advertisedAtUnixMs : Option Nat
  deriving DecidableEq, Repr

variable {H : Type}

namespace BundleAdvertisementRecord

variable (a : BundleAdvertisementRecord H)

/-- The shallowest depth at which a required resource is claimed. -/
def shallowest (resource : LogicalResourceId) : Option TierDepth :=
  (((a.placements.filter fun p => p.resource = resource).map ReadyPlacement.tier).filter
    isPublishable).min?

/-- The deepest of these, if every required resource is claimed. -/
def readyTier : Option TierDepth := go none a.requirements
where
  go : Option TierDepth → List ResourceRequirement → Option TierDepth
    | deepest, [] => deepest
    | deepest, requirement :: rest =>
      (a.shallowest requirement.resource).bind fun shallowest =>
        go (some (deepest.elim shallowest (max · shallowest))) rest

end BundleAdvertisementRecord

/-! ### Requests and answers -/

structure BundlePublishRequest (H : Type) where
  credential : MutationCredential
  advertisement : BundleAdvertisementRecord H
  deriving DecidableEq, Repr

structure BundleInvalidateRequest (H : Type) where
  credential : MutationCredential
  key : BundleKey H
  generation : Nat
  owner : InstanceId
  retainUntilUnixMs : Nat
  deriving DecidableEq, Repr

structure BundleQueryRequest (H : Type) where
  manifest : CacheManifestId
  requirements : List ResourceRequirement
  candidates : List (BundleKey H)
  nowUnixMs : Nat
  deriving DecidableEq, Repr

structure BundleQueryHit (H : Type) where
  advertisement : BundleAdvertisementRecord H
  leaseId : Nat
  leaseExpiresAtUnixMs : Nat
  readyTier : Option TierDepth
  advertisedAtUnixMs : Option Nat
  deriving DecidableEq, Repr

inductive BundleQueryMissReason
  | notFound
  | incompatible
  | incomplete
  | expired
  deriving DecidableEq, Repr

inductive BundleQueryOutcome (H : Type)
  | hit (hit : BundleQueryHit H)
  | miss (reason : BundleQueryMissReason)
  deriving DecidableEq, Repr

/-! ### Lineages of a complete bundle -/

inductive BundleLineageValidationError
  | noRequirements
  | duplicateRequirement (resource : LogicalResourceId)
  | duplicateResource (resource : LogicalResourceId)
  | incompleteResources (expected actual : List LogicalResourceId)
  | unalignedResourceBoundary (resource : LogicalResourceId)
      (boundaryTokens nativeBlockTokens : Nat)
  | invalidResourceBlockCount (resource : LogicalResourceId) (role : ResourceRole)
      (boundaryTokens expected actual : Nat)
  | resourceBoundaryMismatch (resource : LogicalResourceId) (boundaryTokens : Nat)
  | missingCanonicalHistoryBoundary
  | capsuleBoundaryMismatch (resource : LogicalResourceId)
  deriving DecidableEq, Repr

section Lineages

variable [DecidableEq H] [SequenceHash H]

/-- The endpoints' hashes, counted from `position` on and each with the one before as its
parent. -/
def rebase : Option Nat → Nat → List H → List H
  | _, _, [] => []
  | parent, position, endpoint :: rest =>
    SequenceHash.new (currentSequenceHash endpoint) parent position ::
      rebase (some (currentSequenceHash endpoint)) (position + 1) rest

/-- Every `n`-th element. -/
def everyNth (n : Nat) (l : List H) : List H :=
  (l.zipIdx.filter fun e => (e.2 + 1) % n = 0).map Prod.fst

def projectFromCanonical (resource : LogicalResourceId) (canonical : List H)
    (finerBlocksPerResourceBlock : Nat) :
    Except (BundleResourceLineageError H) (BundleResourceLineage H) :=
  (BundleResourceLineage.new resource canonical).bind fun canonical =>
    if finerBlocksPerResourceBlock = 0 then .error (.zeroProjectionFactor resource)
    else
      match canonical.hashes.zipIdx.find? fun e => position e.1 ≠ e.2 with
      | some e => .error (.canonicalPositionMismatch resource e.2 (position e.1))
      | none =>
        if canonical.hashes.length % finerBlocksPerResourceBlock ≠ 0 then
          .error (.unalignedProjection resource canonical.hashes.length finerBlocksPerResourceBlock)
        else
          BundleResourceLineage.new resource
            (rebase none 0 (everyNth finerBlocksPerResourceBlock canonical.hashes))

variable (key : BundleKey H)

def expectedBlocks (requirement : ResourceRequirement) : Nat :=
  match requirement.role with
  | .prefixHistory => key.boundaryTokens / requirement.nativeBlockTokens
  | .boundaryCapsule => 1

/-- One resource's lineage, and which history is the finest that ends at the boundary. -/
def checkLineage (canonical : Option (ResourceRequirement × BundleResourceLineage H))
    (requirement : ResourceRequirement) (lineage : BundleResourceLineage H) :
    Except BundleLineageValidationError (Option (ResourceRequirement × BundleResourceLineage H)) :=
  let resource := requirement.resource
  if key.boundaryTokens % requirement.nativeBlockTokens ≠ 0 then
    .error (.unalignedResourceBoundary resource key.boundaryTokens requirement.nativeBlockTokens)
  else if lineage.hashes.length ≠ expectedBlocks key requirement then
    .error (.invalidResourceBlockCount resource requirement.role key.boundaryTokens
      (expectedBlocks key requirement) lineage.hashes.length)
  else
    match requirement.role with
    | .prefixHistory =>
      if !lineage.hashes.zipIdx.all fun e => decide (position e.1 = e.2) then
        .error (.resourceBoundaryMismatch resource key.boundaryTokens)
      else if lineage.hashes.getLast? = some key.boundaryHash ∧
          canonical.all (fun c => requirement.nativeBlockTokens < c.1.nativeBlockTokens) then
        .ok (some (requirement, lineage))
      else .ok canonical
    | .boundaryCapsule =>
      if lineage.hashes.head? ≠ some key.boundaryHash then
        .error (.capsuleBoundaryMismatch resource)
      else .ok canonical

def checkLineages (key : BundleKey H) :
    Option (ResourceRequirement × BundleResourceLineage H) →
      List (ResourceRequirement × BundleResourceLineage H) →
        Except BundleLineageValidationError (Option (ResourceRequirement × BundleResourceLineage H))
  | canonical, [] => .ok canonical
  | canonical, (requirement, lineage) :: rest =>
    (checkLineage key canonical requirement lineage).bind fun canonical =>
      checkLineages key canonical rest

/-- A coarser history is the canonical one, projected. -/
def checkProjection (canonical : ResourceRequirement × BundleResourceLineage H)
    (actual : ResourceRequirement × BundleResourceLineage H) :
    Except BundleLineageValidationError Unit :=
  let mismatch := BundleLineageValidationError.resourceBoundaryMismatch actual.1.resource
    key.boundaryTokens
  if actual.1.nativeBlockTokens % canonical.1.nativeBlockTokens ≠ 0 then .error mismatch
  else
    match projectFromCanonical actual.1.resource canonical.2.hashes
        (actual.1.nativeBlockTokens / canonical.1.nativeBlockTokens) with
    | .error _ => .error mismatch
    | .ok expected => ensure (actual.2 = expected) mismatch

def validateBundleLineages (requirements : List ResourceRequirement)
    (lineages : List (BundleResourceLineage H)) : Except BundleLineageValidationError Unit :=
  let expected := requirements.map ResourceRequirement.resource
  let actual := lineages.map BundleResourceLineage.resource
  if requirements.isEmpty then .error .noRequirements
  else
    match BundleResourceLineage.firstRepeat [] expected with
    | some resource => .error (.duplicateRequirement resource)
    | none =>
      match BundleResourceLineage.firstRepeat [] actual with
      | some resource => .error (.duplicateResource resource)
      | none =>
        if actual.toFinset ≠ expected.toFinset then
          .error (.incompleteResources (expected.insertionSort (· ≤ ·))
            (actual.insertionSort (· ≤ ·)))
        else
          let ordered := (requirements.insertionSort fun a b => a.resource ≤ b.resource).zip
            (lineages.insertionSort fun a b => a.resource ≤ b.resource)
          (checkLineages key none ordered).bind fun
            | none => .error .missingCanonicalHistoryBoundary
            | some canonical =>
              forEach (checkProjection key canonical)
                (ordered.filter fun e => e.1.role = .prefixHistory)

end Lineages

end Kvbm.Hub.Bundle
