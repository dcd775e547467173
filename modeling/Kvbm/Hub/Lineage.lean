/-
Lineages of cached blocks.

A positional lineage hash says where in a sequence its block is and carries a fragment of its
parent's hash.  A lineage of one resource is a list of such hashes in which each descends from the
one before.  The hashing itself is done elsewhere.
-/
import Kvbm.Lib.Outcome

namespace Kvbm.Hub

open Lib

abbrev LogicalResourceId := Nat

abbrev CacheManifestId := Nat

abbrev InstanceId := Nat

abbrev RegistrationEpoch := Nat

/-- What is read from a positional lineage hash. -/
class LineageHash (H : Type) where
  mode : H → Nat
  position : H → Nat
  parentHashFragment : H → Nat
  parentFragmentForChildPosition : H → Nat → Nat

open LineageHash

inductive BundleResourceLineageError (H : Type)
  | empty (resource : LogicalResourceId)
  | invalidHashEncoding (resource : LogicalResourceId) (mode : Nat)
  | duplicateHash (resource : LogicalResourceId) (hash : H)
  | nonConsecutivePositions (resource : LogicalResourceId) (parentPosition childPosition : Nat)
  | parentHashMismatch (resource : LogicalResourceId) (parent child : H)
  | zeroProjectionFactor (resource : LogicalResourceId)
  | canonicalPositionMismatch (resource : LogicalResourceId) (expected actual : Nat)
  | unalignedProjection (resource : LogicalResourceId)
      (canonicalBlocks finerBlocksPerResourceBlock : Nat)
  deriving DecidableEq, Repr

structure BundleResourceLineage (H : Type) where
  resource : LogicalResourceId
  hashes : List H
  deriving DecidableEq, Repr

namespace BundleResourceLineage

variable {H : Type}

/-- The first hash that stands in the list a second time. -/
def firstRepeat [DecidableEq H] : List H → List H → Option H
  | _, [] => none
  | seen, h :: rest => if h ∈ seen then some h else firstRepeat (h :: seen) rest

variable [LineageHash H]

def checkEdges (resource : LogicalResourceId) : List H → Except (BundleResourceLineageError H) Unit
  | parent :: child :: rest =>
    if position child ≠ position parent + 1 then
      .error (.nonConsecutivePositions resource (position parent) (position child))
    else if parentHashFragment child ≠ parentFragmentForChildPosition parent (position child) then
      .error (.parentHashMismatch resource parent child)
    else checkEdges resource (child :: rest)
  | _ => .ok ()

def new [DecidableEq H] (resource : LogicalResourceId) (hashes : List H) :
    Except (BundleResourceLineageError H) (BundleResourceLineage H) :=
  if hashes.isEmpty then .error (.empty resource)
  else
    match (hashes.map mode).find? (2 < ·) with
    | some mode => .error (.invalidHashEncoding resource mode)
    | none =>
      match firstRepeat [] hashes with
      | some hash => .error (.duplicateHash resource hash)
      | none => (checkEdges resource hashes).map fun _ => ⟨resource, hashes⟩

end BundleResourceLineage

end Kvbm.Hub
