/-
Complete lineages and ordered removal plans.

A pressure hold takes one leaf together with every ancestor up to the root, and an
exact reclaim names a set of blocks to be removed in a given order.  Both are
checked against the whole graph before the first node is touched; the checks are
here, and with them the instance of the trait.
-/
import Kvbm.Index.Lineage.Graph

namespace Kvbm

namespace LineageBackend

/-! ### A leaf and all its ancestors -/

/-- The nodes from `current` up to a root at position zero, all of them real. -/
def lineageLoop (b : LineageBackend) : Nat → Option Nat → Option (List Nat)
  | _, none => some []
  | 0, some _ => none
  | fuel + 1, some index =>
    let slot := b.slots index
    if ¬ b.isReal index then none
    else if slot.parent.isNone ∧ slot.position ≠ 0 then none
    else (lineageLoop b fuel slot.parent).map fun l => index :: l

variable (b : LineageBackend)

/-- The slots from the leaf to the root, and the blocks from the root to the leaf. -/
def completeLineageIndices (h : SequenceHash) (id : BlockId) : Option (List Nat × List Entry) :=
  (b.realIndex h id).bind fun target =>
    if (b.slots target).isLeaf then
      (b.lineageLoop (h.position + 1) (some target)).map fun indices =>
        (indices, (indices.reverse.filterMap fun i => (b.slots i).data.entry?))
    else none

def exactCompleteLineage (h : SequenceHash) (id : BlockId) : Option (List Entry) :=
  (b.completeLineageIndices h id).map Prod.snd

def takeExactCompleteLineage (h : SequenceHash) (id : BlockId) :
    Option (Option (List Entry) × LineageBackend) :=
  match b.completeLineageIndices h id with
  | none => some (none, b)
  | some (indices, sourceBlocks) =>
    (b.removeNodes indices).map fun (_, b) => (some sourceBlocks, b)

/-! ### Ordered removal plans -/

/-- A check that may stop the program. -/
abbrev PlanCheck := ExceptT ExactReclaimPlanError Option

/-- Stop the program. -/
def planPanic {α : Type} : PlanCheck α := ExceptT.mk none

/-- Place in the plan of each selected slot, and the selected slots in order. -/
def planIndices (b : LineageBackend) : List ExactInactiveVictim → Nat → (Nat → Option Nat) →
    List Nat → PlanCheck ((Nat → Option Nat) × List Nat)
  | [], _, positions, indices => pure (positions, indices)
  | victim :: rest, position, positions, indices =>
    match b.realIndex victim.seqHash victim.blockId with
    | none => throw (.missingVictim victim.blockId)
    | some index =>
      if (positions index).isSome then throw (.missingVictim victim.blockId)
      else planIndices b rest (position + 1) (Function.update positions index (some position))
        (indices ++ [index])

/-- The nearest real ancestor is selected too, and later. -/
def validateNearestRealAncestor (b : LineageBackend) (childBlockId : BlockId)
    (childPosition : Nat) (positions : Nat → Option Nat) : Nat → Option Nat → PlanCheck Unit
  | _, none => pure ()
  | 0, some _ => planPanic
  | fuel + 1, some parent =>
    match (b.slots parent).data with
    | .real blockId _ =>
      match positions parent with
      | none => throw (.missingRealAncestor childBlockId blockId)
      | some parentPosition =>
        if parentPosition < childPosition then
          throw (.parentBeforeChild blockId childBlockId)
        else pure ()
    | .ghost =>
      validateNearestRealAncestor b childBlockId childPosition positions fuel
        (b.slots parent).parent
    | .free => planPanic

/-- A real child is selected too, and earlier. -/
def validateRealChild (parentBlockId : BlockId) (parentPosition : Nat)
    (positions : Nat → Option Nat) (index : Nat) (blockId : BlockId) : PlanCheck Unit :=
  match positions index with
  | none => throw (.omittedLiveChild parentBlockId blockId)
  | some childPosition =>
    if childPosition > parentPosition then throw (.parentBeforeChild parentBlockId blockId)
    else pure ()

/-- The real nodes nearest below the ghosts on the stack. -/
def validateGhostChildren (b : LineageBackend) (parentBlockId : BlockId) (parentPosition : Nat)
    (positions : Nat → Option Nat) : Nat → List Nat → PlanCheck Unit
  | _, [] => pure ()
  | 0, _ :: _ => planPanic
  | fuel + 1, index :: pending =>
    match (b.slots index).data with
    | .real blockId _ => do
        validateRealChild parentBlockId parentPosition positions index blockId
        validateGhostChildren b parentBlockId parentPosition positions fuel pending
    | .ghost =>
      match b.childList index with
      | none => planPanic
      | some children =>
        validateGhostChildren b parentBlockId parentPosition positions fuel
          (children.reverse ++ pending)
    | .free => planPanic

def validateChildren (b : LineageBackend) (parentBlockId : BlockId) (parentPosition : Nat)
    (positions : Nat → Option Nat) : List Nat → PlanCheck Unit
  | [] => pure ()
  | child :: rest => do
      match (b.slots child).data with
      | .real blockId _ => validateRealChild parentBlockId parentPosition positions child blockId
      | .ghost =>
        validateGhostChildren b parentBlockId parentPosition positions b.size [child]
      | .free => planPanic
      validateChildren b parentBlockId parentPosition positions rest

def validatePlan (b : LineageBackend) (positions : Nat → Option Nat) :
    Nat → List (Nat × ExactInactiveVictim) → PlanCheck Unit
  | _, [] => pure ()
  | position, (index, victim) :: rest => do
      validateNearestRealAncestor b victim.blockId position positions
        ((b.slots index).position + 1) (b.slots index).parent
      match b.childList index with
      | none => planPanic
      | some children => validateChildren b victim.blockId position positions children
      validatePlan b positions (position + 1) rest

def preflightExactReclaim (victims : List ExactInactiveVictim) :
    Option (Except ExactReclaimPlanError Unit) :=
  ExceptT.run (m := Option) do
    let (positions, indices) ← b.planIndices victims 0 (fun _ => none) []
    validatePlan b positions 0 (indices.zip victims)

end LineageBackend

open LineageBackend in
instance : InactiveIndex LineageBackend where
  findMatches := findLoop removeByHash
  findMatch := removeByHash
  scanMatches := scanLoop removeByHash
  allocate := fun b n => victimLoop victim n b
  insert := insertInner
  rebind := rebind
  len := fun b => b.count
  has := fun b h => (b.hashIndex h).isSome
  take := take
  takeWithDescendants := takeWithDescendants
  takeCompleteLineage := takeExactCompleteLineage
  completeLineage := exactCompleteLineage
  preflightExactReclaim := preflightExactReclaim
  poison := poisonSuffix

end Kvbm
