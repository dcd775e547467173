/-
Block ids that are handed in from outside and paired with the blocks of a sequence.

The ids wait in the order in which they came.  Staging gives the next of them the hash of the next
position of the sequence, and committing makes what is staged assigned.  The three collections are
insertion-ordered maps: a new key goes to the end, a known one keeps its place.
-/
import Kvbm.Index.Basic

namespace Kvbm.Sequence

/-- Insertion into an insertion-ordered map. -/
def indexInsert {β : Type} (k : BlockId) (v : β) (l : List (BlockId × β)) : List (BlockId × β) :=
  if k ∈ l.map Prod.fst then l.map fun p => if p.1 = k then (k, v) else p else l ++ [(k, v)]

def indexInsertAll {β : Type} (l new : List (BlockId × β)) : List (BlockId × β) :=
  new.foldl (fun l p => indexInsert p.1 p.2 l) l

inductive BlockSequenceError
  | orderingViolation (knownId newId : BlockId) (knownIndex firstNewIndex : Nat)
  | positionMismatch (expected actual : Nat) (blockId : BlockId)
  | duplicateBlockId (blockId : BlockId)
  deriving DecidableEq, Repr

structure ExternalBlockAssignments where
  assigned : List (BlockId × SequenceHash)
  staged : List (BlockId × SequenceHash)
  unassigned : List (BlockId × Unit)
  offset : Nat
  deriving DecidableEq, Repr

namespace ExternalBlockAssignments

def new (offset : Nat) : ExternalBlockAssignments := ⟨[], [], [], offset⟩

variable (e : ExternalBlockAssignments)

def allBlockIds : List BlockId :=
  e.assigned.map Prod.fst ++ e.staged.map Prod.fst ++ e.unassigned.map Prod.fst

def nextPosition : Nat := e.offset + e.assigned.length + e.staged.length

def getAtPosition (pos : Nat) : Option (BlockId × SequenceHash) :=
  if e.offset ≤ pos then e.assigned[pos - e.offset]? else none

def getPendingAtPosition (pos : Nat) : Option BlockId :=
  if e.nextPosition ≤ pos then e.unassigned[pos - e.nextPosition]?.map Prod.fst else none

/-- The first phase of `extend_block_ids`: index, new ids so far, index of the first of them. -/
def collectNew (e : ExternalBlockAssignments) :
    Nat → List BlockId → Option Nat → List BlockId → Except BlockSequenceError (List BlockId)
  | _, newIds, _, [] => .ok newIds
  | i, newIds, firstNew, id :: rest =>
    if id ∈ e.allBlockIds then
      match firstNew with
      | some first => .error (.orderingViolation id newIds.headI i first)
      | none => e.collectNew (i + 1) newIds none rest
    else if id ∈ newIds then .error (.duplicateBlockId id)
    else e.collectNew (i + 1) (newIds ++ [id]) (firstNew.or (some i)) rest

def extendBlockIds (ids : List BlockId) :
    Except BlockSequenceError Unit × ExternalBlockAssignments :=
  match e.collectNew 0 [] none ids with
  | .error err => (.error err, e)
  | .ok newIds =>
    (.ok (), { e with unassigned := indexInsertAll e.unassigned (newIds.map (·, ())) })

/-- The result is the range of the new indices. -/
def stagePending (blocks : List SequenceHash) :
    Except BlockSequenceError (Nat × Nat) × ExternalBlockAssignments :=
  let start := e.nextPosition
  let toStage := min (blocks.length - start) e.unassigned.length
  -- every position is checked before anything is moved
  match (List.range toStage).find? fun i =>
      (blocks.getD (start + i) default).position ≠ start + i with
  | some i =>
    (.error (.positionMismatch (start + i) (blocks.getD (start + i) default).position
      (e.unassigned.getD i default).1), e)
  | none =>
    let staged := indexInsertAll e.staged
      (((e.unassigned.take toStage).map Prod.fst).zip ((blocks.drop start).take toStage))
    (.ok (e.staged.length, staged.length),
      { e with staged, unassigned := e.unassigned.drop toStage })

def commitStaged : (Nat × Nat) × ExternalBlockAssignments :=
  let assigned := indexInsertAll e.assigned e.staged
  ((e.assigned.length, assigned.length), { e with assigned, staged := [] })

def assignPending (blocks : List SequenceHash) :
    Except BlockSequenceError (Nat × Nat) × ExternalBlockAssignments :=
  match e.stagePending blocks with
  | (.error err, e') => (.error err, e')
  | (.ok _, e') => (.ok e'.commitStaged.1, e'.commitStaged.2)

/-- The loop of both zips; an `unwrap` that finds nothing stops the program. -/
def zipPositions (start stop : Nat) (first second : Nat → Option BlockId) :
    Option (List (Nat × BlockId × BlockId)) :=
  (List.range' start (stop - start)).mapM fun pos =>
    (first pos).bind fun i => (second pos).map fun j => (pos, i, j)

def zipAssigned (a b : ExternalBlockAssignments) : Option (List (Nat × BlockId × BlockId)) :=
  zipPositions (max a.offset b.offset)
    (min (a.offset + a.assigned.length) (b.offset + b.assigned.length))
    (fun pos => (a.getAtPosition pos).map Prod.fst) fun pos => (b.getAtPosition pos).map Prod.fst

def zipAssignedPending (src dst : ExternalBlockAssignments) :
    Option (List (Nat × BlockId × BlockId)) :=
  zipPositions (max src.offset dst.nextPosition)
    (min (src.offset + src.assigned.length) (dst.nextPosition + dst.unassigned.length))
    (fun pos => (src.getAtPosition pos).map Prod.fst) dst.getPendingAtPosition

end ExternalBlockAssignments

namespace External

inductive Call
  | extendBlockIds (ids : List BlockId)
  | stagePending (blocks : List SequenceHash)
  | commitStaged
  | assignPending (blocks : List SequenceHash)
  deriving DecidableEq, Repr

/-- The assignments, with the ids accepted so far and the slice of blocks last seen. -/
structure History where
  value : ExternalBlockAssignments
  accepted : List BlockId
  blocks : List SequenceHash
  deriving DecidableEq, Repr

def step (h : History) : Call → Option History
  | .extendBlockIds ids => match h.value.extendBlockIds ids with
    | (.error _, value) => some { h with value }
    | (.ok _, value) =>
      some { h with value, accepted := h.accepted ++ ids.filter (· ∉ h.value.allBlockIds) }
  | .stagePending blocks => some { h with value := (h.value.stagePending blocks).2, blocks }
  | .commitStaged => some { h with value := h.value.commitStaged.2 }
  | .assignPending blocks => some { h with value := (h.value.assignPending blocks).2, blocks }

/-- The slices only grow. -/
def Grows (h : History) : Call → Prop
  | .stagePending blocks | .assignPending blocks => h.blocks <+: blocks
  | _ => True

instance (h : History) : (c : Call) → Decidable (Grows h c)
  | .stagePending _ | .assignPending _ => inferInstanceAs (Decidable (_ <+: _))
  | .extendBlockIds _ | .commitStaged => inferInstanceAs (Decidable True)

end External

end Kvbm.Sequence
