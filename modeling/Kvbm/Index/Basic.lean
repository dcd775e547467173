/-
What an inactive index is.

A registered block that nobody holds stays in its slot, and an index keeps the
pair of its sequence hash and its block id until somebody asks for the hash or
until the slot is needed.  The store reaches every such index through one trait,
`InactiveIndex`, and this file is that trait, with the default bodies it gives
and the two loops that every backend repeats.

The methods take the index and return the changed one.  A method whose body can
stop the program (an assertion, an `unwrap`, an `unreachable`) returns `none`
there.  The flag `touch`, which no backend reads, and the two advisory methods
that change nothing (`peek_victims`, `advice`) are left out.
-/
import Mathlib.Algebra.GroupWithZero.Nat
import Mathlib.Data.Finset.Basic

namespace Kvbm

/-- Index of a slot of the store. -/
abbrev BlockId := Nat

/-- What this crate reads of a positional lineage hash. -/
structure SequenceHash where
  asU128 : Nat
  /-- Place of the block in its sequence. -/
  position : Nat
  /-- `parent_fragment_for_child_position(position + 1)`: what a child knows of this block. -/
  fragment : Nat
  /-- `parent_hash_fragment()`: what this block knows of its parent. -/
  parentFragment : Nat
  deriving DecidableEq, Repr, Inhabited

/-- Key of the lineage index: position and fragment. -/
def SequenceHash.key (h : SequenceHash) : Nat × Nat := (h.position, h.fragment)

/-- Key of the parent of a block that is not the first of its sequence. -/
def SequenceHash.parentKey (h : SequenceHash) : Nat × Nat := (h.position - 1, h.parentFragment)

/-- A resident block: the hash it is registered under and its slot. -/
abbrev Entry := SequenceHash × BlockId

abbrev ManagerId := Nat

/-- One exact inactive residency, named by slot, hash, generation and epoch. -/
structure ExactInactiveVictim where
  managerId : ManagerId
  blockId : BlockId
  seqHash : SequenceHash
  generation : Nat
  inactiveEpoch : Nat
  deriving DecidableEq, Repr

/-- Why a backend turns down an ordered removal plan. -/
inductive ExactReclaimPlanError
  | unsupported
  | missingVictim (blockId : BlockId)
  | parentBeforeChild (parentBlockId childBlockId : BlockId)
  | omittedLiveChild (parentBlockId childBlockId : BlockId)
  | missingRealAncestor (childBlockId parentBlockId : BlockId)
  deriving DecidableEq, Repr

/-- The trait every inactive backend implements. -/
class InactiveIndex (ι : Type) where
  findMatches : ι → List SequenceHash → Option (List Entry × ι)
  scanMatches : ι → List SequenceHash → Option (List Entry × ι)
  allocate : ι → Nat → Option (List Entry × ι)
  insert : ι → SequenceHash → BlockId → Option ι
  rebind : ι → SequenceHash → BlockId → BlockId → Bool × ι
  len : ι → Nat
  has : ι → SequenceHash → Bool
  take : ι → SequenceHash → BlockId → Option (Bool × ι)
  growCapacity : ι → Nat → ι := fun s _ => s
  findMatch : ι → SequenceHash → Option (Option Entry × ι) := fun s h =>
    (findMatches s [h]).map fun r => (r.1.head?, r.2)
  takeWithDescendants : ι → SequenceHash → BlockId → Option (List Entry × ι) := fun s h id =>
    (take s h id).map fun r => (if r.1 then [(h, id)] else [], r.2)
  takeCompleteLineage : ι → SequenceHash → BlockId → Option (Option (List Entry) × ι) :=
    fun s _ _ => some (none, s)
  completeLineage : ι → SequenceHash → BlockId → Option (List Entry) := fun _ _ _ => none
  preflightExactReclaim : ι → List ExactInactiveVictim →
      Option (Except ExactReclaimPlanError Unit) := fun _ victims =>
    some (if victims.isEmpty then .ok () else .error .unsupported)
  poison : ι → SequenceHash → Option ι := fun s _ => some s
  allocateAll : ι → Option (List Entry × ι) := fun s => allocate s (len s)

section Loops

variable {ι : Type}

/-- Remove the hashes in order and stop at the first that is not there. -/
def findLoop (pop : ι → SequenceHash → Option (Option Entry × ι)) :
    ι → List SequenceHash → Option (List Entry × ι)
  | s, [] => some ([], s)
  | s, h :: hs =>
    (pop s h).bind fun r =>
      match r.1 with
      | none => some ([], r.2)
      | some e => (findLoop pop r.2 hs).map fun q => (e :: q.1, q.2)

/-- Remove those of the hashes that are there. -/
def scanLoop (pop : ι → SequenceHash → Option (Option Entry × ι)) :
    ι → List SequenceHash → Option (List Entry × ι)
  | s, [] => some ([], s)
  | s, h :: hs =>
    (pop s h).bind fun r =>
      (scanLoop pop r.2 hs).map fun q => (r.1.toList ++ q.1, q.2)

/-- Remove victims until there are `n` of them or none is left. -/
def victimLoop (victim : ι → Option (Option Entry × ι)) : Nat → ι → Option (List Entry × ι)
  | 0, s => some ([], s)
  | n + 1, s =>
    (victim s).bind fun r =>
      match r.1 with
      | none => some ([], r.2)
      | some e => (victimLoop victim n r.2).map fun q => (e :: q.1, q.2)

end Loops

/-- A call that may change an index. -/
inductive IndexOp
  | insert (h : SequenceHash) (id : BlockId)
  | findMatch (h : SequenceHash)
  | findMatches (hs : List SequenceHash)
  | scanMatches (hs : List SequenceHash)
  | allocate (n : Nat)
  | allocateAll
  | rebind (h : SequenceHash) (src dst : BlockId)
  | take (h : SequenceHash) (id : BlockId)
  | takeWithDescendants (h : SequenceHash) (id : BlockId)
  | takeCompleteLineage (h : SequenceHash) (id : BlockId)
  | poison (h : SequenceHash)
  | growCapacity (n : Nat)

/-- The index after the call. -/
def IndexOp.step {ι : Type} [InactiveIndex ι] (s : ι) : IndexOp → Option ι
  | .insert h id => InactiveIndex.insert s h id
  | .findMatch h => (InactiveIndex.findMatch s h).map Prod.snd
  | .findMatches hs => (InactiveIndex.findMatches s hs).map Prod.snd
  | .scanMatches hs => (InactiveIndex.scanMatches s hs).map Prod.snd
  | .allocate n => (InactiveIndex.allocate s n).map Prod.snd
  | .allocateAll => (InactiveIndex.allocateAll s).map Prod.snd
  | .rebind h src dst => some (InactiveIndex.rebind s h src dst).2
  | .take h id => (InactiveIndex.take s h id).map Prod.snd
  | .takeWithDescendants h id => (InactiveIndex.takeWithDescendants s h id).map Prod.snd
  | .takeCompleteLineage h id => (InactiveIndex.takeCompleteLineage s h id).map Prod.snd
  | .poison h => InactiveIndex.poison s h
  | .growCapacity n => some (InactiveIndex.growCapacity s n)

/-- Answers of an object shared with the rest of the program (a frequency tracker, a branch
oracle): the `n`-th question may be answered differently from the one before. -/
structure Answers (κ β : Type) where
  ask : Nat → κ → β
  asked : Nat

/-- The next answer, and the object after it has been asked. -/
def Answers.next {κ β : Type} (a : Answers κ β) (k : κ) : β × Answers κ β :=
  (a.ask a.asked k, { a with asked := a.asked + 1 })

end Kvbm
