/-
Branch points of the registered blocks.

A branch point is a block with more than one live child: the place where token sequences part.
The registry tells the tracker of every block that is registered and of every block whose
registration is dropped, and eviction asks it how far a block has ever fanned out.

The counters are `u32`.  An addition that overflows stops the program, which is `none` here.
-/
import Kvbm.Index.Basic
import Mathlib.Data.Finset.Card

namespace Kvbm

open Function

/-- What is known of a block that has, or had while resident, a live child. -/
structure BranchPointRecord where
  position : Nat
  fragment : Nat
  currentFanout : Nat
  maxFanout : Nat
  observationCount : Nat
  deriving DecidableEq, Repr

def BranchPointRecord.observe (r : BranchPointRecord) : BranchPointRecord :=
  { r with
    currentFanout := r.currentFanout + 1
    maxFanout := max r.maxFanout (r.currentFanout + 1)
    observationCount := min (r.observationCount + 1) (2 ^ 32 - 1) }

/-- `None` for a root. -/
def parentKeyOf (h : SequenceHash) : Option (Nat × Nat) :=
  if h.position = 0 then none else some h.parentKey

def childKeyOf (h : SequenceHash) : Nat × SequenceHash := (h.position, h)

structure BranchPointTracker where
  parents : Nat × SequenceHash → Option (Nat × Nat)
  records : Nat × Nat → Option BranchPointRecord

namespace BranchPointTracker

def new : BranchPointTracker := ⟨fun _ => none, fun _ => none⟩

variable (t : BranchPointTracker)

def onBlockRegistered (h : SequenceHash) : Option BranchPointTracker :=
  match parentKeyOf h with
  | none => some t
  | some key =>
    if (t.parents (childKeyOf h)).isSome then some t
    else
      let record := (t.records key).getD ⟨key.1, key.2, 0, 0, 0⟩
      if record.currentFanout + 1 < 2 ^ 32 then
        some ⟨update t.parents (childKeyOf h) (some key),
          update t.records key (some record.observe)⟩
      else none

/-- The record of the parent, if there is one, has a child less. -/
def dropChild (h : SequenceHash) : Nat × Nat → Option BranchPointRecord :=
  match t.parents (childKeyOf h) with
  | none => t.records
  | some key => update t.records key
      ((t.records key).map fun r => { r with currentFanout := r.currentFanout - 1 })

def onBlockRemoved (h : SequenceHash) : BranchPointTracker :=
  ⟨update t.parents (childKeyOf h) none, update (t.dropChild h) h.key none⟩

def maxFanout (t : BranchPointTracker) (h : SequenceHash) : Option Nat :=
  (t.records h.key).map (·.maxFanout)

end BranchPointTracker

namespace Branch

inductive Call
  | registered (h : SequenceHash)
  | removed (h : SequenceHash)
  deriving DecidableEq, Repr

/-- A tracker, with the blocks that are registered now and those that ever were. -/
structure System where
  tracker : BranchPointTracker
  live : Finset SequenceHash
  seen : Finset SequenceHash

def System.new : System := ⟨.new, ∅, ∅⟩

def step (s : System) : Call → Option System
  | .registered h => (s.tracker.onBlockRegistered h).map (⟨·, insert h s.live, insert h s.seen⟩)
  | .removed h => some ⟨s.tracker.onBlockRemoved h, s.live.erase h, s.seen⟩

/-- How many of the blocks have the parent key `k`. -/
def children (live : Finset SequenceHash) (k : Nat × Nat) : Nat :=
  (live.filter (parentKeyOf · = some k)).card

end Branch

end Kvbm
