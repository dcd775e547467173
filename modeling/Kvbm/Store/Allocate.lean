/-
Allocation from the block store.

Mutable blocks come from the reset pool, or from the inactive index, whose blocks lose
their registration then.  A method that evicts returns what it evicted with the blocks.
-/
import Kvbm.Store.Basic

namespace Kvbm

open InactiveIndex

/-- What an evicting method returns: the new mutable blocks, the hashes that lost a block, and the
handles to be marked absent. -/
structure Eviction where
  blocks : List BlockId
  evicted : List SequenceHash
  handles : List BlockRegistrationHandle
  deriving DecidableEq, Repr

namespace BlockStore

variable {ι : Type}

/-! ### From the reset pool -/

/-- `free.pop_first().unwrap()`, several times. -/
def popFreeMany : Nat → BlockStore ι → Option (List BlockId × BlockStore ι)
  | 0, s => some ([], s)
  | n + 1, s => do
      let (id, s) ← s.popFree
      let (ids, s) ← popFreeMany n s
      return (id :: ids, s)

/-- `allocate_mutable_slot` for each of the ids. -/
def allocateMutableSlots : List BlockId → BlockStore ι → Option (BlockStore ι)
  | [], s => some s
  | id :: ids, s => (s.allocateMutableSlot id).bind (allocateMutableSlots ids)

def allocateResetBlocksLocked : Nat → BlockStore ι → Option (List BlockId × BlockStore ι)
  | 0, s => some ([], s)
  | n + 1, s => do
      let (id, s) ← s.popFree
      let s ← s.allocateMutableSlot id
      let (ids, s) ← allocateResetBlocksLocked n s
      return (id :: ids, s)

variable (s : BlockStore ι)

def allocateResetBlocks (count : Nat) : Option (List BlockId × BlockStore ι) :=
  allocateResetBlocksLocked (min count s.free.card) s

def allocateResetBlocksAtomic (count : Nat) : Option (Option (List BlockId) × BlockStore ι) :=
  if count = 0 then some (some [], s)
  else if s.free.card < count then some (none, s)
  else (allocateResetBlocksLocked count s).map fun r => (some r.1, r.2)

/-! ### Evictions -/

/-- A slot taken from the index leaves its inactive tenure: it becomes mutable below the ceiling
and fenced above it. -/
def evict (ceiling : Nat) (e : Entry) (ev : Eviction) : Option (Eviction × BlockStore ι) := do
  let handle ← s.takeInactiveHandle e.2
  if e.2 < ceiling then
    let s ← s.allocateMutableSlot e.2
    return (⟨ev.blocks ++ [e.2], ev.evicted ++ [e.1], ev.handles ++ [handle]⟩, s)
  else
    let s := (s.setFlag e.2 s.defaultResetOnRelease).resetSlot e.2
    return (⟨ev.blocks, ev.evicted ++ [e.1], ev.handles ++ [handle]⟩, s)

def evictAll (ceiling : Nat) : List Entry → BlockStore ι → Eviction →
    Option (Eviction × BlockStore ι)
  | [], s, ev => some (ev, s)
  | e :: rest, s, ev => (s.evict ceiling e ev).bind fun r => evictAll ceiling rest r.2 r.1

variable [InactiveIndex ι] (s : BlockStore ι)

/-- Keep a taken pair if it is below the ceiling and still needed. -/
def useVictim (ceiling needed : Nat) (usable : List Entry) (e : Entry) : List Entry :=
  if e.2 < ceiling ∧ usable.length < needed then usable ++ [e] else usable

/-- Take victims until enough of them are usable or none is left: all that were taken, and the
usable ones. -/
def takeVictims (ceiling needed : Nat) : Nat → ι → List Entry → List Entry →
    Option ((List Entry × List Entry) × ι)
  | 0, _, _, _ => none
  | fuel + 1, ix, taken, usable =>
    if usable.length < needed then
      (allocate ix (needed - usable.length)).bind fun (pairs, ix) =>
        if pairs.isEmpty then some ((taken, usable), ix)
        else takeVictims ceiling needed fuel ix (taken ++ pairs)
          (pairs.foldl (useVictim ceiling needed) usable)
    else some ((taken, usable), ix)

/-- `inactive.insert` for each of the pairs. -/
def insertAll : List Entry → ι → Option ι
  | [], ix => some ix
  | e :: rest, ix => (insert ix e.1 e.2).bind (insertAll rest)

/-- Evict the taken pairs, except that a pair below the ceiling that is not used goes back. -/
def commitVictims (ceiling : Nat) (used : List BlockId) : List Entry → BlockStore ι → Eviction →
    Option (Eviction × BlockStore ι)
  | [], s, ev => some (ev, s)
  | e :: rest, s, ev =>
    if e.2 < ceiling ∧ e.2 ∉ used then
      (insert s.inactive e.1 e.2).bind fun ix =>
        commitVictims ceiling used rest { s with inactive := ix } ev
    else (s.evict ceiling e ev).bind fun r => commitVictims ceiling used rest r.2 r.1

/-- All or nothing, from both pools. -/
def allocateAtomic (count : Nat) : Option (Option Eviction × BlockStore ι) :=
  if count = 0 then some (some ⟨[], [], []⟩, s)
  else if s.free.card + len s.inactive < count then some (none, s)
  else
    let fromReset := min count s.free.card
    let needed := count - fromReset
    let ceiling := s.effectiveCeiling
    (popFreeMany fromReset s).bind fun (resetIds, s) =>
      (takeVictims ceiling needed (len s.inactive + 2) s.inactive [] []).bind
        fun ((taken, usable), ix) =>
          let s := { s with inactive := ix }
          if usable.length ≠ needed then
            (insertAll taken ix).map fun ix =>
              (none, resetIds.reverse.foldl pushResetId { s with inactive := ix })
          else
            (allocateMutableSlots resetIds s).bind fun s =>
              (commitVictims ceiling (usable.map Prod.snd) taken s ⟨resetIds, [], []⟩).map
                fun (ev, s) => (some ev, s)

def drainInactiveToMutable : Option (Eviction × BlockStore ι) :=
  (allocateAll s.inactive).bind fun (drained, ix) =>
    evictAll s.effectiveCeiling drained { s with inactive := ix } ⟨[], [], []⟩

/-- Evict the inactive ones among the slots, each together with its inactive descendants. -/
def tailLoop (ceiling : Nat) : List BlockId → BlockStore ι → Eviction →
    Option (Eviction × BlockStore ι)
  | [], s, ev => some (ev, s)
  | id :: rest, s, ev =>
    match s.state id with
    | .inactive h _ =>
      (takeWithDescendants s.inactive h id).bind fun (pairs, ix) =>
        (evictAll ceiling pairs { s with inactive := ix } ev).bind fun r =>
          tailLoop ceiling rest r.2 r.1
    | _ => tailLoop ceiling rest s ev

/-- A slot that is neither reset nor inactive. -/
def pinned (id : BlockId) : Bool :=
  match s.state id with
  | .reset => false
  | .inactive _ _ => false
  | _ => true

def inactiveTailToMutable (minCapacity : Nat) : Option (Eviction × BlockStore ι) :=
  let start := max (endOfLast s.pinned s.capacity) minCapacity
  tailLoop s.effectiveCeiling (List.range' start (s.capacity - start)) s ⟨[], [], []⟩

end BlockStore

end Kvbm
