/-
The block store: slots, pools and capacity.

One mutex protects everything in `BlockStore`, so a method that holds it is one step:
a function from the store to the store.  Where the source stops the program (an
`assert!`, an `expect`, a `panic!`) the function returns `none`.  Metrics, block sizes
and the assertions of debug builds are left out.  Where the source asks the registry to
mark a block absent after it has released the mutex, the function returns the handles
to be marked.

A slot is named by its index.  The methods index the slots without a check only by
ids that the store itself has handed out, which are always below the number of slots.
-/
import Kvbm.Index.Basic
import Mathlib.Data.Finset.Max

namespace Kvbm

open InactiveIndex

/-- `BlockRegistrationHandle`: two handles are the same if they share their inner object. -/
structure BlockRegistrationHandle where
  id : Nat
  seqHash : SequenceHash
  deriving DecidableEq, Repr, Inhabited

/-- The address of an `ImmutableBlockInner`, which stays its own while a weak reference to it is
left. -/
abbrev InnerId := Nat

inductive SlotState
  | reset
  | mutable
  | staged (seqHash : SequenceHash)
  | primary (seqHash : SequenceHash) (handle : BlockRegistrationHandle) (inner : InnerId)
  | duplicate (seqHash : SequenceHash) (handle : BlockRegistrationHandle) (inner : InnerId)
  | inactive (seqHash : SequenceHash) (handle : BlockRegistrationHandle)
  | held (seqHash : SequenceHash) (handle : BlockRegistrationHandle)
  deriving DecidableEq, Repr

structure BlockSlot where
  generation : Nat
  inactiveEpoch : Nat
  state : SlotState
  deriving DecidableEq, Repr

structure BlockStore (ι : Type) where
  id : ManagerId
  /-- The capacity can never be set above this. -/
  totalBlocks : Nat
  defaultResetOnRelease : Bool
  capacity : Nat
  slots : BlockId → BlockSlot
  /-- Length of the vector of slots. -/
  slotCount : Nat
  free : Finset BlockId
  fenced : Finset BlockId
  fence : Option Nat
  inactive : ι
  activeByHash : SequenceHash → Option BlockId
  heldByHash : SequenceHash → Option BlockId
  resetOnRelease : BlockId → Bool

/-- `u64::MAX`. -/
def u64Max : Nat := 2 ^ 64 - 1

/-- One past the last index below `n` that satisfies `p`, or zero. -/
def endOfLast (p : Nat → Bool) : Nat → Nat
  | 0 => 0
  | n + 1 => if p n then n + 1 else endOfLast p n

namespace BlockStore

variable {ι : Type}

def freshSlot : BlockSlot := ⟨0, 0, .reset⟩

def new (id : ManagerId) (totalBlocks maximumBlocks : Nat) (inactive : ι)
    (defaultResetOnRelease : Bool) : BlockStore ι where
  id := id
  totalBlocks := maximumBlocks
  defaultResetOnRelease := defaultResetOnRelease
  capacity := totalBlocks
  slots := fun _ => freshSlot
  slotCount := totalBlocks
  free := Finset.range totalBlocks
  fenced := ∅
  fence := none
  inactive := inactive
  activeByHash := fun _ => none
  heldByHash := fun _ => none
  resetOnRelease := fun _ => defaultResetOnRelease

/-! ### Slots and reset pools -/

def state (s : BlockStore ι) (id : BlockId) : SlotState := (s.slots id).state

variable (s : BlockStore ι)

def setSlot (id : BlockId) (slot : BlockSlot) : BlockStore ι :=
  { s with slots := Function.update s.slots id slot }

def setState (id : BlockId) (st : SlotState) : BlockStore ι :=
  s.setSlot id { s.slots id with state := st }

/-- `store_reset_on_release`. -/
def setFlag (id : BlockId) (value : Bool) : BlockStore ι :=
  { s with resetOnRelease := Function.update s.resetOnRelease id value }

def effectiveCeiling : Nat := min (s.fence.getD s.capacity) s.capacity

def pushResetId (id : BlockId) : BlockStore ι :=
  if id < s.effectiveCeiling then
    { s with fenced := s.fenced.erase id, free := insert id s.free }
  else { s with free := s.free.erase id, fenced := insert id s.fenced }

def resetSlot (id : BlockId) : BlockStore ι := (s.setState id .reset).pushResetId id

/-- `free.pop_first()`. -/
def popFree : Option (BlockId × BlockStore ι) :=
  if h : s.free.Nonempty then
    some (s.free.min' h, { s with free := s.free.erase (s.free.min' h) })
  else none

/-- Enter a new mutable tenure for a reset or inactive slot. -/
def allocateMutableSlot (id : BlockId) : Option (BlockStore ι) :=
  let slot := s.slots id
  if slot.generation = u64Max then none
  else
    let s := s.setSlot id { slot with generation := slot.generation + 1, state := .mutable }
    some (s.setFlag id s.defaultResetOnRelease)

def takeInactiveHandle (id : BlockId) : Option BlockRegistrationHandle :=
  match s.state id with
  | .inactive _ handle => some handle
  | _ => none

def setInactiveTenureState (id : BlockId) (h : SequenceHash) (handle : BlockRegistrationHandle) :
    Option (BlockStore ι) :=
  let slot := s.slots id
  if slot.inactiveEpoch = u64Max then none
  else
    some (s.setSlot id
      { slot with inactiveEpoch := slot.inactiveEpoch + 1, state := .inactive h handle })

/-! ### Capacity -/

def highWater : Nat := endOfLast (fun id => s.state id ≠ .reset) s.capacity

def checkCapacity (capacity : Nat) : Except String Unit :=
  let maximum := s.totalBlocks
  if capacity > maximum then
    .error s!"block capacity {capacity} exceeds maximum {maximum}"
  else
    let last := s.highWater - 1
    if capacity < s.highWater then
      .error s!"block capacity {capacity} excludes occupied block {last}"
    else .ok ()

/-- Classify the given reset ids again, under the present ceiling. -/
def reclassify (ids : Finset BlockId) : BlockStore ι :=
  { s with
    free := ids.filter fun id => id < s.effectiveCeiling
    fenced := ids.filter fun id => ¬ id < s.effectiveCeiling }

def setAllocationCeiling (fence : Option Nat) : Except String Unit × BlockStore ι :=
  let capacity := s.capacity
  match fence with
  | some ceiling =>
    if ceiling > capacity then
      (.error s!"allocation ceiling {ceiling} exceeds block capacity {capacity}", s)
    else (.ok (), { s with fence := fence }.reclassify (s.free ∪ s.fenced))
  | none => (.ok (), { s with fence := fence }.reclassify (s.free ∪ s.fenced))

/-! ### Guards of unregistered blocks -/

def releaseMutable (id : BlockId) : BlockStore ι := s.resetSlot id

def transitionToStaged (id : BlockId) (h : SequenceHash) : BlockStore ι := s.setState id (.staged h)

def transitionBackToMutable (id : BlockId) : BlockStore ι :=
  (s.setState id .mutable).setFlag id s.defaultResetOnRelease

def releaseStaged (id : BlockId) : BlockStore ι := s.resetSlot id

/-! ### Operations that reach the index -/

variable [InactiveIndex ι] (s : BlockStore ι)

/-- The vectors and the index follow a capacity that they do not reach. -/
def resize (capacity : Nat) : BlockStore ι :=
  { s with
    slots := fun id => if id < s.slotCount then s.slots id else freshSlot
    slotCount := capacity
    resetOnRelease := fun id =>
      if id < s.slotCount then s.resetOnRelease id else s.defaultResetOnRelease
    inactive := growCapacity s.inactive capacity }

def setCapacity (capacity : Nat) : Except String Unit × BlockStore ι :=
  match s.checkCapacity capacity with
  | .error e => (.error e, s)
  | .ok () =>
    let previous := s.capacity
    let s :=
      if capacity < previous then
        { s with free := s.free.filter (· < capacity), fenced := s.fenced.filter (· < capacity) }
      else if capacity > previous ∧ capacity > s.slotCount then s.resize capacity
      else s
    let s := { s with capacity := capacity }
    let s :=
      if capacity > previous then (List.range' previous (capacity - previous)).foldl pushResetId s
      else s
    (.ok (), s.reclassify (s.free ∪ s.fenced))

def poisonLineage (h : SequenceHash) : Option (BlockStore ι) :=
  (poison s.inactive h).map fun ix => { s with inactive := ix }

def enterInactiveTenure (id : BlockId) (h : SequenceHash) (handle : BlockRegistrationHandle) :
    Option (BlockStore ι) := do
  let s ← s.setInactiveTenureState id h handle
  let ix ← insert s.inactive h id
  return { s with inactive := ix }

end BlockStore

end Kvbm
