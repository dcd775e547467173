/-
Generations that have been retired.

When an owner invalidates a generation, the hub keeps its number for a while, so that a publication
that was sent before and arrives after is refused.
-/
import Kvbm.Hub.Bundle.Advertisements

namespace Kvbm.Hub.Bundle

open Lib

variable {H : Type}

inductive RetirementSource
  | absent
  | liveAdvertisement
  deriving DecidableEq, Repr

structure RetiredGeneration where
  generation : Nat
  retainUntilUnixMs : Nat
  source : RetirementSource
  deriving DecidableEq, Repr

inductive RetiredGenerationCapacity
  | absentOwner (owner : InstanceId) (capacity : Nat)
  | absentGlobal (capacity : Nat)
  | totalOwner (owner : InstanceId) (capacity : Nat)
  | totalGlobal (capacity : Nat)
  deriving DecidableEq, Repr

structure RetiredGenerations (H : Type) where
  entries : Listed (Identity H) RetiredGeneration
  ownerCounts : InstanceId → Option Nat
  absentCounts : InstanceId → Option Nat
  absentCapacityPerOwner : Nat
  absentGlobalCapacity : Nat
  absentLen : Nat
  totalCapacityPerOwner : Nat
  totalGlobalCapacity : Nat
  maxAbsentRetentionMs : Nat

def RetiredGeneration.merge (retired : RetiredGeneration) (generation retainUntilUnixMs : Nat) :
    RetiredGeneration :=
  { retired with
    generation := max retired.generation generation
    retainUntilUnixMs := max retired.retainUntilUnixMs retainUntilUnixMs }

namespace RetiredGenerations

def new (maxAbsentRetentionMs absentCapacityPerOwner absentGlobalCapacity totalCapacityPerOwner
    totalGlobalCapacity : Nat) : RetiredGenerations H :=
  ⟨∅, fun _ => none, fun _ => none, absentCapacityPerOwner, absentGlobalCapacity, 0,
    totalCapacityPerOwner, totalGlobalCapacity, maxAbsentRetentionMs⟩

variable (r : RetiredGenerations H)

def len : Nat := r.entries.entries.length

def ownerLen (owner : InstanceId) : Nat := (r.ownerCounts owner).getD 0

def boundedAbsentDeadline (requestedRetainUntilUnixMs observedUnixMs : Nat) : Nat :=
  min requestedRetainUntilUnixMs (saturatingAdd observedUnixMs r.maxAbsentRetentionMs)

def ensureCapacity (owner : InstanceId) (absent : Bool) : Except RetiredGenerationCapacity Unit :=
  (ensure (r.len < r.totalGlobalCapacity) (.totalGlobal r.totalGlobalCapacity)).bind fun _ =>
  (ensure (r.ownerLen owner < r.totalCapacityPerOwner)
    (.totalOwner owner r.totalCapacityPerOwner)).bind fun _ =>
  (ensure (absent → r.absentLen < r.absentGlobalCapacity)
    (.absentGlobal r.absentGlobalCapacity)).bind fun _ =>
  ensure (absent → (r.absentCounts owner).getD 0 < r.absentCapacityPerOwner)
    (.absentOwner owner r.absentCapacityPerOwner)

def decrementAbsent (owner : InstanceId) : RetiredGenerations H :=
  { r with absentLen := r.absentLen - 1, absentCounts := decrement r.absentCounts owner }

variable [DecidableEq H] (r : RetiredGenerations H)

def contains (key : BundleKey H) (owner : InstanceId) : Bool :=
  (r.entries.lookup (key, owner)).isSome

/-- The retired generation that an attempt is refused for. -/
def rejectedGeneration (key : BundleKey H) (owner : InstanceId) (attempted observedUnixMs : Nat) :
    Option Nat :=
  ((r.entries.lookup (key, owner)).filter fun retired =>
    attempted ≤ retired.generation ∧ observedUnixMs < retired.retainUntilUnixMs).map
      RetiredGeneration.generation

def retireAbsent (key : BundleKey H) (owner : InstanceId)
    (generation requestedRetainUntilUnixMs observedUnixMs : Nat) :
    Except RetiredGenerationCapacity (RetiredGenerations H) :=
  let retainUntil := r.boundedAbsentDeadline requestedRetainUntilUnixMs observedUnixMs
  if retainUntil ≤ observedUnixMs then .ok r
  else
    match r.entries.lookup (key, owner) with
    | some retired =>
      .ok { r with entries := r.entries.insert (key, owner) (retired.merge generation retainUntil) }
    | none =>
      (r.ensureCapacity owner true).map fun _ =>
        { r with
          entries := r.entries.insert (key, owner) ⟨generation, retainUntil, .absent⟩
          ownerCounts := bump r.ownerCounts owner
          absentCounts := bump r.absentCounts owner
          absentLen := r.absentLen + 1 }

def retireLive (key : BundleKey H) (owner : InstanceId)
    (generation advertisementExpiresAtUnixMs requestedRetainUntilUnixMs observedUnixMs : Nat) :
    Except RetiredGenerationCapacity (RetiredGenerations H) :=
  let retainUntil := max advertisementExpiresAtUnixMs
    (r.boundedAbsentDeadline requestedRetainUntilUnixMs observedUnixMs)
  if retainUntil ≤ observedUnixMs then .ok r
  else
    match r.entries.lookup (key, owner) with
    | some retired =>
      let merged := { r with
        entries := r.entries.insert (key, owner)
          { retired.merge generation retainUntil with source := .liveAdvertisement } }
      .ok (if retired.source = .absent then merged.decrementAbsent owner else merged)
    | none =>
      (r.ensureCapacity owner false).map fun _ =>
        { r with
          entries := r.entries.insert (key, owner) ⟨generation, retainUntil, .liveAdvertisement⟩
          ownerCounts := bump r.ownerCounts owner }

/-- Drop one record, which is of the given source. -/
def drop (e : Identity H × RetirementSource) : RetiredGenerations H :=
  let r := { r with
    entries := r.entries.erase e.1
    ownerCounts := decrement r.ownerCounts e.1.2 }
  if e.2 = .absent then r.decrementAbsent e.1.2 else r

/-- The records that satisfy `p`, each with its source. -/
def select (p : Identity H → RetiredGeneration → Bool) : List (Identity H × RetirementSource) :=
  (r.entries.entries.filter fun e => p e.1 e.2).map fun e => (e.1, e.2.source)

def prune (observedUnixMs : Nat) : RetiredGenerations H :=
  (r.select fun _ retired => retired.retainUntilUnixMs ≤ observedUnixMs).foldl drop r

def removeOwner (owner : InstanceId) : List (BundleKey H) × RetiredGenerations H :=
  let removed := r.select fun identity _ => identity.2 = owner
  (removed.map fun e => e.1.1, removed.foldl drop r)

end RetiredGenerations

end Kvbm.Hub.Bundle
