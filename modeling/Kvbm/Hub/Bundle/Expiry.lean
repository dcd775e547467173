/-
Keys whose advertisement has expired not long ago.

A query that finds nothing says whether the bundle was there before.  The history is bounded in
time and in size; what goes first is what is to go first anyway.
-/
import Mathlib.Data.Prod.Lex
import Kvbm.Hub.Bundle.Advertisements

namespace Kvbm.Hub.Bundle

open Lib

variable {H : Type}

def maxRetainedKeys : Nat := 4096

/-- The time until which a key is kept, its manifest, its boundary and the bits of its hash. -/
abbrev ExpiryOrder := Nat ×ₗ Nat ×ₗ Nat ×ₗ Nat

def expiryOrder [SequenceHash H] (key : BundleKey H) (retainUntilUnixMs : Nat) : ExpiryOrder :=
  toLex (retainUntilUnixMs,
    toLex (key.manifest, toLex (key.boundaryTokens, SequenceHash.asU128 key.boundaryHash)))

structure ExpiredAdvertisementHistory (H : Type) where
  entries : Listed (BundleKey H) Nat
  evictionOrder : List (ExpiryOrder × BundleKey H)
  retentionMs : Nat
  capacity : Nat

namespace ExpiredAdvertisementHistory

def new (retentionMs : Nat) : ExpiredAdvertisementHistory H := ⟨∅, [], retentionMs, maxRetainedKeys⟩

variable [DecidableEq H] (s : ExpiredAdvertisementHistory H)

def contains (key : BundleKey H) : Bool := (s.entries.lookup key).isSome

/-- Take the first of the order as long as `p` holds. -/
def popWhile (p : ExpiryOrder → Listed (BundleKey H) Nat → Bool) :
    List (ExpiryOrder × BundleKey H) → Listed (BundleKey H) Nat →
      List (ExpiryOrder × BundleKey H) × Listed (BundleKey H) Nat
  | [], entries => ([], entries)
  | (order, key) :: rest, entries =>
    if p order entries then popWhile p rest (entries.erase key) else ((order, key) :: rest, entries)

def shrink (p : ExpiryOrder → Listed (BundleKey H) Nat → Bool) : ExpiredAdvertisementHistory H :=
  let left := popWhile p s.evictionOrder s.entries
  { s with evictionOrder := left.1, entries := left.2 }

def prune (observedUnixMs : Nat) : ExpiredAdvertisementHistory H :=
  s.shrink fun order _ => (ofLex order).1 ≤ observedUnixMs

def enforceCapacity : ExpiredAdvertisementHistory H :=
  s.shrink fun _ entries => s.capacity < entries.entries.length

variable [SequenceHash H] (s : ExpiredAdvertisementHistory H)

def forget (key : BundleKey H) : ExpiredAdvertisementHistory H :=
  match s.entries.lookup key with
  | none => s
  | some retainUntil =>
    { s with
      entries := s.entries.erase key
      evictionOrder := ordRemove (expiryOrder key retainUntil) s.evictionOrder }

def recordOne (observedUnixMs retainUntil : Nat) (s : ExpiredAdvertisementHistory H)
    (key : BundleKey H) : ExpiredAdvertisementHistory H :=
  let s := s.forget key
  if s.capacity = 0 ∨ retainUntil ≤ observedUnixMs then s
  else
    { s with
      entries := s.entries.insert key retainUntil
      evictionOrder := ordInsert (expiryOrder key retainUntil) key s.evictionOrder }

def record (keys : List (BundleKey H)) (observedUnixMs : Nat) : ExpiredAdvertisementHistory H :=
  let s := s.prune observedUnixMs
  let retainUntil := saturatingAdd observedUnixMs s.retentionMs
  (keys.foldl (recordOne observedUnixMs retainUntil) s).enforceCapacity

end ExpiredAdvertisementHistory

end Kvbm.Hub.Bundle
