/-
The stored advertisements.

An advertisement is filed under its key and its owner.  Beside the records stand the times at which
they expire, in order, and how many records each owner has; both are kept up with every change.
-/
import Kvbm.Lib.Counts
import Kvbm.Lib.Agenda
import Kvbm.Hub.Bundle.Record

namespace Kvbm.Hub.Bundle

open Lib

variable {H : Type}

/-- A bundle key together with an owner. -/
abbrev Identity (H : Type) := BundleKey H × InstanceId

/-- `byKey` is the source's map of maps, with the two keys put together: a key without owners is
dropped there, so nothing else is to be seen of it. -/
structure AdvertisementIndex (H : Type) where
  byKey : Listed (Identity H) (BundleAdvertisementRecord H)
  expirations : Agenda (Identity H)
  ownerCounts : InstanceId → Option Nat
  capacityPerOwner : Nat
  globalCapacity : Nat
  len : Nat

inductive AdvertisementCapacity
  | owner (owner : InstanceId) (capacity : Nat)
  | global (capacity : Nat)
  deriving DecidableEq, Repr

namespace AdvertisementIndex

def new (capacityPerOwner globalCapacity : Nat) : AdvertisementIndex H :=
  ⟨∅, [], fun _ => none, capacityPerOwner, globalCapacity, 0⟩

variable [DecidableEq H] (s : AdvertisementIndex H)

def get (key : BundleKey H) (owner : InstanceId) : Option (BundleAdvertisementRecord H) :=
  s.byKey.lookup (key, owner)

def forKey (key : BundleKey H) : List (BundleAdvertisementRecord H) :=
  (s.byKey.entries.filter fun e => e.1.1 = key).map Sigma.snd

def ownerLen (owner : InstanceId) : Nat := (s.ownerCounts owner).getD 0

def unschedule (identity : Identity H) (expiration : Nat) : AdvertisementIndex H :=
  { s with expirations := s.expirations.strike expiration identity }

def schedule (identity : Identity H) (expiration : Nat) : AdvertisementIndex H :=
  { s with expirations := s.expirations.put expiration identity }

/-- A new record needs room; one that takes another's place does not. -/
def ensureRoom (owner : InstanceId) : Except AdvertisementCapacity Unit :=
  (ensure (s.len < s.globalCapacity) (.global s.globalCapacity)).bind fun _ =>
    ensure (s.ownerLen owner < s.capacityPerOwner) (.owner owner s.capacityPerOwner)

def insert (s : AdvertisementIndex H) (advertisement : BundleAdvertisementRecord H) :
    Except AdvertisementCapacity (AdvertisementIndex H) :=
  let identity := (advertisement.key, advertisement.owner)
  let filed := { s with byKey := s.byKey.insert identity advertisement }
  match s.get advertisement.key advertisement.owner with
  | some previous =>
    .ok ((filed.unschedule identity previous.expiresAtUnixMs).schedule identity
      advertisement.expiresAtUnixMs)
  | none =>
    (s.ensureRoom advertisement.owner).map fun _ =>
      { filed with
        len := s.len + 1
        ownerCounts := bump s.ownerCounts advertisement.owner }.schedule identity
          advertisement.expiresAtUnixMs

def remove (key : BundleKey H) (owner : InstanceId) :
    Option (BundleAdvertisementRecord H × AdvertisementIndex H) :=
  (s.get key owner).map fun removed =>
    let s := { s with byKey := s.byKey.erase (key, owner) }.unschedule (key, owner)
      removed.expiresAtUnixMs
    (removed, { s with len := s.len - 1, ownerCounts := decrement s.ownerCounts owner })

/-- Remove a record if it is there. -/
def discard (identity : Identity H) : AdvertisementIndex H :=
  ((s.remove identity.1 identity.2).map Prod.snd).getD s

def recordsForOwner (owner : InstanceId) : List (BundleAdvertisementRecord H) :=
  (s.byKey.entries.filter fun e => e.1.2 = owner).map Sigma.snd

/-- Remove the owner's record of one key, and keep what was removed. -/
def takeOne (owner : InstanceId) (s : List (BundleAdvertisementRecord H) × AdvertisementIndex H)
    (record : BundleAdvertisementRecord H) :
    List (BundleAdvertisementRecord H) × AdvertisementIndex H :=
  match s.2.remove record.key owner with
  | none => s
  | some (removed, rest) => (s.1 ++ [removed], rest)

def removeOwner (owner : InstanceId) : List (BundleAdvertisementRecord H) × AdvertisementIndex H :=
  (s.recordsForOwner owner).foldl (takeOne owner) ([], s)

/-- Remove the records of one bucket that have expired, and note their keys. -/
def expireOne (now : Nat) (s : List (BundleKey H) × AdvertisementIndex H)
    (identity : Identity H) : List (BundleKey H) × AdvertisementIndex H :=
  match s.2.get identity.1 identity.2 with
  | none => s
  | some record =>
    if record.expiresAtUnixMs ≤ now then (s.1.insert identity.1, s.2.discard identity) else s

/-- Take bucket after bucket, the earliest first, while its time has come. -/
def pruneLoop (now : Nat) :
    Nat → List (BundleKey H) × AdvertisementIndex H → List (BundleKey H) × AdvertisementIndex H
  | 0, s => s
  | fuel + 1, s =>
    match s.2.expirations with
    | [] => s
    | (expiration, identities) :: rest =>
      if expiration ≤ now then
        pruneLoop now fuel
          (identities.foldl (expireOne now) (s.1, { s.2 with expirations := rest }))
      else s

/-- `prune_expired`.  Every turn of the loop takes one bucket, so there are no more turns than
buckets. -/
def pruneExpired (observedUnixMs : Nat) : List (BundleKey H) × AdvertisementIndex H :=
  pruneLoop observedUnixMs s.expirations.length ([], s)

end AdvertisementIndex

end Kvbm.Hub.Bundle
