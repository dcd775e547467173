/-
Presence markers of one registration.

A registration counts, tier by tier, the slots in which its block is physically present.
It is present in few tiers, so the counts live in a short inline list with an overflow
list behind it.
-/
import Kvbm.Lib.Assoc
import Mathlib.Data.List.ReduceOption

namespace Kvbm

open Lib

/-- `INLINE_PRESENCE_TIERS`. -/
def inlinePresenceTiers : Nat := 2

structure PresenceMarkers (τ : Type) where
  inline : List (Option (τ × Nat))
  overflow : List (τ × Nat)
  deriving DecidableEq, Repr

namespace PresenceMarkers

variable {τ : Type}

def empty : PresenceMarkers τ := ⟨List.replicate inlinePresenceTiers none, []⟩

variable (m : PresenceMarkers τ)

/-- The entries in the order in which they are searched. -/
def all : List (τ × Nat) := m.inline.reduceOption ++ m.overflow

variable [DecidableEq τ] (m : PresenceMarkers τ)

def isTier (t : τ) : Option (τ × Nat) → Bool
  | some e => e.1 = t
  | none => false

def count (t : τ) : Nat := (assocGet t m.all).getD 0

/-- Write through `count_mut`. -/
def modifyCount (t : τ) (f : Nat → Nat) : PresenceMarkers τ :=
  if m.inline.any (isTier t) then
    { m with inline := modifyFirst (isTier t) (Option.map fun e => (e.1, f e.2)) m.inline }
  else { m with overflow := modifyFirst (fun e => e.1 = t) (fun e => (e.1, f e.2)) m.overflow }

def increment (t : τ) : PresenceMarkers τ :=
  if (assocGet t m.all).isSome then m.modifyCount t (· + 1)
  else if m.inline.any Option.isNone then
    { m with inline := modifyFirst Option.isNone (fun _ => some (t, 1)) m.inline }
  else { m with overflow := m.overflow ++ [(t, 1)] }

/-- The entry is removed from the list it is in. -/
def remove (t : τ) : PresenceMarkers τ :=
  if m.inline.any (isTier t) then
    { m with inline := modifyFirst (isTier t) (fun _ => none) m.inline }
  else { m with overflow := swapRemove m.overflow (m.overflow.findIdx fun e => e.1 = t) }

/-- Whether there was a count, and what is left of it. -/
def decrement (t : τ) : Bool × PresenceMarkers τ :=
  match assocGet t m.all with
  | none => (false, m)
  | some n =>
    let m := m.modifyCount t (· - 1)
    if 0 < n - 1 then (true, m) else (true, m.remove t)

end PresenceMarkers

end Kvbm
