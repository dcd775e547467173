/-
Sparse discovery of what other instances hold.

The hub's index is asked about evenly spaced hashes of what is left of a sequence.  Its answer is
the deepest of them that somebody holds, and is turned into the range to ask a holder for: up to the
next hash that was asked about, since the holder itself says how far it reaches.
-/
import Kvbm.Layout.Axis
import Mathlib.Data.List.Basic

namespace Kvbm.Remote

/-- A slice of the source has no more than `isize::MAX` elements. -/
abbrev Slice (α : Type) := { l : List α // l.length < 2 ^ 63 }

def usizeMax : Nat := 2 ^ 64 - 1

/-- The element after the next `skip`, and from there on every `n`-th. -/
def stepBy {α : Type} (n : Nat) : Nat → List α → List α
  | _, [] => []
  | 0, a :: l => a :: stepBy n (n - 1) l
  | skip + 1, _ :: l => stepBy n skip l

def maxDiscoveryHashes : Nat := 64

structure DiscoveryPlan (H : Type) where
  query : List H
  stride : Nat
  remainingStart : Nat
  remainingLen : Nat
  deriving DecidableEq, Repr

namespace DiscoveryPlan

variable {H : Type}

def new (sequenceHashes : Slice H) (remainingStart : Nat) : DiscoveryPlan H :=
  let remainingStart := min remainingStart sequenceHashes.1.length
  let remaining := sequenceHashes.1.drop remainingStart
  let stride := max ((remaining.length + (maxDiscoveryHashes - 1)) / maxDiscoveryHashes) 1
  ⟨stepBy stride 0 remaining, stride, remainingStart, remaining.length⟩

/-- The part of the sequence to ask for, when `deepest` is the answer. -/
def resolvePinTarget [DecidableEq H] (plan : DiscoveryPlan H) (deepest : H) (currentPrefix : Nat) :
    Option Range :=
  (plan.query.findIdx? (· = deepest)).bind fun queryIdx =>
    if usizeMax < (queryIdx + 1) * plan.stride then none
    else
      let pinUpper := plan.remainingStart + min ((queryIdx + 1) * plan.stride) plan.remainingLen
      let pinLower := min currentPrefix pinUpper
      if pinUpper ≤ pinLower then none else some ⟨pinLower, pinUpper⟩

end DiscoveryPlan

end Kvbm.Remote
