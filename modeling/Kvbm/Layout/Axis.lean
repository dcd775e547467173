/-
Labelled axes of a KV tensor, and slices of them.

Every axis of a tensor carries a label.  A slice restricts the coordinates of one axis; it
changes neither the memory nor the strides.
-/
import Mathlib.Algebra.GroupWithZero.Nat
import Mathlib.Data.Nat.Basic

namespace Kvbm

/-- What an axis of a KV tensor counts. -/
inductive KvDim
  | block
  | layer
  | outer
  | page
  | headCount
  | headSize
  | payload
  deriving DecidableEq, Repr

/-- `Range<usize>`: the numbers from `start` up to, but not with, `stop`. -/
structure Range where
  start : Nat
  stop : Nat
  deriving DecidableEq, Repr

namespace Range

def len (r : Range) : Nat := r.stop - r.start

def contains (r : Range) (i : Nat) : Bool := r.start ≤ i ∧ i < r.stop

end Range

/-- The overlap of two slices of an axis, in the coordinates of each side. -/
structure AxisIntersection where
  dim : KvDim
  srcLocal : Range
  dstLocal : Range
  deriving DecidableEq, Repr

end Kvbm
