/-
The hash map backend.

A hash map answers whether a hash is resident, and a reuse policy decides in which
order the resident blocks are given up.  The only policy is first in, first out: it
numbers the blocks as they come in and gives up the smallest number.

The hash map is the list of its pairs.  The order in which `drain` yields them is
not specified, so the backend carries one, of which nothing is known but that it
yields every pair once.
-/
import Kvbm.Index.Basic
import Kvbm.Lib.OrdMap

namespace Kvbm

open Function

/-! ### First in, first out -/

/-- `FifoReusePolicy`: a number for every block, and the blocks by their number. -/
structure FifoReusePolicy where
  keys : BlockId → Option Nat
  blocks : List (Nat × Entry)
  nextSeq : Nat

namespace FifoReusePolicy

def new : FifoReusePolicy := ⟨fun _ => none, [], 0⟩

variable (p : FifoReusePolicy)

def insert (b : Entry) : Option FifoReusePolicy :=
  if (p.keys b.2).isSome then none
  else some ⟨update p.keys b.2 (some p.nextSeq), Lib.ordInsert p.nextSeq b p.blocks, p.nextSeq + 1⟩

/-- `false` stands for the error `BlockNotFound`. -/
def remove (id : BlockId) : Option (Bool × FifoReusePolicy) :=
  match p.keys id with
  | none => some (false, p)
  | some k =>
    if (Lib.ordGet k p.blocks).isSome then
      some (true, { p with
        keys := update p.keys id none, blocks := Lib.ordRemove k p.blocks })
    else none

def rebind (h : SequenceHash) (src dst : BlockId) : Bool × FifoReusePolicy :=
  match p.keys src with
  | none => (false, p)
  | some k =>
    if (p.keys dst).isSome ∨ Lib.ordGet k p.blocks ≠ some (h, src) then (false, p)
    else (true, { p with
      keys := update (update p.keys src none) dst (some k)
      blocks := Lib.ordSet k (h, dst) p.blocks })

def nextFree : Option (Option Entry × FifoReusePolicy) :=
  match p.blocks with
  | [] => some (none, p)
  | (_, b) :: rest =>
    if (p.keys b.2).isSome then
      some (some b, { p with keys := update p.keys b.2 none, blocks := rest })
    else none

end FifoReusePolicy

/-! ### The backend -/

/-- An order in which a hash map can yield its pairs. -/
structure DrainOrder where
  order : List Entry → List Entry
  perm : ∀ l, (order l).Perm l

structure HashMapBackend where
  blocks : List Entry
  reusePolicy : FifoReusePolicy
  drainOrder : DrainOrder

namespace HashMapBackend

def new (drainOrder : DrainOrder) : HashMapBackend := ⟨[], FifoReusePolicy.new, drainOrder⟩

variable (s : HashMapBackend)

/-- `blocks.get`. -/
def get (h : SequenceHash) : Option BlockId := s.blocks.lookup h

/-- The pairs under other hashes: what `blocks.remove` leaves. -/
def without (h : SequenceHash) : List Entry := s.blocks.filter fun e => e.1 ≠ h

def findMatch (h : SequenceHash) : Option (Option Entry × HashMapBackend) :=
  match s.get h with
  | none => some (none, s)
  | some id =>
    (s.reusePolicy.remove id).map fun r =>
      (some (h, id), { s with blocks := s.without h, reusePolicy := r.2 })

-- A block the policy knows and the map does not is passed over.
def allocate : HashMapBackend → Nat → Option (List Entry × HashMapBackend)
  | s, 0 => some ([], s)
  | s, n + 1 =>
    s.reusePolicy.nextFree.bind fun r =>
      match r.1 with
      | none => some ([], { s with reusePolicy := r.2 })
      | some e =>
        if (s.get e.1).isSome then
          (allocate { s with blocks := s.without e.1, reusePolicy := r.2 } n).map fun q =>
            (e :: q.1, q.2)
        else allocate { s with reusePolicy := r.2 } n

def insert (s : HashMapBackend) (h : SequenceHash) (id : BlockId) : Option HashMapBackend :=
  (s.reusePolicy.insert (h, id)).map fun p =>
    { s with blocks := (h, id) :: s.without h, reusePolicy := p }

def rebind (s : HashMapBackend) (h : SequenceHash) (src dst : BlockId) : Bool × HashMapBackend :=
  if s.get h ≠ some src then (false, s)
  else
    match s.reusePolicy.rebind h src dst with
    | (false, _) => (false, s)
    | (true, p) => (true, { s with blocks := (h, dst) :: s.without h, reusePolicy := p })

def take (h : SequenceHash) (id : BlockId) : Option (Bool × HashMapBackend) :=
  if s.get h = some id then
    (s.reusePolicy.remove id).map fun r =>
      (true, { s with blocks := s.without h, reusePolicy := r.2 })
  else some (false, s)

/-- Ask the policy until it has nothing left. -/
def drainPolicy : Nat → FifoReusePolicy → Option FifoReusePolicy
  | 0, p => some p
  | n + 1, p =>
    p.nextFree.bind fun r =>
      match r.1 with
      | none => some r.2
      | some _ => drainPolicy n r.2

def allocateAll : Option (List Entry × HashMapBackend) :=
  (drainPolicy s.reusePolicy.blocks.length s.reusePolicy).map fun p =>
    (s.drainOrder.order s.blocks, { s with blocks := [], reusePolicy := p })

end HashMapBackend

open HashMapBackend in
instance : InactiveIndex HashMapBackend where
  findMatches := findLoop findMatch
  findMatch := findMatch
  scanMatches := scanLoop findMatch
  allocate := allocate
  insert := insert
  rebind := rebind
  len := fun s => s.blocks.length
  has := fun s h => (s.get h).isSome
  take := take
  allocateAll := allocateAll

end Kvbm
