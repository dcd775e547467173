/-
The two backends that stand on an LRU cache.

`LruBackend` evicts what was inserted longest ago.  `MultiLruBackend` keeps four
such caches, puts a block in one by how often its hash has been seen, and evicts
from the coldest cache that is not empty.

The cache is not this crate's: it comes from the crate `lru`.  It enters as a
class, with the operations the backends call and what the documentation of the
crate says of them, as far as the backends rely on it.
-/
import Kvbm.Index.Basic

namespace Kvbm

/-- `lru::LruCache<SequenceHash, BlockId>` as it is documented.  `setAt` is a write through
`peek_mut`. -/
class LruCache (C : Type) where
  withCap : Nat → C
  /-- What is in the cache, least recently used first. -/
  entries : C → List Entry
  cap : C → Nat
  len : C → Nat
  peek : C → SequenceHash → Option BlockId
  put : C → SequenceHash → BlockId → C
  pop : C → SequenceHash → Option BlockId × C
  popLru : C → Option Entry × C
  setAt : C → SequenceHash → BlockId → C
  resize : C → Nat → C
  keysNodup : ∀ c, ((entries c).map Prod.fst).Nodup
  entries_withCap : ∀ n, entries (withCap n) = []
  cap_withCap : ∀ n, cap (withCap n) = n
  len_eq : ∀ c, len c = (entries c).length
  peek_eq : ∀ c h id, peek c h = some id ↔ (h, id) ∈ entries c
  /-- A new key goes to the most recently used end while there is room. -/
  entries_put : ∀ c h id, (∀ b, (h, b) ∉ entries c) → (entries c).length < cap c →
    entries (put c h id) = entries c ++ [(h, id)]
  cap_put : ∀ c h id, cap (put c h id) = cap c
  pop_fst : ∀ c h, (pop c h).1 = peek c h
  entries_pop : ∀ c h, entries (pop c h).2 = (entries c).filter fun e => e.1 ≠ h
  cap_pop : ∀ c h, cap (pop c h).2 = cap c
  popLru_fst : ∀ c, (popLru c).1 = (entries c).head?
  entries_popLru : ∀ c, entries (popLru c).2 = (entries c).tail
  cap_popLru : ∀ c, cap (popLru c).2 = cap c
  entries_setAt : ∀ c h id, entries (setAt c h id) =
    (entries c).map fun e => if e.1 = h then (h, id) else e
  cap_setAt : ∀ c h id, cap (setAt c h id) = cap c
  /-- Nothing is evicted when all that is there still fits. -/
  entries_resize : ∀ c n, (entries c).length ≤ n → entries (resize c n) = entries c
  cap_resize : ∀ c n, cap (resize c n) = n

variable {C : Type} [LruCache C]

/-! ### One cache -/

structure LruBackend (C : Type) where
  cache : C

namespace LruBackend

def new (capacity : Nat) : LruBackend C := ⟨LruCache.withCap capacity⟩

-- `resize` takes a `NonZeroUsize`; zero is passed over.
variable (s : LruBackend C)

def growCapacity (capacity : Nat) : LruBackend C :=
  if capacity = 0 then s else ⟨LruCache.resize s.cache capacity⟩

def findMatch (h : SequenceHash) : Option (Option Entry × LruBackend C) :=
  let r := LruCache.pop s.cache h
  some (r.1.map fun id => (h, id), ⟨r.2⟩)

/-- `pop_lru`, as one turn of the loop in `allocate`. -/
def victim : Option (Option Entry × LruBackend C) :=
  let r := LruCache.popLru s.cache
  some (r.1, ⟨r.2⟩)

-- asserts that the insertion evicts nothing
def insert (h : SequenceHash) (id : BlockId) : Option (LruBackend C) :=
  if LruCache.len s.cache < LruCache.cap s.cache then some ⟨LruCache.put s.cache h id⟩ else none

def rebind (h : SequenceHash) (src dst : BlockId) : Bool × LruBackend C :=
  match LruCache.peek s.cache h with
  | none => (false, s)
  | some id => if id ≠ src then (false, s) else (true, ⟨LruCache.setAt s.cache h dst⟩)

def take (h : SequenceHash) (id : BlockId) : Option (Bool × LruBackend C) :=
  if LruCache.peek s.cache h = some id then some (true, ⟨(LruCache.pop s.cache h).2⟩)
  else some (false, s)

end LruBackend

open LruBackend in
instance : InactiveIndex (LruBackend C) where
  growCapacity := growCapacity
  findMatches := findLoop findMatch
  findMatch := findMatch
  scanMatches := scanLoop findMatch
  allocate := fun s n => victimLoop victim n s
  insert := insert
  rebind := rebind
  len := fun s => LruCache.len s.cache
  has := fun s h => (LruCache.peek s.cache h).isSome
  take := take
  allocateAll := fun s => victimLoop victim (LruCache.len s.cache) s

/-! ### Four caches by frequency -/

structure MultiLruBackend (C : Type) where
  priorityPools : Fin 4 → C
  frequencyTracker : Answers Nat Nat
  frequencyThresholds : Nat × Nat × Nat

/-- Why the thresholds are turned down. -/
inductive ThresholdError
  | notAscending
  | aboveCounterLimit
  | coldBelowOne
  deriving DecidableEq, Repr

namespace MultiLruBackend

def newWithThresholds (blockCount : Nat) (thresholds : Nat × Nat × Nat)
    (tracker : Answers Nat Nat) : Except ThresholdError (MultiLruBackend C) :=
  if ¬ (thresholds.1 < thresholds.2.1 ∧ thresholds.2.1 < thresholds.2.2) then
    .error .notAscending
  else if thresholds.2.2 > 15 then .error .aboveCounterLimit
  else if thresholds.1 < 1 then .error .coldBelowOne
  else .ok ⟨fun _ => LruCache.withCap blockCount, tracker, thresholds⟩

variable (s : MultiLruBackend C)

def calculatePriorityLevel (h : SequenceHash) : Fin 4 × MultiLruBackend C :=
  let (frequency, tracker) := s.frequencyTracker.next h.asU128
  let level :=
    if frequency < s.frequencyThresholds.1 then 0
    else if frequency < s.frequencyThresholds.2.1 then 1
    else if frequency < s.frequencyThresholds.2.2 then 2
    else 3
  (level, { s with frequencyTracker := tracker })

def growCapacity (capacity : Nat) : MultiLruBackend C :=
  if capacity = 0 then s
  else { s with priorityPools := fun k => LruCache.resize (s.priorityPools k) capacity }

/-- Take `h` out of the first of the given pools that has it. -/
def popIn (pools : Fin 4 → C) (h : SequenceHash) : List (Fin 4) → Option BlockId × (Fin 4 → C)
  | [] => (none, pools)
  | k :: ks =>
    let r := LruCache.pop (pools k) h
    match r.1 with
    | some id => (some id, Function.update pools k r.2)
    | none => popIn (Function.update pools k r.2) h ks

/-- Take the least recently used entry of the first of the given pools that has one. -/
def popLruIn (pools : Fin 4 → C) : List (Fin 4) → Option Entry × (Fin 4 → C)
  | [] => (none, pools)
  | k :: ks =>
    let r := LruCache.popLru (pools k)
    match r.1 with
    | some e => (some e, Function.update pools k r.2)
    | none => popLruIn (Function.update pools k r.2) ks

def levels : List (Fin 4) := [0, 1, 2, 3]

def findMatch (h : SequenceHash) : Option (Option Entry × MultiLruBackend C) :=
  let r := popIn s.priorityPools h levels
  some (r.1.map fun id => (h, id), { s with priorityPools := r.2 })

def victim : Option (Option Entry × MultiLruBackend C) :=
  let r := popLruIn s.priorityPools levels
  some (r.1, { s with priorityPools := r.2 })

def insert (h : SequenceHash) (id : BlockId) : Option (MultiLruBackend C) :=
  let (level, s) := s.calculatePriorityLevel h
  some { s with priorityPools :=
    Function.update s.priorityPools level (LruCache.put (s.priorityPools level) h id) }

/-- The first pool that has `h` decides. -/
def rebindIn (pools : Fin 4 → C) (h : SequenceHash) (src dst : BlockId) :
    List (Fin 4) → Bool × (Fin 4 → C)
  | [] => (false, pools)
  | k :: ks =>
    match LruCache.peek (pools k) h with
    | some id =>
      if id ≠ src then (false, pools)
      else (true, Function.update pools k (LruCache.setAt (pools k) h dst))
    | none => rebindIn pools h src dst ks

def rebind (h : SequenceHash) (src dst : BlockId) : Bool × MultiLruBackend C :=
  let r := rebindIn s.priorityPools h src dst levels
  (r.1, { s with priorityPools := r.2 })

def takeIn (pools : Fin 4 → C) (h : SequenceHash) (id : BlockId) : List (Fin 4) → Bool × (Fin 4 → C)
  | [] => (false, pools)
  | k :: ks =>
    if LruCache.peek (pools k) h = some id then
      (true, Function.update pools k (LruCache.pop (pools k) h).2)
    else takeIn pools h id ks

def take (h : SequenceHash) (id : BlockId) : Option (Bool × MultiLruBackend C) :=
  let r := takeIn s.priorityPools h id levels
  some (r.1, { s with priorityPools := r.2 })

def len (s : MultiLruBackend C) : Nat := (levels.map fun k => LruCache.len (s.priorityPools k)).sum

end MultiLruBackend

open MultiLruBackend in
-- `allocate_all` empties the pools one after the other, which is the order of `allocate`.
instance : InactiveIndex (MultiLruBackend C) where
  growCapacity := growCapacity
  findMatches := findLoop findMatch
  findMatch := findMatch
  scanMatches := scanLoop findMatch
  allocate := fun s n => victimLoop victim n s
  insert := insert
  rebind := rebind
  len := len
  has := fun s h => levels.any fun k => (LruCache.peek (s.priorityPools k) h).isSome
  take := take
  allocateAll := fun s => victimLoop victim s.len s

end Kvbm
