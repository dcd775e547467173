/-
A backend chosen at run time.

The store holds a boxed `dyn InactiveIndex`: one of the four backends, behind the
trait.  Two implementations of the trait make a third, which is whichever of the two
it was built from; the boxed backend is that, twice over.
-/
import Kvbm.Index.Lru
import Kvbm.Index.HashMap
import Kvbm.Index.Lineage.Hold

namespace Kvbm

open InactiveIndex

/-- The result of a method of one implementation, as one of the boxed index. -/
def boxed {α ι γ : Type} (box : α → ι) : Option (γ × α) → Option (γ × ι) :=
  Option.map (Prod.map id box)

instance {α β : Type} [InactiveIndex α] [InactiveIndex β] : InactiveIndex (α ⊕ β) where
  findMatches
    | .inl s, hs => boxed .inl (findMatches s hs)
    | .inr s, hs => boxed .inr (findMatches s hs)
  scanMatches
    | .inl s, hs => boxed .inl (scanMatches s hs)
    | .inr s, hs => boxed .inr (scanMatches s hs)
  allocate
    | .inl s, n => boxed .inl (allocate s n)
    | .inr s, n => boxed .inr (allocate s n)
  insert
    | .inl s, h, b => (insert s h b).map .inl
    | .inr s, h, b => (insert s h b).map .inr
  rebind
    | .inl s, h, src, dst => (rebind s h src dst).map id .inl
    | .inr s, h, src, dst => (rebind s h src dst).map id .inr
  len
    | .inl s => len s
    | .inr s => len s
  has
    | .inl s, h => has s h
    | .inr s, h => has s h
  take
    | .inl s, h, b => boxed .inl (take s h b)
    | .inr s, h, b => boxed .inr (take s h b)
  growCapacity
    | .inl s, n => .inl (growCapacity s n)
    | .inr s, n => .inr (growCapacity s n)
  findMatch
    | .inl s, h => boxed .inl (findMatch s h)
    | .inr s, h => boxed .inr (findMatch s h)
  takeWithDescendants
    | .inl s, h, b => boxed .inl (takeWithDescendants s h b)
    | .inr s, h, b => boxed .inr (takeWithDescendants s h b)
  takeCompleteLineage
    | .inl s, h, b => boxed .inl (takeCompleteLineage s h b)
    | .inr s, h, b => boxed .inr (takeCompleteLineage s h b)
  completeLineage
    | .inl s, h, b => completeLineage s h b
    | .inr s, h, b => completeLineage s h b
  preflightExactReclaim
    | .inl s, victims => preflightExactReclaim s victims
    | .inr s, victims => preflightExactReclaim s victims
  poison
    | .inl s, h => (poison s h).map .inl
    | .inr s, h => (poison s h).map .inr
  allocateAll
    | .inl s => boxed .inl (allocateAll s)
    | .inr s => boxed .inr (allocateAll s)

/-- `Box<dyn InactiveIndex>`. -/
abbrev Backend (C : Type) := (HashMapBackend ⊕ LruBackend C) ⊕ (MultiLruBackend C ⊕ LineageBackend)

inductive LineageEviction
  | tick
  | fifo
  deriving DecidableEq, Repr

/-- The configured backend, with the shared objects it is built from. -/
inductive InactiveBackendConfig
  | hashMap (drainOrder : DrainOrder)
  | lru
  | multiLru (thresholds : Nat × Nat × Nat) (tracker : Answers Nat Nat)
  | lineage (eviction : LineageEviction)
  | valuedLineage (sketch : Option (Answers Nat Nat))
      (oracle : Option (Answers SequenceHash (Option Nat))) (params : ScorerParams)

def lineageLeafPolicy : LineageEviction → LeafPolicy
  | .tick => .tick .new
  | .fifo => .fifo .new

variable {C : Type} [LruCache C]

/-- The backend part of `BlockManagerConfigBuilder::build`. -/
def InactiveBackendConfig.build (blockCount : Nat) :
    InactiveBackendConfig → Except ThresholdError (Backend C)
  | .hashMap drainOrder => .ok (.inl (.inl (.new drainOrder)))
  | .lru => .ok (.inl (.inr (.new blockCount)))
  | .multiLru thresholds tracker =>
    (MultiLruBackend.newWithThresholds blockCount thresholds tracker).map fun s => .inr (.inl s)
  | .lineage eviction => .ok (.inr (.inr (.withPolicy (lineageLeafPolicy eviction))))
  | .valuedLineage sketch oracle params =>
    .ok (.inr (.inr (.withPolicy (.valued (.new sketch oracle params)))))

end Kvbm
