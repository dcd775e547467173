/-
In which order the lineage backend gives up its leaves.

The backend tells the policy when a slot becomes a real node, when a real node
becomes a leaf, when a leaf gains a child and when a node leaves, and asks it for
the next victim.  There are three policies: a doubly linked list in the order in
which nodes became leaves, a queue by the tick at which a node was inserted, and a
score of which the smallest of a few sampled leaves is taken.

A vector that is grown on demand and holds `None` where nothing was written is a
function to `Option` here.  A hook that unwraps such an entry returns `none` where
there is nothing to unwrap.
-/
import Kvbm.Index.Basic
import Kvbm.Lib.DList
import Kvbm.Lib.Dense
import Mathlib.Data.Prod.Lex
import Mathlib.Data.Finset.Max
import Mathlib.Data.List.Sort
import Mathlib.Algebra.Order.Ring.Rat

namespace Kvbm

open Function

/-! ### First in, first out -/

/-- `FifoPolicy`: a doubly linked list through the leaf slots. -/
structure FifoPolicy where
  links : Nat → Option Lib.Link
  head : Option Nat
  tail : Option Nat

namespace FifoPolicy

def new : FifoPolicy := ⟨fun _ => none, none, none⟩

variable (links : Nat → Option Lib.Link)

/-- Write the `next` link of a slot that is in the list. -/
def setNext (t : Nat) (next : Option Nat) : Option (Nat → Option Lib.Link) :=
  (links t).map fun k => update links t (some { k with next := next })

/-- Write the `prev` link of a slot that is in the list. -/
def setPrev (t : Nat) (prev : Option Nat) : Option (Nat → Option Lib.Link) :=
  (links t).map fun k => update links t (some { k with prev := prev })

variable (p : FifoPolicy)

def onLeafAdded (idx : Nat) : Option FifoPolicy :=
  let links := update p.links idx (some ⟨p.tail, none⟩)
  match p.tail with
  | some t => (setNext links t (some idx)).map fun links => ⟨links, p.head, some idx⟩
  | none => some ⟨links, some idx, some idx⟩

/-- The slot before the one taken out points past it. -/
def closePrev (link : Lib.Link) : Option FifoPolicy :=
  match link.prev with
  | some q => (setNext p.links q link.next).map fun links => { p with links := links }
  | none => some { p with head := link.next }

/-- So does the slot behind it. -/
def closeNext (link : Lib.Link) : Option FifoPolicy :=
  match link.next with
  | some n => (setPrev p.links n link.prev).map fun links => { p with links := links }
  | none => some { p with tail := link.prev }

def unlink (idx : Nat) : Option FifoPolicy :=
  match p.links idx with
  | none => some p
  | some link =>
    (closePrev { p with links := update p.links idx none } link).bind fun p =>
      p.closeNext link

end FifoPolicy

/-! ### By insertion tick -/

/-- `TickPolicy`: the tick of every real node, and the leaves by tick and slot. -/
structure TickPolicy where
  ticks : Nat → Option Nat
  queue : Finset (Nat ×ₗ Nat)
  nextTick : Nat

namespace TickPolicy

def new : TickPolicy := ⟨fun _ => none, ∅, 0⟩

variable (p : TickPolicy)

def onNodeInserted (idx : Nat) : TickPolicy :=
  { p with ticks := update p.ticks idx (some p.nextTick), nextTick := p.nextTick + 1 }

def onLeafAdded (idx : Nat) : Option TickPolicy :=
  (p.ticks idx).map fun tick => { p with queue := insert (toLex (tick, idx)) p.queue }

def onLeafDemoted (idx : Nat) : TickPolicy :=
  match p.ticks idx with
  | none => p
  | some tick => { p with queue := p.queue.erase (toLex (tick, idx)) }

def onNodeRemoved (idx : Nat) : TickPolicy :=
  match p.ticks idx with
  | none => p
  | some tick =>
    { p with
      ticks := update p.ticks idx none
      queue := p.queue.erase (toLex (tick, idx)) }

def nextVictim : Option Nat :=
  if h : p.queue.Nonempty then some (ofLex (p.queue.min' h)).2 else none

end TickPolicy

/-! ### By value -/

/-- `LeafState`: what the valued policy keeps of a real node. -/
structure LeafState where
  seqHash : SequenceHash
  lastTouch : Nat
  poisoned : Bool
  denseIdx : Option Nat
  poisonIdx : Option Nat

/-- The scorer's constants.  `score f age phi position` is the value of a leaf seen `f` times,
touched `age` ticks ago, whose hash had at most `phi` children and stands at `position`; the
constants of the formula are inside it.  The builder admits only constants for which the
floating-point formula gives a finite number, so the value is a rational number. -/
structure ScorerParams where
  kSample : Nat
  seed : UInt64
  score : Nat → Nat → Option Nat → Nat → ℚ

/-- `ValuedPolicy`.  A question to the sketch or to the oracle takes the next answer. -/
structure ValuedPolicy where
  slots : Nat → Option LeafState
  leafDense : List Nat
  poisonDense : List Nat
  now : Nat
  rng : UInt64
  sketch : Option (Answers Nat Nat)
  oracle : Option (Answers SequenceHash (Option Nat))
  params : ScorerParams

namespace ValuedPolicy

def new (sketch : Option (Answers Nat Nat)) (oracle : Option (Answers SequenceHash (Option Nat)))
    (params : ScorerParams) : ValuedPolicy :=
  { slots := fun _ => none, leafDense := [], poisonDense := [], now := 0
    rng := if params.seed = 0 then 0x9E3779B97F4A7C15 else params.seed
    sketch := sketch, oracle := oracle, params := params }

variable (p : ValuedPolicy)

def nextRand : UInt64 × ValuedPolicy :=
  let x := p.rng
  let x := x ^^^ (x >>> 12)
  let x := x ^^^ (x <<< 25)
  let x := x ^^^ (x >>> 27)
  (x * 0x2545F4914F6CDD1D, { p with rng := x })

/-- Write the state of a slot. -/
def setSlot (idx : Nat) (st : Option LeafState) : ValuedPolicy :=
  { p with slots := update p.slots idx st }

def onNodeInserted (idx : Nat) (h : SequenceHash) : ValuedPolicy :=
  p.setSlot idx (some
    { seqHash := h, lastTouch := p.now, poisoned := false, denseIdx := none, poisonIdx := none })

/-- A field of `LeafState` that says where in a dense vector a slot stands. -/
structure PlaceField where
  get : LeafState → Option Nat
  set : LeafState → Option Nat → LeafState

def denseField : PlaceField := ⟨LeafState.denseIdx, fun st k => { st with denseIdx := k }⟩

def poisonField : PlaceField := ⟨LeafState.poisonIdx, fun st k => { st with poisonIdx := k }⟩

/-- Correct the place of the slot that moved to `pos`. -/
def fixPlace (f : PlaceField) (slots : Nat → Option LeafState) (dense : List Nat) (pos : Nat) :
    Nat → Option LeafState :=
  match dense[pos]? with
  | none => slots
  | some moved => update slots moved ((slots moved).map fun st => f.set st (some pos))

/-- Take `idx` out of a dense vector by `swap_remove`, which stops the program when the place
is outside the vector.  Nothing happens to a slot that is not in it. -/
def unlinkPlace (f : PlaceField) (slots : Nat → Option LeafState) (dense : List Nat) (idx : Nat) :
    Option ((Nat → Option LeafState) × List Nat) :=
  match (slots idx).bind f.get with
  | none => some (slots, dense)
  | some pos =>
    if pos < dense.length then
      let last := dense.length - 1
      let slots := update slots idx ((slots idx).map fun st => f.set st none)
      let dense := Lib.swapRemove dense pos
      some (if pos ≠ last then fixPlace f slots dense pos else slots, dense)
    else none

def unlinkLeaf (idx : Nat) : Option ValuedPolicy :=
  (unlinkPlace denseField p.slots p.leafDense idx).map fun r =>
    { p with slots := r.1, leafDense := r.2 }

def unlinkPoison (idx : Nat) : Option ValuedPolicy :=
  (unlinkPlace poisonField p.slots p.poisonDense idx).map fun r =>
    { p with slots := r.1, poisonDense := r.2 }

def addPoison (idx : Nat) : ValuedPolicy :=
  match p.slots idx with
  | none => p
  | some st =>
    { p with
      slots := update p.slots idx (some { st with poisonIdx := some p.poisonDense.length })
      poisonDense := p.poisonDense ++ [idx] }

def onLeafAdded (idx : Nat) : Option ValuedPolicy :=
  (p.slots idx).map fun st =>
    let q : ValuedPolicy :=
      { p with
        now := p.now + 1
        slots := update p.slots idx
          (some { st with lastTouch := p.now + 1, denseIdx := some p.leafDense.length })
        leafDense := p.leafDense ++ [idx] }
    if st.poisoned then q.addPoison idx else q

def onLeafDemoted (idx : Nat) : Option ValuedPolicy :=
  (p.unlinkLeaf idx).bind fun p => p.unlinkPoison idx

def onNodeRemoved (idx : Nat) : Option ValuedPolicy :=
  (p.unlinkLeaf idx).bind fun p => (p.unlinkPoison idx).map fun p => p.setSlot idx none

/-- `f64::INFINITY`, which no leaf is chosen for, is `⊤`. -/
def scoreSlot (idx : Nat) : WithTop ℚ × ValuedPolicy :=
  match p.slots idx with
  | none => (⊤, p)
  | some st =>
    let (f, sketch) :=
      match p.sketch with
      | none => (0, none)
      | some s => ((s.next st.seqHash.asU128).1, some (s.next st.seqHash.asU128).2)
    let (phi, oracle) :=
      match p.oracle with
      | none => (none, none)
      | some o => ((o.next st.seqHash).1, some (o.next st.seqHash).2)
    (↑(p.params.score f (p.now - st.lastTouch) phi st.seqHash.position),
      { p with sketch := sketch, oracle := oracle })

/-- Keep the smaller of the best leaf so far and this one. -/
def consider (best : Option Nat × WithTop ℚ) (slot : Nat) :
    (Option Nat × WithTop ℚ) × ValuedPolicy :=
  let (s, p) := p.scoreSlot slot
  (if s < best.2 then (some slot, s) else best, p)

/-- Score the given leaves in order. -/
def exactScan : List Nat → ValuedPolicy → Option Nat × WithTop ℚ →
    (Option Nat × WithTop ℚ) × ValuedPolicy
  | [], p, best => (best, p)
  | slot :: rest, p, best =>
    let (best, p) := p.consider best slot
    exactScan rest p best

/-- Score `k` leaves drawn with replacement. -/
def sampleScan : Nat → ValuedPolicy → Option Nat × WithTop ℚ →
    (Option Nat × WithTop ℚ) × ValuedPolicy
  | 0, p, best => (best, p)
  | k + 1, p, best =>
    let (r, p) := p.nextRand
    match p.leafDense[r.toNat % p.leafDense.length]? with
    | none => (best, p)
    | some slot =>
      let (best, p) := p.consider best slot
      sampleScan k p best

def nextVictim : Option Nat × ValuedPolicy :=
  match p.poisonDense.head? with
  | some idx => (some idx, p)
  | none =>
    let n := p.leafDense.length
    if n = 0 then (none, p)
    else
      let k := min (max p.params.kSample 1) n
      let (best, p) := if k = n then exactScan p.leafDense p (none, ⊤) else sampleScan k p (none, ⊤)
      (best.1, p)

def markPoisoned (idx : Nat) : ValuedPolicy :=
  match p.slots idx with
  | none => p
  | some st =>
    if st.poisoned then p
    else
      let q := p.setSlot idx (some { st with poisoned := true })
      if st.denseIdx.isSome then q.addPoison idx else q

def maxFanoutOf (h : SequenceHash) : Option Nat × ValuedPolicy :=
  match p.oracle with
  | none => (none, p)
  | some o => ((o.next h).1, { p with oracle := some (o.next h).2 })

/-- So many leaves are scored in one peek at most. -/
def maxPeekScan : Nat := 4096

/-- One turn of the scan of a peek.  The heap is the ascending list of its entries. -/
def peekLeaf (remaining : Nat) (r : List (WithTop ℚ ×ₗ Nat) × ValuedPolicy) (idx : Nat) :
    List (WithTop ℚ ×ₗ Nat) × ValuedPolicy :=
  -- a poisoned leaf is listed already
  if ((r.2.slots idx).bind LeafState.poisonIdx).isSome then r
  else
    let (score, p) := r.2.scoreSlot idx
    let heap := r.1.orderedInsert (· ≤ ·) (toLex (score, idx))
    (if heap.length > remaining then heap.dropLast else heap, p)

def peekSlots (max : Nat) : List Nat × ValuedPolicy :=
  if max = 0 then ([], p)
  else
    let out := p.poisonDense.take max
    let remaining := max - out.length
    if remaining = 0 then (out, p)
    else
      let (heap, p) := (p.leafDense.take maxPeekScan).foldl (peekLeaf remaining) ([], p)
      (out ++ heap.map fun e => (ofLex e).2, p)

/-- What the backend tells the policy, and asks of it. -/
inductive Hook
  | nodeInserted (idx : Nat) (h : SequenceHash)
  | leafAdded (idx : Nat)
  | leafDemoted (idx : Nat)
  | nodeRemoved (idx : Nat)
  | markPoisoned (idx : Nat)
  | nextVictim
  | peekSlots (max : Nat)

/-- A policy, with the nodes and the leaves that it has been told of. -/
structure Told where
  policy : ValuedPolicy
  nodes : Set Nat
  leaves : Set Nat

/-- What the graph can say: a slot becomes a node, and a node a leaf, only if it is none. -/
def Told.Admits (s : Told) : Hook → Prop
  | .nodeInserted idx _ => idx ∉ s.nodes
  | .leafAdded idx => idx ∈ s.nodes ∧ idx ∉ s.leaves
  | _ => True

def Told.step (s : Told) : Hook → Option Told
  | .nodeInserted idx h => some ⟨s.policy.onNodeInserted idx h, insert idx s.nodes, s.leaves⟩
  | .leafAdded idx => (s.policy.onLeafAdded idx).map (⟨·, s.nodes, insert idx s.leaves⟩)
  | .leafDemoted idx => (s.policy.onLeafDemoted idx).map (⟨·, s.nodes, s.leaves \ {idx}⟩)
  | .nodeRemoved idx =>
    (s.policy.onNodeRemoved idx).map (⟨·, s.nodes \ {idx}, s.leaves \ {idx}⟩)
  | .markPoisoned idx => some { s with policy := s.policy.markPoisoned idx }
  | .nextVictim => some { s with policy := s.policy.nextVictim.2 }
  | .peekSlots max => some { s with policy := (s.policy.peekSlots max).2 }

end ValuedPolicy

/-! ### The three policies as one -/

inductive LeafPolicy
  | fifo (p : FifoPolicy)
  | tick (p : TickPolicy)
  | valued (p : ValuedPolicy)

namespace LeafPolicy

def onNodeInserted : LeafPolicy → Nat → SequenceHash → LeafPolicy
  | .fifo p, _, _ => .fifo p
  | .tick p, idx, _ => .tick (p.onNodeInserted idx)
  | .valued p, idx, h => .valued (p.onNodeInserted idx h)

def onLeafAdded : LeafPolicy → Nat → Option LeafPolicy
  | .fifo p, idx => (p.onLeafAdded idx).map .fifo
  | .tick p, idx => (p.onLeafAdded idx).map .tick
  | .valued p, idx => (p.onLeafAdded idx).map .valued

def onLeafDemoted : LeafPolicy → Nat → Option LeafPolicy
  | .fifo p, idx => (p.unlink idx).map .fifo
  | .tick p, idx => some (.tick (p.onLeafDemoted idx))
  | .valued p, idx => (p.onLeafDemoted idx).map .valued

def onNodeRemoved : LeafPolicy → Nat → Option LeafPolicy
  | .fifo p, idx => (p.unlink idx).map .fifo
  | .tick p, idx => some (.tick (p.onNodeRemoved idx))
  | .valued p, idx => (p.onNodeRemoved idx).map .valued

def nextVictim : LeafPolicy → Option Nat × LeafPolicy
  | .fifo p => (p.head, .fifo p)
  | .tick p => (p.nextVictim, .tick p)
  | .valued p => (p.nextVictim.1, .valued p.nextVictim.2)

def markPoisoned : LeafPolicy → Nat → LeafPolicy
  | .valued p, idx => .valued (p.markPoisoned idx)
  | p, _ => p

def maxFanoutOf : LeafPolicy → SequenceHash → Option Nat × LeafPolicy
  | .valued p, h => ((p.maxFanoutOf h).1, .valued (p.maxFanoutOf h).2)
  | p, _ => (none, p)

end LeafPolicy

end Kvbm
