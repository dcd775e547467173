/-
The lineage backend: a graph of blocks that is only evicted from its leaves.

Every node sits in one arena and is found by the position and the fragment of its
hash.  A node is a real block, or a ghost: a parent that a child referred to before
it was there.  Children hang below their parent in a list through `nextSibling`,
and freed slots hang in a list through the same field.

A loop of the source is bounded by a number of turns here.  It returns `none` when
the turns run out, which cannot happen in a graph that is well formed, and `none`
where the source stops the program.
-/
import Kvbm.Index.Lineage.Policy

namespace Kvbm

open Function

inductive SlotData
  | real (blockId : BlockId) (seqHash : SequenceHash)
  | ghost
  | free
  deriving DecidableEq, Repr

/-- The block and the hash of a real node. -/
def SlotData.entry? : SlotData → Option Entry
  | .real id h => some (h, id)
  | _ => none

structure LineageSlot where
  data : SlotData
  position : Nat
  fragment : Nat
  parent : Option Nat
  firstChild : Option Nat
  nextSibling : Option Nat
  deriving DecidableEq, Repr

def LineageSlot.isLeaf (s : LineageSlot) : Bool := s.firstChild.isNone

structure LineageBackend where
  slots : Nat → LineageSlot
  /-- Number of slots of the arena. -/
  size : Nat
  freeHead : Option Nat
  index : Nat × Nat → Option Nat
  leaves : LeafPolicy
  /-- Number of real nodes. -/
  count : Nat

namespace LineageBackend

def withPolicy (leaves : LeafPolicy) : LineageBackend :=
  { slots := fun _ => ⟨.free, 0, 0, none, none, none⟩
    size := 0, freeHead := none, index := fun _ => none, leaves := leaves, count := 0 }

variable (b : LineageBackend)

def modify (i : Nat) (f : LineageSlot → LineageSlot) : LineageBackend :=
  { b with slots := update b.slots i (f (b.slots i)) }

/-! ### Slots of the arena -/

def allocSlot (slot : LineageSlot) : Nat × LineageBackend :=
  match b.freeHead with
  | some idx =>
    (idx, { b with
      freeHead := (b.slots idx).nextSibling
      slots := update b.slots idx slot })
  | none =>
    (b.size, { b with slots := update b.slots b.size slot, size := b.size + 1 })

def freeSlot (idx : Nat) : LineageBackend :=
  { b.modify idx (fun s => { s with data := .free, nextSibling := b.freeHead }) with
    freeHead := some idx }

/-! ### Lists of children -/

/-- The cell whose link is `child`, looked for from `cur` on. -/
def findPred (next : Nat → Option Nat) (child : Nat) : Nat → Option Nat → Option (Option Nat)
  | _, none => some none
  | 0, some _ => none
  | fuel + 1, some c =>
    if next c = some child then some (some c) else findPred next child fuel (next c)

def detachChild (parent child : Nat) : Option LineageBackend :=
  let head := (b.slots parent).firstChild
  let behind := (b.slots child).nextSibling
  if head = some child then some (b.modify parent fun s => { s with firstChild := behind })
  else
    (findPred (fun i => (b.slots i).nextSibling) child b.size head).map fun r =>
      match r with
      | some c => b.modify c fun s => { s with nextSibling := behind }
      | none => b

/-- The cells met from `a` on. -/
def walk (next : Nat → Option Nat) : Nat → Option Nat → Option (List Nat)
  | _, none => some []
  | 0, some _ => none
  | fuel + 1, some i => (walk next fuel (next i)).map fun l => i :: l

def childList (idx : Nat) : Option (List Nat) :=
  walk (fun i => (b.slots i).nextSibling) b.size (b.slots idx).firstChild

/-! ### Insertion -/

/-- Turn the ghost at `idx` into a real node. -/
def promote (idx : Nat) (h : SequenceHash) (id : BlockId) : LineageBackend :=
  { b.modify idx (fun s => { s with data := .real id h }) with
    count := b.count + 1
    leaves := b.leaves.onNodeInserted idx h }

variable (h : SequenceHash)

/-- Make a real node in a slot of its own. -/
def createReal (id : BlockId) : Nat × LineageBackend :=
  let (idx, b) := b.allocSlot ⟨.real id h, h.position, h.fragment, none, none, none⟩
  (idx, { b with
    index := update b.index h.key (some idx)
    count := b.count + 1
    leaves := b.leaves.onNodeInserted idx h })

def findOrCreate (id : BlockId) : Option (Nat × LineageBackend) :=
  match b.index h.key with
  | some idx =>
    match (b.slots idx).data with
    | .ghost => some (idx, b.promote idx h id)
    -- a real node there is a duplicate insertion or a collision of keys
    | .real _ _ => none
    | .free => none
  | none => some (b.createReal h id)

/-- The node under the key of the parent, a new ghost if there is none. -/
def parentNode : Nat × LineageBackend :=
  match b.index h.parentKey with
  | some pidx => (pidx, b)
  | none =>
    let (pidx, b) := b.allocSlot ⟨.ghost, h.position - 1, h.parentFragment, none, none, none⟩
    (pidx, { b with index := update b.index h.parentKey (some pidx) })

/-- Put a node in front of the children of its parent. -/
def linkChild (pidx idx : Nat) : LineageBackend :=
  let first := (b.slots pidx).firstChild
  let b := b.modify idx fun s => { s with parent := some pidx, nextSibling := first }
  b.modify pidx fun s => { s with firstChild := some idx }

/-- A real parent that was a leaf no longer is one. -/
def demoteParent (pidx : Nat) (wasLeaf : Bool) : Option LineageBackend :=
  match wasLeaf, (b.slots pidx).data with
  | true, .real _ _ => (b.leaves.onLeafDemoted pidx).map fun leaves => { b with leaves := leaves }
  | _, _ => some b

def linkParent (idx : Nat) : Option LineageBackend :=
  if 0 < h.position ∧ (b.slots idx).parent = none then
    let (pidx, b) := b.parentNode h
    (b.linkChild pidx idx).demoteParent pidx (b.slots pidx).isLeaf
  else some b

def enterOrder (idx : Nat) : Option LineageBackend :=
  if (b.slots idx).isLeaf then
    (b.leaves.onLeafAdded idx).map fun leaves => { b with leaves := leaves }
  else some b

def insertInner (id : BlockId) : Option LineageBackend := do
  let (idx, b) ← b.findOrCreate h id
  let b ← b.linkParent h idx
  b.enterOrder idx

/-! ### Removal -/

def detachFromParent (cur : Nat) : Option LineageBackend :=
  match (b.slots cur).parent with
  | some p => b.detachChild p cur
  | none => some b

/-- Take a childless node out of the graph altogether. -/
def unhook (cur : Nat) : Option LineageBackend :=
  let key := ((b.slots cur).position, (b.slots cur).fragment)
  (b.detachFromParent cur).map fun b =>
    freeSlot { b with index := update b.index key none } cur

/-- Prune childless ghosts up the parent chain. -/
def pruneLoop : Nat → LineageBackend → Nat → Option LineageBackend
  | 0, _, _ => none
  | fuel + 1, b, cur =>
    if (b.slots cur).firstChild.isSome then some b
    else
      let parent := (b.slots cur).parent
      (b.unhook cur).bind fun b =>
        match parent with
        | none => some b
        | some p =>
          if (b.slots p).firstChild.isSome then some b
          else
            match (b.slots p).data with
            | .real _ _ =>
              (b.leaves.onLeafAdded p).map fun leaves => { b with leaves := leaves }
            | .ghost => pruneLoop fuel b p
            | .free => none

def removeNodeAt (idx : Nat) : Option (Entry × LineageBackend) :=
  match (b.slots idx).data with
  | .real id h =>
    let b := b.modify idx fun s => { s with data := .ghost }
    (b.leaves.onNodeRemoved idx).bind fun leaves =>
      (pruneLoop ((b.slots idx).position + 1)
        { b with count := b.count - 1, leaves := leaves } idx).map fun b => ((h, id), b)
  | _ => none

/-- Remove the real nodes at the given slots in order. -/
def removeNodes : LineageBackend → List Nat → Option (List Entry × LineageBackend)
  | b, [] => some ([], b)
  | b, idx :: rest =>
    (b.removeNodeAt idx).bind fun (e, b) =>
      (removeNodes b rest).map fun (es, b) => (e :: es, b)

/-- The slot of the real node stored under exactly this hash. -/
def hashIndex : Option Nat :=
  (b.index h.key).bind fun idx =>
    match (b.slots idx).data with
    | .real _ stored => if stored = h then some idx else none
    | _ => none

def removeByHash : Option (Option Entry × LineageBackend) :=
  match b.hashIndex h with
  | some idx => (b.removeNodeAt idx).map fun (e, b) => (some e, b)
  | none => some (none, b)

/-- The slot of the real node stored under this hash for this block. -/
def realIndex (id : BlockId) : Option Nat :=
  (b.index h.key).bind fun idx =>
    match (b.slots idx).data with
    | .real stored hash => if hash = h ∧ stored = id then some idx else none
    | _ => none

/-- One turn of the loop in `allocate`. -/
def victim : Option (Option Entry × LineageBackend) :=
  let (v, leaves) := b.leaves.nextVictim
  let b := { b with leaves := leaves }
  match v with
  | some idx => (b.removeNodeAt idx).map fun (e, b) => (some e, b)
  | none => some (none, b)

def rebind (src dst : BlockId) : Bool × LineageBackend :=
  match b.realIndex h src with
  | none => (false, b)
  | some idx => (true, b.modify idx fun s => { s with data := .real dst h })

def take (id : BlockId) : Option (Bool × LineageBackend) :=
  match b.realIndex h id with
  | some _ => (b.removeByHash h).map fun (r, b) => (r.isSome, b)
  | none => some (false, b)

def isReal (idx : Nat) : Bool := (b.slots idx).data.entry?.isSome

/-- The real nodes below the slots on the stack, children before their parent. -/
def descend (b : LineageBackend) : Nat → List (Nat × Bool) → List Nat → Option (List Nat)
  | _, [], order => some order
  | 0, _ :: _, _ => none
  | fuel + 1, (idx, true) :: stack, order =>
    descend b fuel stack (if b.isReal idx then order ++ [idx] else order)
  | fuel + 1, (idx, false) :: stack, order =>
    (b.childList idx).bind fun children =>
      descend b fuel (children.map (·, false) ++ (idx, true) :: stack) order

def takeWithDescendants (id : BlockId) : Option (List Entry × LineageBackend) :=
  match b.realIndex h id with
  | none => some ([], b)
  | some root => (b.descend (2 * b.size) [(root, false)] []).bind fun order => b.removeNodes order

/-! ### Poison -/

def hasTwoChildren (idx : Nat) : Bool :=
  match (b.slots idx).firstChild with
  | some first => (b.slots first).nextSibling.isSome
  | none => false

/-- A node with two children now, or whose hash has had two. -/
def isBranchPoint (idx : Nat) : Bool × LineageBackend :=
  if b.hasTwoChildren idx then (true, b)
  else
    match (b.slots idx).data with
    | .real _ h =>
      let (fanout, leaves) := b.leaves.maxFanoutOf h
      (fanout.any (2 ≤ ·), { b with leaves := leaves })
    | _ => (false, b)

def poisonLoop : Nat → LineageBackend → Nat → Option LineageBackend
  | 0, _, _ => none
  | fuel + 1, b, cur =>
    if (b.slots cur).data = .ghost then some b
    else
      let (branch, b) := b.isBranchPoint cur
      if branch then some b
      else
        let b := { b with leaves := b.leaves.markPoisoned cur }
        match (b.slots cur).parent with
        | some parent => poisonLoop fuel b parent
        | none => some b

def poisonSuffix : Option LineageBackend :=
  match b.hashIndex h with
  | none => some b
  | some start => poisonLoop ((b.slots start).position + 1) b start

end LineageBackend

end Kvbm
