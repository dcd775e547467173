/-
The store together with the owners of its registered blocks.

A registered block is owned through reference-counted `ImmutableBlockInner` objects, and
much of what the store does depends on their counts: whether a weak reference still
upgrades, whether the last reference has gone, whether the object in a slot is the one
that is being dropped.  So the state of the model is a heap of these objects beside the
store.

The last reference to an object is given up in three steps, as in the program, and
anything may happen between them: the count reaches zero; the destructor takes the store
lock and releases the slot; the fields of the object are dropped, among them the
reference of a duplicate to its primary.
-/
import Kvbm.Store.Reclaim

namespace Kvbm

open Function InactiveIndex

structure ImmutableBlockInner where
  blockId : BlockId
  seqHash : SequenceHash
  handle : BlockRegistrationHandle
  isPrimary : Bool
  /-- `_primary_keepalive`. -/
  keepalive : Option InnerId
  deriving DecidableEq, Repr, Inhabited

/-- A reservation for copying a registered block to a new slot. -/
structure RebindPlan where
  seqHash : SequenceHash
  src : BlockId
  dst : BlockId
  srcGeneration : Nat
  handle : BlockRegistrationHandle
  sourceInner : Option InnerId
  deriving DecidableEq, Repr

inductive RebindPrepareError
  | outOfRange (blockId : BlockId)
  | notInactive (blockId : BlockId)
  | notLive (blockId : BlockId)
  | noDestination
  deriving DecidableEq, Repr

inductive RebindOutcome
  | moved (seqHash : SequenceHash) (src dst : BlockId)
  | busy
  | stale
  | fenced
  deriving DecidableEq, Repr

inductive BlockDuplicationPolicy
  | allow
  | reject
  deriving DecidableEq, Repr

structure World (ι : Type) where
  store : BlockStore ι
  inners : InnerId → ImmutableBlockInner
  /-- Objects are numbered as they are created. -/
  nextInner : InnerId
  /-- References from outside: guards, pins and the results of lookups. -/
  guards : InnerId → Nat
  /-- References held by registrations that have still to mark the block present. -/
  marking : List InnerId
  /-- The destructor has been at the store, or has been defused. -/
  released : InnerId → Bool
  /-- Handles that have still to be marked absent. -/
  absents : List BlockRegistrationHandle
  plans : List RebindPlan
  holds : List (List Entry)

namespace BlockStore

variable {ι : Type} (s : BlockStore ι)

/-- The slot of a hash that becomes the canonical one. -/
def becomePrimary (id : BlockId) (h : SequenceHash) (handle : BlockRegistrationHandle)
    (i : InnerId) : BlockStore ι :=
  { s.setState id (.primary h handle i) with
    activeByHash := update s.activeByHash h (some id) }

/-- `active_by_hash.remove`. -/
def removeActive (h : SequenceHash) : BlockStore ι :=
  { s with activeByHash := update s.activeByHash h none }

/-- The slot is owned by that object. -/
def ownedBy (id : BlockId) (i : InnerId) : Bool :=
  match s.state id with
  | .primary _ _ j => j = i
  | .duplicate _ _ j => j = i
  | _ => false

def releaseReservedDestination (dst : BlockId) : BlockStore ι :=
  (s.setFlag dst s.defaultResetOnRelease).resetSlot dst

variable [InactiveIndex ι] (s : BlockStore ι)

/-- A primary without references goes to the inactive pool. -/
def eagerPrimaryToInactive (h : SequenceHash) (id : BlockId) : Option (BlockStore ι) :=
  match s.state id with
  | .primary _ handle _ => (s.enterInactiveTenure id h handle).map (·.removeActive h)
  | _ => none

/-- Where the last reference of a primary leaves its slot: the handle to be marked absent, if it
is not kept. -/
def retirePrimary (id : BlockId) (h : SequenceHash) (handle : BlockRegistrationHandle) :
    Option (Option BlockRegistrationHandle × BlockStore ι) :=
  if s.resetOnRelease id then some (some handle, (s.resetSlot id).removeActive h)
  else (s.enterInactiveTenure id h handle).map fun s => (none, s.removeActive h)

end BlockStore

namespace World

variable {ι : Type}

/-- A store that nobody has used yet. -/
def new (store : BlockStore ι) : World ι where
  store := store
  inners := fun _ => default
  nextInner := 0
  guards := fun _ => 0
  marking := []
  released := fun _ => false
  absents := []
  plans := []
  holds := []

/-! ### References -/

variable (w : World ι)

/-- References from duplicates. -/
def kept (i : InnerId) : Nat :=
  ((Finset.range w.nextInner).filter fun j => (w.inners j).keepalive = some i).card

/-- `Arc::strong_count`. -/
def strong (i : InnerId) : Nat := w.guards i + w.marking.count i + w.kept i

def addGuard (i : InnerId) : World ι := { w with guards := update w.guards i (w.guards i + 1) }

def subGuard (i : InnerId) : World ι := { w with guards := update w.guards i (w.guards i - 1) }

/-- Allocate an object; its number is `w.nextInner`. -/
def newInner (inner : ImmutableBlockInner) : World ι :=
  { w with inners := update w.inners w.nextInner inner, nextInner := w.nextInner + 1 }

/-- `take_primary_keepalive`, or the drop of the fields. -/
def clearKeepalive (i : InnerId) : World ι :=
  { w with inners := update w.inners i { w.inners i with keepalive := none } }

/-- `set_block_id`. -/
def setBlockId (i : InnerId) (id : BlockId) : World ι :=
  { w with inners := update w.inners i { w.inners i with blockId := id } }

def setReleased (i : InnerId) : World ι := { w with released := update w.released i true }

/-- Handles to be marked absent once the store lock is free. -/
def markLater (handles : List BlockRegistrationHandle) : World ι :=
  { w with absents := w.absents ++ handles }

/-- The destination of a plan, which no guard owns. -/
def reserved (id : BlockId) : Bool := w.plans.any (·.dst = id)

variable [InactiveIndex ι] (w : World ι)

/-! ### Lookups -/

/-- A slot taken from the inactive index becomes a primary with a new owner. -/
def resurrect (e : Entry) : Option (InnerId × World ι) :=
  (w.store.takeInactiveHandle e.2).map fun handle =>
    let i := w.nextInner
    let w := (w.newInner ⟨e.2, e.1, handle, true, none⟩).addGuard i
    (i, { w with store := w.store.becomePrimary e.2 e.1 handle i })

/-- The inactive half of a lookup. -/
def acquireInactive (h : SequenceHash) : Option (Option InnerId × World ι) :=
  (findMatch w.store.inactive h).bind fun (r, ix) =>
    let w := { w with store := { w.store with inactive := ix } }
    match r with
    | none => some (none, w)
    | some e => (w.resurrect (h, e.2)).map fun (i, w) => (some i, w)

def acquireRegisteredForHash (h : SequenceHash) : Option (Option InnerId × World ι) :=
  match w.store.activeByHash h with
  | none => w.acquireInactive h
  | some id =>
    match w.store.state id with
    | .primary _ _ i =>
      if 0 < w.strong i then some (some i, w.addGuard i)
      else
        (w.store.eagerPrimaryToInactive h id).bind fun s =>
          acquireInactive { w with store := s } h
    | _ => none

def acquireForHash (h : SequenceHash) : Option (Option InnerId × World ι) :=
  if (w.store.heldByHash h).isSome then some (none, w) else w.acquireRegisteredForHash h

/-- `match_prefix_locked_batch`. -/
def matchPrefix : List SequenceHash → World ι → Option (List InnerId × World ι)
  | [], w => some ([], w)
  | h :: hs, w =>
    (w.acquireForHash h).bind fun (r, w) =>
      match r with
      | none => some ([], w)
      | some i => (matchPrefix hs w).map fun (is, w) => (i :: is, w)

/-- `WeakBlock::upgrade`. -/
def upgrade (i : InnerId) : Option (Option InnerId × World ι) :=
  if 0 < w.strong i then some (some i, w.addGuard i)
  else w.acquireForHash (w.inners i).handle.seqHash

def resurrectAll : List Entry → World ι → Option (List InnerId × World ι)
  | [], w => some ([], w)
  | e :: rest, w =>
    (w.resurrect e).bind fun (i, w) =>
      (resurrectAll rest w).map fun (is, w) => (i :: is, w)

def scanInactivePrimaries (hashes : List SequenceHash) : Option (List InnerId × World ι) :=
  let visible := hashes.filter fun h => (w.store.heldByHash h).isNone
  (scanMatches w.store.inactive visible).bind fun (matched, ix) =>
    resurrectAll matched { w with store := { w.store with inactive := ix } }

/-- All of the hashes or none. -/
def matchInactivePrimaries (hashes : List SequenceHash) : Option (List InnerId × World ι) :=
  if hashes.any fun h => (w.store.heldByHash h).isSome || !has w.store.inactive h then
    some ([], w)
  else if ¬ hashes.Nodup then some ([], w)
  else
    match hashes with
    | [] => some ([], w)
    | first :: rest =>
      if (w.store.heldByHash first).isSome then some ([], w)
      else
        (findMatch w.store.inactive first).bind fun (r, ix) =>
          match r with
          | none => some ([], { w with store := { w.store with inactive := ix } })
          | some e =>
            let visible := rest.takeWhile fun h => (w.store.heldByHash h).isNone
            (if rest.isEmpty then some ([], ix) else findMatches ix visible).bind
              fun (matched, ix) =>
                resurrectAll (e :: matched) { w with store := { w.store with inactive := ix } }

/-- Guards of the live blocks among the slots. -/
def liveLoop : List BlockId → World ι → World ι
  | [], w => w
  | id :: rest, w =>
    match w.store.state id with
    | .primary _ _ i => liveLoop rest (if 0 < w.strong i then w.addGuard i else w)
    | .duplicate _ _ i => liveLoop rest (if 0 < w.strong i then w.addGuard i else w)
    | _ => liveLoop rest w

def liveBlocksFrom (first : BlockId) : World ι :=
  liveLoop (List.range' first (w.store.capacity - first)) w

/-! ### Registration -/

/-- The staged slot becomes the primary of its hash. -/
def registerPrimary (id : BlockId) (h : SequenceHash) (handle : BlockRegistrationHandle) :
    World ι :=
  let i := w.nextInner
  let w := w.newInner ⟨id, h, handle, true, none⟩
  { w with store := w.store.becomePrimary id h handle i, marking := i :: w.marking }

/-- The staged slot becomes a duplicate, which takes over the reference to the primary. -/
def registerDuplicate (id : BlockId) (h : SequenceHash) (handle : BlockRegistrationHandle)
    (p : InnerId) : World ι :=
  let i := w.nextInner
  let w := (w.subGuard p).newInner ⟨id, h, handle, false, some p⟩
  { w with store := w.store.setState id (.duplicate h handle i), marking := i :: w.marking }

/-- Register one staged block: its owner, and whether the block was turned down and still owns
its slot. -/
def registerStaged (policy : BlockDuplicationPolicy) (id : BlockId) (h : SequenceHash)
    (handle : BlockRegistrationHandle) : Option ((InnerId × Bool) × World ι) :=
  (w.acquireRegisteredForHash h).bind fun (existing, w) =>
    match existing with
    | some p =>
      if (w.inners p).blockId = id then none
      else
        match policy with
        | .allow => some ((w.nextInner, false), w.registerDuplicate id h handle p)
        | .reject => some ((p, true), w)
    | none => some ((w.nextInner, false), w.registerPrimary id h handle)

/-- The loop of `register_blocks`; `register_completed_block` is one turn of it. -/
def registerLoop (policy : BlockDuplicationPolicy) :
    List (BlockId × BlockRegistrationHandle) → World ι → Option (List (InnerId × Bool) × World ι)
  | [], w => some ([], w)
  | (id, handle) :: rest, w =>
    (w.registerStaged policy id handle.seqHash handle).bind fun (r, w) =>
      (registerLoop policy rest w).map fun (rs, w) => (r :: rs, w)

/-- The slot is staged under the hash of the handle. -/
def stagedFor (b : BlockId × BlockRegistrationHandle) : Bool :=
  w.store.state b.1 = .staged b.2.seqHash

/-- Every pair is checked before anything changes. -/
def registerBlocks (policy : BlockDuplicationPolicy)
    (blocks : List (BlockId × BlockRegistrationHandle)) :
    Option (List (InnerId × Bool) × World ι) :=
  if blocks.all w.stagedFor then registerLoop policy blocks w else none

/-! ### Releases -/

/-- `release_primary`: nothing happens unless the slot is still owned by this object. -/
def releasePrimary (i : InnerId) : Option (World ι) :=
  let id := (w.inners i).blockId
  match w.store.state id with
  | .primary h handle j =>
    if j = i then
      (w.store.retirePrimary id h handle).map fun (absent, s) =>
        { w with store := s }.markLater absent.toList
    else some w
  | _ => some w

/-- `release_duplicate`. -/
def releaseDuplicate (i : InnerId) : World ι :=
  let id := (w.inners i).blockId
  match w.store.state id with
  | .duplicate _ handle j =>
    if j = i then { w with store := w.store.resetSlot id }.markLater [handle] else w
  | _ => w

/-- The destructor of an object without references, up to the drop of its fields. -/
def releaseInner (i : InnerId) : Option (World ι) :=
  if (w.inners i).isPrimary then (w.releasePrimary i).map (·.setReleased i)
  else some ((w.releaseDuplicate i).setReleased i)

/-- `store_reset_on_release_inner`. -/
def storeResetOnReleaseInner (i : InnerId) (value : Bool) : World ι :=
  let id := (w.inners i).blockId
  if w.store.ownedBy id i then { w with store := w.store.setFlag id value } else w

end World

end Kvbm
