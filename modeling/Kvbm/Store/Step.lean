/-
Everything a client can do with a store, as steps.

A step is one acquisition of the store lock, or one change of a reference count or of a
presence marker, which need no lock.  Steps of different threads may come in any order,
so a run of the program is a run of these steps.

Who owns a mutable or a staged slot is read off the slot: its guard is made when the slot
becomes mutable and used up when it ceases to be staged, and the destination of a rebind
plan has no guard.
-/
import Kvbm.Index.Backend
import Kvbm.Store.Release

namespace Kvbm

namespace World

variable {ι : Type}

/-! ### Rebinding -/

variable (w : World ι)

def reserve (src : BlockId) (h : SequenceHash) (handle : BlockRegistrationHandle)
    (source : Option InnerId) : Option (Except RebindPrepareError RebindPlan × World ι) :=
  match w.store.popFree with
  | none => some (.error .noDestination, w)
  | some (dst, s) =>
    let plan := ⟨h, src, dst, (s.slots src).generation, handle, source⟩
    (s.allocateMutableSlot dst).map fun s =>
      (.ok plan, { w with store := s, plans := plan :: w.plans })

def prepareRebind (src : BlockId) : Option (Except RebindPrepareError RebindPlan × World ι) :=
  if w.store.capacity ≤ src then some (.error (.outOfRange src), w)
  else
    match w.store.state src with
    | .inactive h handle => w.reserve src h handle none
    | _ => some (.error (.notInactive src), w)

def prepareLiveRebind (i : InnerId) : Option (Except RebindPrepareError RebindPlan × World ι) :=
  let src := (w.inners i).blockId
  if w.store.capacity ≤ src then some (.error (.notLive src), w)
  else
    match w.store.state src with
    | .primary h handle j =>
      if j = i then w.reserve src h handle (some i) else some (.error (.notLive src), w)
    | .duplicate h handle j =>
      if j = i then w.reserve src h handle (some i) else some (.error (.notLive src), w)
    | _ => some (.error (.notLive src), w)

/-- The plan gives its destination back and is used up. -/
def giveUp (plan : RebindPlan) : World ι :=
  { w with
    store := w.store.releaseReservedDestination plan.dst
    plans := w.plans.erase plan }

/-- The source of the plan is the inactive block it was prepared for. -/
def inactiveIdentity (plan : RebindPlan) : Bool :=
  match w.store.state plan.src with
  | .inactive h handle =>
    h = plan.seqHash && (w.store.slots plan.src).generation = plan.srcGeneration &&
      handle.id = plan.handle.id
  | _ => false

/-- The source is registered under the hash of the plan, but not inactive. -/
def sameActiveTenure (plan : RebindPlan) : Bool :=
  (w.store.slots plan.src).generation = plan.srcGeneration &&
    match w.store.state plan.src with
    | .primary h _ _ => h = plan.seqHash
    | .duplicate h _ _ => h = plan.seqHash
    | .held h _ => h = plan.seqHash
    | _ => false

/-- The live owner of the source, if it is the one the plan was prepared for. -/
def activeSource (plan : RebindPlan) : Option InnerId :=
  let same := fun h (handle : BlockRegistrationHandle) i =>
    h = plan.seqHash ∧ (w.store.slots plan.src).generation = plan.srcGeneration ∧
      handle.id = plan.handle.id ∧ plan.sourceInner.all (· = i)
  match w.store.state plan.src with
  | .primary h handle i => if same h handle i then some i else none
  | .duplicate h handle i => if same h handle i then some i else none
  | _ => none

/-- The state, with its flag, moves from the source to the destination; the source is reset. -/
def finishMove (s : BlockStore ι) (plan : RebindPlan) : BlockStore ι :=
  let s := s.setFlag plan.dst (s.resetOnRelease plan.src)
  (s.setFlag plan.src s.defaultResetOnRelease).resetSlot plan.src

/-- Move a live block in place; all references to it see the destination. -/
def moveLive (plan : RebindPlan) (i : InnerId) : World ι :=
  let s := w.store.setState plan.dst (w.store.state plan.src)
  let s := finishMove
    (match w.store.state plan.src with
    | .primary _ _ _ =>
      { s with activeByHash := Function.update s.activeByHash plan.seqHash (some plan.dst) }
    | _ => s) plan
  let w := (w.addGuard i).setBlockId i plan.dst
  { w with store := s, plans := w.plans.erase plan }

variable [InactiveIndex ι] (w : World ι)

def moveInactive (plan : RebindPlan) : Option (RebindOutcome × World ι) :=
  let (rebound, ix) := InactiveIndex.rebind w.store.inactive plan.seqHash plan.src plan.dst
  let w := { w with store := { w.store with inactive := ix } }
  if rebound then
    (w.store.setInactiveTenureState plan.dst plan.seqHash plan.handle).map fun s =>
      (.moved plan.seqHash plan.src plan.dst,
        { w with store := finishMove s plan, plans := w.plans.erase plan })
  else some (.stale, w.giveUp plan)

def commit (plan : RebindPlan) : Option (RebindOutcome × World ι) :=
  if w.store.state plan.dst ≠ .mutable then none
  else if w.store.effectiveCeiling ≤ plan.dst then some (.fenced, w.giveUp plan)
  else if w.inactiveIdentity plan then w.moveInactive plan
  else if w.sameActiveTenure plan then some (.busy, w)
  else some (.stale, w.giveUp plan)

def commitLive (plan : RebindPlan) : Option (RebindOutcome × World ι) :=
  if w.store.state plan.dst ≠ .mutable then none
  else if w.store.effectiveCeiling ≤ plan.dst then some (.fenced, w.giveUp plan)
  else if w.inactiveIdentity plan then w.moveInactive plan
  else
    match w.activeSource plan with
    | none => some (.stale, w.giveUp plan)
    | some i =>
      if 0 < w.strong i then
        some (.moved plan.seqHash plan.src plan.dst, w.moveLive plan i)
      else some (.busy, w)

def dropPlan (plan : RebindPlan) : Option (World ι) :=
  if w.store.state plan.dst ≠ .mutable then none else some (w.giveUp plan)

end World

/-! ### Steps -/

inductive Op
  -- allocation
  | allocateResetBlocks (count : Nat)
  | allocateResetBlocksAtomic (count : Nat)
  | allocateAtomic (count : Nat)
  | allocateExactReclaim (count : Nat) (plan : FreshExactReclaimPlan)
  | drainInactive
  | releaseInactiveTail (minCapacity : Nat)
  -- capacity
  | setCapacity (capacity : Nat)
  | setAllocationCeiling (fence : Option Nat)
  -- guards of unregistered blocks
  | releaseMutable (id : BlockId)
  | stage (id : BlockId) (h : SequenceHash)
  | unstage (id : BlockId)
  | releaseStaged (id : BlockId)
  | setStagedFlag (id : BlockId) (value : Bool)
  -- registration
  | registerBlocks (policy : BlockDuplicationPolicy)
      (blocks : List (BlockId × BlockRegistrationHandle))
  | markPresent (i : InnerId)
  | markAbsent (handle : BlockRegistrationHandle)
  -- lookups
  | acquire (h : SequenceHash)
  | matchPrefix (hashes : List SequenceHash)
  | upgrade (i : InnerId)
  | scanInactive (hashes : List SequenceHash)
  | matchInactive (hashes : List SequenceHash)
  | liveBlocksFrom (first : BlockId)
  | poison (h : SequenceHash)
  -- guards of registered blocks
  | setEvictOnReset (i : InnerId) (value : Bool)
  | clone (i : InnerId)
  | drop (i : InnerId)
  | release (i : InnerId)
  | dropFields (i : InnerId)
  | releaseBlocks (blocks : List InnerId) (resetOnRelease : Option Bool)
  -- rebind plans
  | prepareRebind (src : BlockId)
  | prepareLiveRebind (i : InnerId)
  | commit (plan : RebindPlan)
  | commitLive (plan : RebindPlan)
  | dropPlan (plan : RebindPlan)
  -- lineage holds
  | tryHold (candidate : InactiveCandidate) (expected : Option (List Entry))
  | abortHold (source : List Entry)
  | commitHold (source : List Entry)

def Op.handles : Op → List BlockRegistrationHandle
  | .registerBlocks _ blocks => blocks.map Prod.snd
  | _ => []

namespace World

variable {ι : Type} [InactiveIndex ι]

/-- The slot belongs to a staged guard. -/
def staged (w : World ι) (id : BlockId) : Bool :=
  match w.store.state id with
  | .staged _ => true
  | _ => false

variable (w : World ι)

/-- The client has what the step uses up. -/
def enabled : Op → Bool
  | .releaseMutable id => w.store.state id = .mutable ∧ !w.reserved id
  | .stage id _ => w.store.state id = .mutable ∧ !w.reserved id
  | .unstage id => w.staged id
  | .releaseStaged id => w.staged id
  | .setStagedFlag id _ => w.staged id
  | .registerBlocks _ blocks => (blocks.map Prod.fst).Nodup ∧ ∀ b ∈ blocks, w.stagedFor b
  | .markPresent i => i ∈ w.marking
  | .markAbsent handle => handle ∈ w.absents
  | .upgrade i => i < w.nextInner
  | .setEvictOnReset i _ => 0 < w.guards i
  | .clone i => 0 < w.guards i
  | .drop i => 0 < w.guards i
  | .release i => i < w.nextInner ∧ w.strong i = 0 ∧ !w.released i
  | .dropFields i => i < w.nextInner ∧ w.released i
  | .releaseBlocks blocks _ => ∀ i ∈ blocks, blocks.count i ≤ w.guards i
  | .prepareLiveRebind i => 0 < w.guards i
  | .commit plan => plan ∈ w.plans
  | .commitLive plan => plan ∈ w.plans
  | .dropPlan plan => plan ∈ w.plans
  | .abortHold source => source ∈ w.holds
  | .commitHold source => source ∈ w.holds
  | _ => true

/-- What a step that evicts leaves: the hashes reported, and the marks to be made. -/
def afterEviction (ev : Eviction) (s : BlockStore ι) : List SequenceHash × World ι :=
  (ev.evicted, { w with store := s }.markLater ev.handles)

/-- One step: the hashes it reports as evicted, and what it leaves. -/
def exec : Op → Option (List SequenceHash × World ι)
  | .allocateResetBlocks count =>
    (w.store.allocateResetBlocks count).map fun r => ([], { w with store := r.2 })
  | .allocateResetBlocksAtomic count =>
    (w.store.allocateResetBlocksAtomic count).map fun r => ([], { w with store := r.2 })
  | .allocateAtomic count =>
    (w.store.allocateAtomic count).map fun
      | (none, s) => ([], { w with store := s })
      | (some ev, s) => w.afterEviction ev s
  | .allocateExactReclaim count plan =>
    if plan.managerId ≠ w.store.id then some ([], w)
    else
      (w.store.allocateExactReclaim count plan.expectedResetSlots plan.victimsLeafToRoot).map fun
        | (.error _, s) => ([], { w with store := s })
        | (.ok ev, s) => w.afterEviction ev s
  | .drainInactive => w.store.drainInactiveToMutable.map fun r => w.afterEviction r.1 r.2
  | .releaseInactiveTail n =>
    (w.store.inactiveTailToMutable n).map fun r => w.afterEviction r.1 r.2
  | .setCapacity n => some ([], { w with store := (w.store.setCapacity n).2 })
  | .setAllocationCeiling fence =>
    some ([], { w with store := (w.store.setAllocationCeiling fence).2 })
  | .releaseMutable id => some ([], { w with store := w.store.releaseMutable id })
  | .stage id h => some ([], { w with store := w.store.transitionToStaged id h })
  | .unstage id => some ([], { w with store := w.store.transitionBackToMutable id })
  | .releaseStaged id => some ([], { w with store := w.store.releaseStaged id })
  | .setStagedFlag id v => some ([], { w with store := w.store.setFlag id v })
  | .registerBlocks policy blocks => (w.registerBlocks policy blocks).map fun r => ([], r.2)
  | .markPresent i => some ([], { w with marking := w.marking.erase i }.addGuard i)
  | .markAbsent handle => some ([], { w with absents := w.absents.erase handle })
  | .acquire h => (w.acquireForHash h).map fun r => ([], r.2)
  | .matchPrefix hashes => (matchPrefix hashes w).map fun r => ([], r.2)
  | .upgrade i => (w.upgrade i).map fun r => ([], r.2)
  | .scanInactive hashes => (w.scanInactivePrimaries hashes).map fun r => ([], r.2)
  | .matchInactive hashes => (w.matchInactivePrimaries hashes).map fun r => ([], r.2)
  | .liveBlocksFrom first => some ([], w.liveBlocksFrom first)
  | .poison h => (w.store.poisonLineage h).map fun s => ([], { w with store := s })
  | .setEvictOnReset i v => some ([], w.storeResetOnReleaseInner i v)
  | .clone i => some ([], w.addGuard i)
  | .drop i => some ([], w.subGuard i)
  | .release i => (w.releaseInner i).map fun w => ([], w)
  | .dropFields i => some ([], w.clearKeepalive i)
  | .releaseBlocks blocks opts => (w.releaseBlocksLocked blocks opts).map fun b => ([], b.world)
  | .prepareRebind src => (w.prepareRebind src).map fun r => ([], r.2)
  | .prepareLiveRebind i => (w.prepareLiveRebind i).map fun r => ([], r.2)
  | .commit plan => (w.commit plan).map fun r => ([], r.2)
  | .commitLive plan => (w.commitLive plan).map fun r => ([], r.2)
  | .dropPlan plan => (w.dropPlan plan).map fun w => ([], w)
  | .tryHold candidate expected =>
    (w.store.tryHoldInactiveLineageIfCurrent candidate expected).map fun r =>
      ([], { w with store := r.2, holds := r.1.toList ++ w.holds })
  | .abortHold source =>
    (w.store.restoreLineageHold source).map fun r =>
      ([], { w with store := r.2, holds := w.holds.erase source }.markLater r.1)
  | .commitHold source =>
    (w.store.commitLineageHold source).map fun r =>
      (r.1.1.toList, { w with store := r.2, holds := w.holds.erase source }.markLater r.1.2)

/-- What the step leaves, if the client can take it. -/
def step (op : Op) : Option (World ι) := if w.enabled op then (w.exec op).map Prod.snd else none

/-- As `BlockManagerConfigBuilder::build` makes it, with any backend that can be configured. -/
def Initial {C : Type} [LruCache C] (w : World (Backend C)) : Prop :=
  ∃ (config : InactiveBackendConfig) (id : ManagerId) (blockCount maximumBlocks : Nat)
    (index : Backend C) (resetOnRelease : Bool), config.build blockCount = .ok index ∧
      w = .new (.new id blockCount maximumBlocks index resetOnRelease)

end World

end Kvbm
