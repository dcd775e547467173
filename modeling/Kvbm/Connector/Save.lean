/-
The leader's walk over a scheduler step.

Every request has a slot, which knows its tokens, the blocks that were allocated for it and how
far it has been saved.  A step of the scheduler lists the requests it has scheduled; the leader
brings their slots up to date and hands the blocks that are complete by then to the engine, block
by block or, for a request with a cache identity, bundle by bundle.
-/
import Kvbm.Hub.Bundle.Record
import Kvbm.Index.Basic

namespace Kvbm.Connector

open Function Hub Hub.Bundle LineageHash

abbrev RequestId := Nat

/-! ### Cache identities -/

structure CacheIdentity where
  manifest : CacheManifestId
  resources : List ResourceRequirement

/-- `resource_alignment`: the least common multiple of the native block sizes. -/
def CacheIdentity.alignmentTokens (identity : CacheIdentity) : Nat :=
  (identity.resources.map (·.nativeBlockTokens)).foldr Nat.lcm 1

def BundleKey.new {H : Type} (identity : CacheIdentity) (boundaryHash : H) (boundaryTokens : Nat) :
    Option (BundleKey H) :=
  if h : 0 < boundaryTokens ∧ identity.alignmentTokens ∣ boundaryTokens then
    some ⟨identity.manifest, boundaryHash, boundaryTokens, h.1⟩
  else none

structure ResourceOffload (H : Type) where
  resource : LogicalResourceId
  blocks : List (H × BlockId)

structure BundleOffloadPlan (H : Type) where
  key : BundleKey H
  resources : List (ResourceOffload H)

/-- What the engine is handed; a slot keeps a handle of each. -/
inductive Offload (H : Type)
  | blocks (pairs : List (H × BlockId))
  | bundle (plan : BundleOffloadPlan H)

/-- The size of a block, and the hashing of token sequences, which is done elsewhere: a number for
the tokens, and of the positional hashes that are made of such numbers what is read from them. -/
structure Hashing (τ H : Type) [Bundle.SequenceHash H] where
  blockSize : Nat
  nonzero : 0 < blockSize
  sequenceHash : List τ → Nat
  mode_new : ∀ c parent n, mode (Bundle.SequenceHash.new c parent n : H) ≤ 2
  position_new : ∀ c parent n, position (Bundle.SequenceHash.new c parent n : H) = n
  fragment_new : ∀ c parent n c',
    parentHashFragment (Bundle.SequenceHash.new c' (some c) (n + 1) : H) =
      parentFragmentForChildPosition (Bundle.SequenceHash.new c parent n : H) (n + 1)

/-! ### Slots -/

structure RequestSlot (τ H : Type) where
  identity : Option CacheIdentity
  sequence : List τ
  blockIds : List BlockId := []
  resourceBlockIds : LogicalResourceId → Option (List BlockId) := fun _ => none
  /-- The handles of what was handed to the engine since the last eviction. -/
  offloads : List (Offload H) := []
  evaluatedTokens : Nat := 0

variable {τ H : Type} [DecidableEq H] [Bundle.SequenceHash H] (g : Hashing τ H)
  (accepts : Offload H → Bool)

/-- Some resource has the prefix history in the connector's blocks. -/
def CacheIdentity.anchored (identity : CacheIdentity) : Bool :=
  identity.resources.any fun requirement =>
    requirement.role = .prefixHistory && requirement.nativeBlockTokens = g.blockSize

namespace RequestSlot

variable (slot : RequestSlot τ H)

/-- The hash of block `i`, with the one before as its parent. -/
def sequenceHash (i : Nat) : H :=
  let upTo i := g.sequenceHash (slot.sequence.take (i * g.blockSize))
  Bundle.SequenceHash.new (upTo (i + 1)) (if i = 0 then none else some (upTo i)) i

def hashes : List H := (List.range (slot.sequence.length / g.blockSize)).map (slot.sequenceHash g)

/-- The blocks that are hashed and have an id: `sequence_hash(i)` and `block_ids[i]`. -/
def assigned : List (H × BlockId) := (slot.hashes g).zip slot.blockIds

def offloadLegacyStep (desiredTokens : Nat) : RequestSlot τ H :=
  if desiredTokens ≤ slot.evaluatedTokens then slot
  else
    let assignedTokens := (slot.assigned g).length * g.blockSize
    let newEval :=
      if slot.evaluatedTokens ≥ assignedTokens then desiredTokens
      else min desiredTokens assignedTokens
    let fromBlock := slot.evaluatedTokens / g.blockSize
    let toBlock := min newEval assignedTokens / g.blockSize
    if toBlock ≤ fromBlock then { slot with evaluatedTokens := newEval }
    else
      let pairs := ((slot.assigned g).take toBlock).drop fromBlock
      { slot with
        evaluatedTokens := newEval
        offloads := if accepts (.blocks pairs) then slot.offloads ++ [.blocks pairs]
          else slot.offloads }

def allocationTokens (identity : CacheIdentity) : Nat :=
  (identity.resources.map fun requirement =>
    ((slot.resourceBlockIds requirement.resource).map fun ids =>
      ids.length * requirement.nativeBlockTokens).getD 0).min?.getD 0

/-- The last boundary that a number of tokens reaches. -/
def boundary (identity : CacheIdentity) (desiredTokens : Nat) : Nat :=
  min (min desiredTokens (slot.sequence.length / g.blockSize * g.blockSize))
    (slot.allocationTokens identity) / identity.alignmentTokens * identity.alignmentTokens

def resourceOffload (canonicalHashes : List H) (boundaryHash : H) (boundary : Nat)
    (requirement : ResourceRequirement) : Option (ResourceOffload H) :=
  let native := requirement.nativeBlockTokens
  if native < g.blockSize ∨ ¬g.blockSize ∣ native then none
  else
    (slot.resourceBlockIds requirement.resource).bind fun ids =>
      match requirement.role with
      | .prefixHistory =>
        (projectFromCanonical requirement.resource canonicalHashes
          (native / g.blockSize)).toOption.map fun lineage =>
            ⟨requirement.resource, lineage.hashes.zip ids⟩
      | .boundaryCapsule =>
        (ids[boundary / native - 1]?).map fun id => ⟨requirement.resource, [(boundaryHash, id)]⟩

/-- The plan for a boundary, or nothing where a check refuses it. -/
def bundlePlan (identity : CacheIdentity) (boundary : Nat) : Option (BundleOffloadPlan H) :=
  let canonicalHashes := (slot.hashes g).take (boundary / g.blockSize)
  -- an aligned boundary that is not zero has a last hash
  canonicalHashes.getLast?.bind fun boundaryHash =>
    (BundleKey.new identity boundaryHash boundary).bind fun key =>
      (identity.resources.mapM (slot.resourceOffload g canonicalHashes boundaryHash boundary)).map
          fun resources => ⟨key, resources⟩

def offloadBundleStep (desiredTokens : Nat) (identity : CacheIdentity) : RequestSlot τ H :=
  if identity.anchored g = false then slot
  else
    let boundary := slot.boundary g identity desiredTokens
    if boundary = 0 ∨ boundary ≤ slot.evaluatedTokens then slot
    else
      match slot.bundlePlan g identity boundary with
      | none => slot
      | some plan =>
        if accepts (.bundle plan) then
          { slot with evaluatedTokens := boundary, offloads := slot.offloads ++ [.bundle plan] }
        else slot

def offloadStep (desiredTokens : Nat) : RequestSlot τ H :=
  match slot.identity with
  | some identity => slot.offloadBundleStep g accepts desiredTokens identity
  | none => slot.offloadLegacyStep g accepts desiredTokens

/-- `on_evicted` keeps the tokens. -/
def evict : RequestSlot τ H := { identity := slot.identity, sequence := slot.sequence }

end RequestSlot

/-! ### Scheduler steps -/

structure NewRequestData where
  reqId : RequestId
  blockIds : List BlockId
  blockIdsByGroup : List (List BlockId) := []
  numComputedTokens : Nat

structure CachedRequestData (τ : Type) where
  reqId : RequestId
  resumed : Bool
  allTokenIds : Option (List τ) := none
  newBlockIds : List BlockId
  newBlockIdsByGroup : List (List BlockId) := []
  numComputedTokens : Nat

structure SchedulerOutput (τ : Type) where
  scheduledNewReqs : List NewRequestData := []
  scheduledCachedReqs : List (CachedRequestData τ) := []
  numScheduledTokens : RequestId → Option Nat
  totalNumScheduledTokens : Nat
  preemptedReqIds : List RequestId := []
  groupResources : List LogicalResourceId := []

/-- A request that a step has scheduled. -/
inductive Entry (τ : Type)
  | new (request : NewRequestData)
  | cached (request : CachedRequestData τ)

namespace Entry

def reqId : Entry τ → RequestId
  | new request => request.reqId
  | cached request => request.reqId

def numComputedTokens : Entry τ → Nat
  | new request => request.numComputedTokens
  | cached request => request.numComputedTokens

/-- Only the tokens of the step are reported: the request goes on from the last one. -/
def plain : Entry τ → Bool
  | new _ => false
  | cached request => !request.resumed

def scheduled (output : SchedulerOutput τ) (x : Entry τ) : Nat :=
  (output.numScheduledTokens x.reqId).getD 0

/-- The tokens that are computed when the step is done. -/
def tokens (output : SchedulerOutput τ) (x : Entry τ) : Nat :=
  x.numComputedTokens + x.scheduled output

end Entry

/-- The requests in the order of the walk. -/
def SchedulerOutput.entries (output : SchedulerOutput τ) : List (Entry τ) :=
  output.scheduledNewReqs.map .new ++ output.scheduledCachedReqs.map .cached

namespace RequestSlot

/-- `sync_full_block_list`, for one list. -/
def syncFull (current ids : List BlockId) : List BlockId :=
  if current.length < ids.length ∧ ids.take current.length = current then ids else current

def updateResources (change : List BlockId → List BlockId → List BlockId)
    (resources : List LogicalResourceId) (groups : List (List BlockId)) (slot : RequestSlot τ H) :
    RequestSlot τ H :=
  if resources.length ≠ groups.length then slot
  else
    { slot with
      resourceBlockIds := (resources.zip groups).foldl (fun lists group =>
        update lists group.1 (some (change ((lists group.1).getD []) group.2)))
          slot.resourceBlockIds }

variable (resources : List LogicalResourceId)

def syncFullResourceLists (groups : List (List BlockId)) :
    RequestSlot τ H → RequestSlot τ H := updateResources syncFull resources groups

def extendResourceLists (groups : List (List BlockId)) :
    RequestSlot τ H → RequestSlot τ H := updateResources (· ++ ·) resources groups

/-- Bring a slot up to date with what the step lists of it. -/
def sync (slot : RequestSlot τ H) (output : SchedulerOutput τ) : Entry τ → RequestSlot τ H
  | .new request =>
    { slot with blockIds := syncFull slot.blockIds request.blockIds }.syncFullResourceLists
      output.groupResources request.blockIdsByGroup
  | .cached request =>
    if request.resumed then
      { slot with
        sequence := slot.sequence ++ (request.allTokenIds.getD []).drop slot.sequence.length
        blockIds := syncFull slot.blockIds request.newBlockIds }.syncFullResourceLists
          output.groupResources request.newBlockIdsByGroup
    else
      { slot with blockIds := slot.blockIds ++ request.newBlockIds }.extendResourceLists
        output.groupResources request.newBlockIdsByGroup

/-- How far the request is to be saved: `compute_cached_target`, and its counterpart for a new
request. -/
def target (slot : RequestSlot τ H) (output : SchedulerOutput τ) (x : Entry τ) : Nat :=
  (if x.plain then slot.evaluatedTokens else x.numComputedTokens) + x.scheduled output

end RequestSlot

/-! ### The walk -/

/-- The leader's slots, and beside them how many tokens the scheduler has reported computed or
scheduled for each request since its last eviction. -/
structure Run (τ H : Type) where
  slots : RequestId → Option (RequestSlot τ H)
  reported : RequestId → Nat

namespace Run

variable (w : Run τ H)

def onEvicted (id : RequestId) : Run τ H :=
  ⟨update w.slots id ((w.slots id).map (·.evict)), update w.reported id 0⟩

/-- One request of the walk; a request without a slot is skipped. -/
def walk (output : SchedulerOutput τ) (x : Entry τ) : Run τ H :=
  ⟨update w.slots x.reqId ((w.slots x.reqId).map fun slot =>
      (slot.sync output x).offloadStep g accepts (slot.target output x)),
    update w.reported x.reqId (x.tokens output)⟩

def buildConnectorMeta (output : SchedulerOutput τ) : Run τ H :=
  let w := output.preemptedReqIds.foldl onEvicted w
  if output.totalNumScheduledTokens = 0 then w
  else output.entries.foldl (fun w x => w.walk g accepts output x) w

end Run

/-! ### Runs -/

inductive Call (τ : Type)
  | createSlot (id : RequestId) (identity : Option CacheIdentity) (tokens : List τ)
  | allocate (id : RequestId) (ids : List BlockId)
  | allocateResources (id : RequestId) (lists : LogicalResourceId → Option (List BlockId))
  | extendTokens (id : RequestId) (tokens : List τ)
  | onEvicted (id : RequestId)
  | buildConnectorMeta (output : SchedulerOutput τ)
  | reap (id : RequestId)

namespace Run

def change (w : Run τ H) (id : RequestId) (f : RequestSlot τ H → RequestSlot τ H) : Run τ H :=
  { w with slots := update w.slots id ((w.slots id).map f) }

def step (w : Run τ H) : Call τ → Run τ H
  | .createSlot id identity tokens =>
    if (w.slots id).isSome then w
    else ⟨update w.slots id (some { identity := identity, sequence := tokens }),
      update w.reported id 0⟩
  | .allocate id ids => w.change id fun slot => { slot with blockIds := ids }
  | .allocateResources id lists => w.change id fun slot => { slot with resourceBlockIds := lists }
  | .extendTokens id tokens =>
    w.change id fun slot => { slot with sequence := slot.sequence ++ tokens }
  | .onEvicted id => w.onEvicted id
  | .buildConnectorMeta output => w.buildConnectorMeta g accepts output
  | .reap id => { w with slots := update w.slots id none }

end Run

end Kvbm.Connector
