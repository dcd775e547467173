/-
Remote prefill at the time of the search.

With conditional disaggregation a poll whose local match is resolved may hand the prefill to a
peer.  The engine then opens a session, commits to the hashes the peer is to find there, from the
start of the chain to the end of the local match, and makes the blocks behind them available.  The
blocks of the computed prefix come out of the host cache, those of the local match out of the
shards of the search.
-/
import Kvbm.Tiering.Search

namespace Kvbm.Tiering

variable {H : Type}

/-! ### The decision -/

inductive PrefillSelection
  | localPrefill
  | remotePrefill
  deriving DecidableEq, Repr

structure PolicyInputs where
  totalTokens : Nat
  numComputedTokens : Nat
  numConnectorTokens : Nat

def PolicyInputs.numPrefillTokens (i : PolicyInputs) : Nat :=
  i.totalTokens - i.numComputedTokens - i.numConnectorTokens

inductive SelectionPolicy
  | never
  | always
  | threshold (minRemotePrefillTokens : Nat)
  deriving DecidableEq, Repr

def SelectionPolicy.select : SelectionPolicy → PolicyInputs → PrefillSelection
  | .never, _ => .localPrefill
  | .always, _ => .remotePrefill
  | .threshold least, inputs =>
    if least ≤ inputs.numPrefillTokens then .remotePrefill else .localPrefill

inductive BreakerTier
  | calm
  | warm
  | hot
  deriving DecidableEq, Repr

inductive LocalReason
  | policy
  | breakerHot
  | zeroBlock
  | overloadFallback
  | costGuard
  deriving DecidableEq, Repr

inductive PlanOutcome
  | staysLocal (reason : LocalReason)
  | reject
  | remote (fullBlockExternalTokens : Nat)
  deriving DecidableEq, Repr

structure DisaggConfig where
  selection : SelectionPolicy
  /-- The cost guard, on tokens and bytes. -/
  costAllows : Nat → Nat → Bool
  localFallbackOnOverload : Bool

structure PlanInputs where
  totalTokens : Nat
  numComputedTokens : Nat
  matchedTokens : Nat
  blockSize : Nat
  bundleBytes : Nat

/-- What a poll finds outside of its search: the breaker, the budget, the host cache and whether a
session can be opened. -/
structure CdEnv (H : Type) where
  tier : BreakerTier
  tryReserve : Nat → Bool
  /-- `match_blocks`: the cached blocks of the first hashes. -/
  matchBlocks : List H → List (G2Block H)
  matchBlocks_begins : ∀ hashes, (matchBlocks hashes).map (·.sequenceHash) <+: hashes
  opens : Bool

def plan (cfg : DisaggConfig) (env : CdEnv H) (inputs : PlanInputs) : PlanOutcome :=
  match cfg.selection.select
      ⟨inputs.totalTokens, inputs.numComputedTokens, inputs.matchedTokens⟩ with
  | .localPrefill => .staysLocal .policy
  | .remotePrefill =>
    let prefillWindow := inputs.totalTokens - inputs.numComputedTokens
    let fullBlockExternalTokens := prefillWindow / inputs.blockSize * inputs.blockSize
    if env.tier = .hot then .staysLocal .breakerHot
    else if fullBlockExternalTokens = 0 then .staysLocal .zeroBlock
    else if !cfg.costAllows fullBlockExternalTokens inputs.bundleBytes then .staysLocal .costGuard
    else if !env.tryReserve fullBlockExternalTokens then
      if cfg.localFallbackOnOverload then .staysLocal .overloadFallback else .reject
    else .remote fullBlockExternalTokens

/-! ### Sessions -/

/-- The holder's side of a session. -/
structure Session (H : Type) where
  committed : List H
  commitsClosed : Bool
  available : List (G2Block H)
  availDrained : Bool
  deriving DecidableEq, Repr

namespace Session

def new : Session H := ⟨[], false, [], false⟩

variable (s : Session H)

def commit (hashes : List H) : Option (Session H) :=
  if s.commitsClosed then none else some { s with committed := s.committed ++ hashes }

/-- The hash of each block must be committed. -/
def makeAvailable [DecidableEq H] (s : Session H) (blocks : List (G2Block H)) :
    Option (Session H) :=
  if s.availDrained then none
  else if blocks.all fun b => s.committed.contains b.sequenceHash then
    some { s with available := s.available ++ blocks }
  else none

def finishCommits : Session H := { s with commitsClosed := true }

def finishAvailability : Session H := { s with availDrained := true }

end Session

structure RemoteCommitPlan (H : Type) where
  prefixHashes : List H
  pendingHashes : List H
  localMatchHashes : List H

def RemoteCommitPlan.sessionCommitSet (p : RemoteCommitPlan H) : List H :=
  p.prefixHashes ++ p.pendingHashes ++ p.localMatchHashes

structure AvailabilityLedger (H : Type) where
  outstanding : List H
  sealed : Bool
  deriving DecidableEq, Repr

/-- `none` on an error, after which the session is closed. -/
def openAndCommit [DecidableEq H] (env : CdEnv H) (p : RemoteCommitPlan H)
    (initialBlocks : List (G2Block H)) : Option (Session H × AvailabilityLedger H) :=
  if env.opens then do
    let session ← Session.new.commit p.sessionCommitSet
    let session ← session.makeAvailable initialBlocks
    let session := session.finishCommits
    if p.pendingHashes.isEmpty then some (session.finishAvailability, ⟨p.pendingHashes, true⟩)
    else some (session, ⟨p.pendingHashes, false⟩)
  else none

/-! ### The commit -/

/-- `CdRequestState`, as a remote commit leaves it. -/
structure CdRequestState (H : Type) where
  reservedTokens : Nat
  baseOffset : Nat
  unifiedHitBlocks : Nat
  localHitBlocks : Nat
  windowHashes : List H
  session : Session H
  ledger : AvailabilityLedger H
  deriving DecidableEq, Repr

variable (cfg : SearchConfig)

/-- The first `want` blocks of the shards; the loop is that of `collect_g2_blocks`. -/
def cloneLeadingG2Blocks (st : OnboardingState H) (want : Nat) : Option (List (G2Block H)) :=
  if want = 0 then some []
  else (collectLoop want st.shards []).bind fun out =>
    if out.length < want then none else some (out.take want)

/-- The blocks a commit must serve: those of the computed prefix, and those of the local match. -/
def cdCloneLocalBlocks (env : CdEnv H) (latched : Bool) (req : MatchWindow H)
    (status : MatchStatus) (st : OnboardingState H) : List (G2Block H) × List (G2Block H) :=
  match status with
  | .matched hitBlocks =>
    (if 0 < req.computedBlocks && !latched then env.matchBlocks req.prefixPlhs else [],
      (cloneLeadingG2Blocks st hitBlocks).getD [])
  | _ => ([], [])

/-- The inner result is `none` when the request stays local. -/
def cdCommitRemote [DecidableEq H] (env : CdEnv H) (req : MatchWindow H)
    (localHit numComputed fbet : Nat) (prefixBlocks localBlocks : List (G2Block H)) :
    Option (Option (CdRequestState H)) :=
  if localBlocks.length ≠ localHit || prefixBlocks.length ≠ numComputed / cfg.blockSize then
    some none
  else if req.blockPlhs.length < localHit then none
  else
    let p : RemoteCommitPlan H := ⟨req.prefixPlhs, [], req.blockPlhs.take localHit⟩
    match openAndCommit env p (prefixBlocks ++ localBlocks) with
    | none => some none
    | some (session, ledger) =>
      let unified := asU32 (fbet / cfg.blockSize)
      some (some ⟨fbet, numComputed, unified, localHit,
        req.blockPlhs.take (min unified req.blockPlhs.length), session, ledger⟩)

/-- What the interposition makes of a poll's local answer. -/
structure Interposed (H : Type) where
  status : MatchStatus
  latch : Option (CdRequestState H)
  /-- This poll has opened the session of the latch. -/
  opened : Bool

def cdInterpose [DecidableEq H] (cd : DisaggConfig) (env : CdEnv H)
    (latch : Option (CdRequestState H)) (req : MatchWindow H) (localStatus : MatchStatus)
    (prefixBlocks localBlocks : List (G2Block H)) : Option (Interposed H) :=
  match localStatus with
  | .matched localHit =>
    let numComputed := req.computedBlocks * cfg.blockSize
    match latch with
    | some state =>
      -- a moved prefix releases the stale commit, and the next poll plans anew
      if state.baseOffset ≠ numComputed then some ⟨localStatus, none, false⟩
      else some ⟨.matched state.unifiedHitBlocks, latch, false⟩
    | none =>
      if 0 < req.computedBlocks && prefixBlocks.length ≠ req.computedBlocks then
        some ⟨localStatus, none, false⟩
      else
        let inputs : PlanInputs :=
          ⟨(req.computedBlocks + req.blockPlhs.length) * cfg.blockSize, numComputed,
            localHit * cfg.blockSize, cfg.blockSize, 0⟩
        match plan cd env inputs with
        | .staysLocal _ => some ⟨localStatus, none, false⟩
        | .reject => some ⟨.pending, none, false⟩
        | .remote fbet =>
          (cdCommitRemote cfg env req localHit numComputed fbet prefixBlocks localBlocks).map
            fun
            | none => ⟨localStatus, none, false⟩
            | some state => ⟨.matched state.unifiedHitBlocks, some state, true⟩
  | _ => some ⟨localStatus, latch, false⟩

/-! ### The polls of one request -/

/-- A session that a poll has opened. -/
structure Opened (H : Type) where
  session : Session H
  /-- The computed prefix of the poll, in blocks. -/
  computed : Nat
  localHit : Nat
  /-- Where the first shard of the search began. -/
  head : Nat
  deriving DecidableEq, Repr

structure CdFinder (H : Type) where
  finder : Finder H
  latch : Option (CdRequestState H)
  /-- The sessions opened for the request, newest first. -/
  opened : List (Opened H)
  deriving DecidableEq, Repr

inductive CdOp (H : Type)
  | poll (env : CdEnv H) (leader : Leader H) (numComputedTokens totalTokens : Nat)
  | progress (shard : Nat) (session : FindSession H)
  | release
  /-- The commit is declined, evicted or finished. -/
  | unlatch

namespace CdFinder

def new : CdFinder H := ⟨⟨none, 0⟩, none, []⟩

variable [DecidableEq H]

/-- The interposition on a search that a poll has left behind.  A fresh search without a match
is not kept. -/
def interpose (cd : DisaggConfig) (f : CdFinder H) (env : CdEnv H) (req : MatchWindow H)
    (finder : Finder H) (s : SearchState H) : Option (CdFinder H) :=
  let clones := cdCloneLocalBlocks env f.latch.isSome req s.status s.onboarding
  (cdInterpose cfg cd env f.latch req s.status clones.1 clones.2).map fun result =>
    let search :=
      if f.finder.search.isNone && result.status = .matched 0 then none
      else some { s with status := result.status }
    { finder := { finder with search }
      latch := result.latch
      opened := match result.latch with
        | some state =>
          if result.opened then
            ⟨state.session, req.computedBlocks, state.localHitBlocks,
              (s.onboarding.shards.head?.map (·.startBlock)).getD 0⟩ :: f.opened
          else f.opened
        | none => f.opened }

/-- `route_find_blocks`, with `local_search` and `local_refresh` in full. -/
def findBlocks (cd : DisaggConfig) (chain : List H) (f : CdFinder H) (env : CdEnv H)
    (leader : Leader H) (numComputedTokens totalTokens : Nat) : Option (CdFinder H) :=
  let req := matchWindow cfg chain numComputedTokens totalTokens
  if req.blockPlhs.isEmpty then some f
  else (f.finder.findBlocks cfg chain leader numComputedTokens totalTokens).bind fun finder =>
    match finder.search with
    | none => some { f with finder }
    | some s =>
      if cfg.cdEnabled then f.interpose cfg cd env req finder s else some { f with finder }

def step (cd : DisaggConfig) (chain : List H) (f : CdFinder H) : CdOp H → Option (CdFinder H)
  | .poll env leader numComputedTokens totalTokens =>
    f.findBlocks cfg cd chain env leader numComputedTokens totalTokens
  | .progress i session =>
    (f.finder.progress i session).map fun finder => { f with finder }
  | .release => some { f with finder := ⟨none, f.finder.computed⟩ }
  | .unlatch => some { f with latch := none }

end CdFinder

end Kvbm.Tiering
