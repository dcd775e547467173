/-
The search behind `get_num_new_matched_tokens`.

The scheduler polls for a request again and again, with another computed prefix and another
length each time.  The engine keeps the blocks it has asked for in shards that lie side by side,
issues a new shard where a poll reaches below the first or past the last, and answers how many
blocks after the computed prefix are matched without a hole.  When the blocks are to be loaded,
their sources are collected from the shards.

Block indices count from the start of the chain of the request's hashes, as in the source.  A
function that can stop the program returns `none` there.
-/
import Kvbm.Index.Basic
import Kvbm.Lib.Slice

namespace Kvbm.Tiering

open Lib (slice)

variable {H : Type} [DecidableEq H]

structure SearchConfig where
  /-- Debug assertions and overflow checks are compiled in. -/
  debug : Bool
  blockSize : Nat
  blockSize_pos : 0 < blockSize
  /-- Conditional disaggregation is configured. -/
  cdEnabled : Bool

variable (cfg : SearchConfig)

def debugAssert (p : Bool) : Option Unit := if cfg.debug && !p then none else some ()

/-- The cast `as u32`. -/
def asU32 (n : Nat) : Nat := n % 4294967296

/-- The difference of two `usize` in a release build. -/
def wrappingSub (a b : Nat) : Nat := if b ≤ a then a - b else 18446744073709551616 - (b - a)

/-! ### Sessions -/

/-- A pinned block of the host cache. -/
structure G2Block (H : Type) where
  blockId : BlockId
  sequenceHash : H
  deriving DecidableEq, Repr

structure MatchBreakdown where
  hostBlocks : Nat
  diskBlocks : Nat
  objectBlocks : Nat
  deriving DecidableEq, Repr

inductive OnboardingStatus
  | searching
  | holding
  | preparing
  | prepared
  | staging
  | complete (matchedBlocks : Nat)
  deriving DecidableEq, Repr

/-- `FindMatchesResult`. -/
inductive FindSession (H : Type)
  | ready (blocks : List (G2Block H)) (breakdown : MatchBreakdown)
  /-- The blocks are there once they have been staged. -/
  | asyncSession (status : OnboardingStatus) (blocks : Option (List (G2Block H)))
  deriving DecidableEq, Repr

namespace FindSession

/-- `shard_is_terminal`. -/
def isTerminal : FindSession H → Bool
  | .ready _ _ => true
  | .asyncSession (.complete _) _ => true
  | .asyncSession .holding _ => true
  | .asyncSession .prepared _ => true
  | .asyncSession _ _ => false

/-- `shard_terminal_matched_count`. -/
def terminalMatchedCount : FindSession H → Option Nat
  | .ready _ b => some (b.hostBlocks + b.diskBlocks + b.objectBlocks)
  | .asyncSession (.complete matched) _ => some matched
  | .asyncSession .holding blocks => some ((blocks.map List.length).getD 0)
  | .asyncSession .prepared blocks => some ((blocks.map List.length).getD 0)
  | .asyncSession _ _ => (debugAssert cfg false).map fun _ => 0

/-- What `take_g2_blocks` takes, and `clone_g2_blocks` copies. -/
def g2Blocks : FindSession H → Option (List (G2Block H))
  | .ready blocks _ => some blocks
  | .asyncSession _ blocks => blocks

/-- The session holds one block for each hash it has matched, and has matched the first ones of
those it was issued for. -/
def Holds (matched : Nat) (blocks : Option (List (G2Block H))) (queried : List H) : Prop :=
  (blocks.getD []).length = matched ∧ (blocks.getD []).map (·.sequenceHash) <+: queried

instance (matched : Nat) (blocks : Option (List (G2Block H))) (queried : List H) :
    Decidable (Holds matched blocks queried) :=
  inferInstanceAs (Decidable (_ ∧ _))

/-- What is expected of a session that has ended. -/
def Answers : FindSession H → List H → Prop
  | .ready blocks b, queried =>
    Holds (b.hostBlocks + b.diskBlocks + b.objectBlocks) (some blocks) queried
  | .asyncSession (.complete matched) blocks, queried => Holds matched blocks queried
  | .asyncSession .holding blocks, queried => Holds (blocks.getD []).length blocks queried
  | .asyncSession .prepared blocks, queried => Holds (blocks.getD []).length blocks queried
  | .asyncSession _ _, _ => True

instance : (session : FindSession H) → (queried : List H) → Decidable (session.Answers queried)
  | .ready _ _, _ => inferInstanceAs (Decidable (Holds _ _ _))
  | .asyncSession (.complete _) _, _ => inferInstanceAs (Decidable (Holds _ _ _))
  | .asyncSession .holding _, _ => inferInstanceAs (Decidable (Holds _ _ _))
  | .asyncSession .prepared _, _ => inferInstanceAs (Decidable (Holds _ _ _))
  | .asyncSession .searching _, _ => inferInstanceAs (Decidable True)
  | .asyncSession .preparing _, _ => inferInstanceAs (Decidable True)
  | .asyncSession .staging _, _ => inferInstanceAs (Decidable True)

end FindSession

/-- Issues a search for some hashes; it may fail. -/
structure Leader (H : Type) where
  findMatches : List H → Option (FindSession H)
  answers : ∀ {hashes session}, findMatches hashes = some session → session.Answers hashes

structure OnboardingShard (H : Type) where
  startBlock : Nat
  numQueriedBlocks : Nat
  findSession : FindSession H
  /-- The hashes the session was issued for, which the source does not keep. -/
  queried : List H
  deriving DecidableEq, Repr

def OnboardingShard.endBlock (s : OnboardingShard H) : Nat := s.startBlock + s.numQueriedBlocks

structure OnboardingState (H : Type) where
  numComputedTokens : Nat
  shards : List (OnboardingShard H)
  deriving DecidableEq, Repr

namespace OnboardingState

def allShardsTerminal (st : OnboardingState H) : Bool := st.shards.all (·.findSession.isTerminal)

/-- What `debug_assert_contiguous` asserts. -/
def contiguous : List (OnboardingShard H) → Bool
  | a :: b :: rest => b.startBlock = a.endBlock && contiguous (b :: rest)
  | _ => true

/-- The loop of `matched_span`: the end of the match, up to the first hole. -/
def spanLoop : List (OnboardingShard H) → Nat → Option Nat
  | [], runningEnd => some runningEnd
  | shard :: rest, runningEnd => do
      debugAssert cfg (shard.startBlock = runningEnd)
      let matched ← shard.findSession.terminalMatchedCount cfg
      if matched < shard.numQueriedBlocks then some (runningEnd + matched)
      else spanLoop rest (runningEnd + shard.numQueriedBlocks)

def matchedSpan (st : OnboardingState H) : Option (Nat × Nat) :=
  match st.shards with
  | [] => none
  | head :: _ => do
      debugAssert cfg st.allShardsTerminal
      let finalEnd ← spanLoop cfg st.shards head.startBlock
      some (max head.startBlock (st.numComputedTokens / cfg.blockSize), finalEnd)

end OnboardingState

/-! ### Reconciliation -/

inductive MatchCheckOutcome
  | inProgress
  | noMatch
  | found (matchedTokens : Nat)
  deriving DecidableEq, Repr

def computeLastBlockIndex (totalTokens blockSize : Nat) : Nat :=
  if totalTokens % blockSize = 0 then totalTokens / blockSize - 1 else totalTokens / blockSize

variable (leader : Leader H)

/-- The inner result is `none` when the leader fails. -/
def issueShard (hashes : List H) (start stop : Nat) : Option (Option (OnboardingShard H)) := do
  debugAssert cfg (start < stop)
  debugAssert cfg (stop ≤ hashes.length)
  if start ≤ stop ∧ stop ≤ hashes.length then
    some ((leader.findMatches (slice hashes start stop)).map fun session =>
      ⟨start, stop - start, session, slice hashes start stop⟩)
  else none

/-- The computed prefix has moved: what is above it is masked, and what is below the first shard
is searched.  The flag is `false` when the leader fails. -/
def reconcileHead (hashes : List H) (st : OnboardingState H) (new : Nat) :
    Option (OnboardingState H × Bool) :=
  let old := st.numComputedTokens
  if old < new then
    if (new - old) % cfg.blockSize = 0 then some ({ st with numComputedTokens := new }, true)
    else none
  else if new < old then
    if (old - new) % cfg.blockSize = 0 then
      match st.shards with
      | [] => none
      | head :: _ => do
          let newStart := new / cfg.blockSize
          debugAssert cfg (newStart ≤ head.startBlock)
          if newStart < head.startBlock then
            match ← issueShard cfg leader hashes newStart head.startBlock with
            | none => some (st, false)
            | some shard => some (⟨new, shard :: st.shards⟩, true)
          else some ({ st with numComputedTokens := new }, true)
    else none
  else some (st, true)

/-- The sequence has grown: what is past the last shard is searched. -/
def reconcileTail (hashes : List H) (st : OnboardingState H) (totalTokens : Nat) :
    Option (OnboardingState H × Bool) :=
  match st.shards.getLast? with
  | none => none
  | some last =>
    let lastIndex := computeLastBlockIndex totalTokens cfg.blockSize
    if last.endBlock < lastIndex then do
      match ← issueShard cfg leader hashes last.endBlock lastIndex with
      | none => some (st, false)
      | some shard => some ({ st with shards := st.shards ++ [shard] }, true)
    else some (st, true)

def reconcileState (hashes : List H) (st : OnboardingState H) (new totalTokens : Nat) :
    Option (OnboardingState H × Bool) := do
  debugAssert cfg (!st.shards.isEmpty)
  debugAssert cfg (OnboardingState.contiguous st.shards)
  if new % cfg.blockSize = 0 then
    let (st, ok) ← reconcileHead cfg leader hashes st new
    if ok then
      let (st, ok) ← reconcileTail cfg leader hashes st totalTokens
      if ok then
        debugAssert cfg (OnboardingState.contiguous st.shards)
        some (st, true)
      else some (st, false)
    else some (st, false)
  else none

def computeOutcome (st : OnboardingState H) : Option MatchCheckOutcome :=
  if st.allShardsTerminal then do
    let (effectiveStart, finalEnd) ← st.matchedSpan cfg
    some (.found ((finalEnd - effectiveStart) * cfg.blockSize))
  else some .inProgress

/-! ### Polls -/

/-- One poll's view of the request. -/
structure MatchWindow (H : Type) where
  prefixPlhs : List H
  blockPlhs : List H
  computedBlocks : Nat
  deriving DecidableEq, Repr

/-- `derive_window` and its `view`, over the chain of the request. -/
def matchWindow (chain : List H) (numComputedTokens totalTokens : Nat) : MatchWindow H :=
  let computedBlocks := numComputedTokens / cfg.blockSize
  let eligibleBlocks := min ((totalTokens - 1) / cfg.blockSize) chain.length
  { prefixPlhs := chain.take (min computedBlocks chain.length)
    blockPlhs := slice chain (min computedBlocks eligibleBlocks) eligibleBlocks
    computedBlocks := asU32 computedBlocks }

inductive MatchStatus
  | matched (hitBlocks : Nat)
  | pending
  | lost
  deriving DecidableEq, Repr

structure SearchState (H : Type) where
  onboarding : OnboardingState H
  /-- The hashes of the blocks seen so far, by block index. -/
  buffer : List H
  status : MatchStatus
  deriving DecidableEq, Repr

/-- `copy_from_slice` into a range of the buffer. -/
def copyAt (buffer : List H) (i : Nat) (src : List H) : List H :=
  buffer.take i ++ src ++ buffer.drop (i + src.length)

/-- What is below the window is padding. -/
def buildBuffer (computedBlocks : Nat) (plhs : List H) : Option (List H) :=
  plhs.head?.map fun first =>
    copyAt (List.replicate (computedBlocks + plhs.length) first) computedBlocks plhs

def mergeBuffer (buffer : List H) (computedBlocks : Nat) (plhs : List H) : Option (List H) :=
  match plhs.head? with
  | none => some buffer
  | some first => do
      debugAssert cfg (computedBlocks ≤ buffer.length)
      let last := computedBlocks + plhs.length
      some (copyAt (buffer ++ List.replicate (last - buffer.length) first) computedBlocks plhs)

/-- The poll sees what the last one saw, as far as its ends tell. -/
def refreshWindowUnchanged (s : SearchState H) (req : MatchWindow H) : Bool :=
  !req.blockPlhs.isEmpty &&
    s.onboarding.numComputedTokens = req.computedBlocks * cfg.blockSize &&
    s.buffer.length = req.computedBlocks + req.blockPlhs.length &&
    s.buffer[req.computedBlocks]? = req.blockPlhs.head? &&
    s.buffer.getLast? = req.blockPlhs.getLast?

def matchStatus : MatchCheckOutcome → MatchStatus
  | .inProgress => .pending
  | .noMatch => .matched 0
  | .found matchedTokens => .matched (asU32 (matchedTokens / cfg.blockSize))

/-- `perform_search`, and what `local_search` makes of its failures; no search is kept when the
inner result is `none`. -/
def performSearch (req : MatchWindow H) : Option (Option (SearchState H)) :=
  if req.blockPlhs.isEmpty then some none
  else do
    let buffer ← buildBuffer req.computedBlocks req.blockPlhs
    match ← issueShard cfg leader buffer req.computedBlocks
        (req.computedBlocks + req.blockPlhs.length) with
    | none => some none
    | some shard =>
      let st : OnboardingState H := ⟨req.computedBlocks * cfg.blockSize, [shard]⟩
      let outcome ← computeOutcome cfg st
      if (outcome = .found 0 || outcome = .noMatch) && !cfg.cdEnabled then some none
      else some (some ⟨st, buffer, matchStatus cfg outcome⟩)

/-- `perform_refresh`; the search is lost when the leader fails. -/
def performRefresh (s : SearchState H) (req : MatchWindow H) : Option (SearchState H) := do
  let buffer ← mergeBuffer cfg s.buffer req.computedBlocks req.blockPlhs
  let totalTokens := (req.computedBlocks + req.blockPlhs.length) * cfg.blockSize + 1
  let (st, ok) ← reconcileState cfg leader buffer s.onboarding
    (req.computedBlocks * cfg.blockSize) totalTokens
  if ok then
    let outcome ← computeOutcome cfg st
    some ⟨st, buffer, matchStatus cfg outcome⟩
  else some ⟨st, buffer, .lost⟩

/-- `local_refresh`, up to what conditional disaggregation adds. -/
def localRefresh (s : SearchState H) (req : MatchWindow H) : Option (SearchState H) :=
  if refreshWindowUnchanged cfg s req then do
    let outcome ← computeOutcome cfg s.onboarding
    some { s with status := matchStatus cfg outcome }
  else performRefresh cfg leader s req

/-! ### Collecting the sources -/

/-- The blocks of an allocation that the accepted ones are loaded into. -/
def selectOnboardBlockIds (dest : List BlockId) (numComputedTokens numExternalTokens : Nat) :
    List BlockId :=
  let numComputedBlocks := numComputedTokens / cfg.blockSize
  let stop := min (numComputedBlocks + numExternalTokens / cfg.blockSize) dest.length
  slice dest (min numComputedBlocks stop) stop

/-- The loop of `collect_g2_blocks`: take the blocks of shards until there are enough. -/
def collectLoop (need : Nat) :
    List (OnboardingShard H) → List (G2Block H) → Option (List (G2Block H))
  | [], collected => some collected
  | shard :: rest, collected =>
    if need ≤ collected.length then some collected
    else shard.findSession.g2Blocks.bind fun blocks => collectLoop need rest (collected ++ blocks)

/-- The inner result is `none` on an error. -/
def collectG2Blocks (st : OnboardingState H) (desired : Nat) : Option (Option (List (G2Block H))) :=
  match st.shards with
  | [] => none
  | head :: _ => do
      debugAssert cfg st.allShardsTerminal
      let (effectiveStart, finalEnd) ← st.matchedSpan cfg
      debugAssert cfg (effectiveStart ≤ finalEnd)
      if wrappingSub finalEnd effectiveStart < desired then some none
      else
        let leadingSkip := effectiveStart - head.startBlock
        some ((collectLoop (leadingSkip + desired) st.shards []).bind fun collected =>
          if collected.length < leadingSkip then none
          else if (collected.drop leadingSkip).length < desired then none
          else some ((collected.drop leadingSkip).take desired))

/-! ### The polls of one request -/

/-- The search of a request, between polls. -/
structure Finder (H : Type) where
  search : Option (SearchState H)
  /-- The computed prefix, in blocks, of the last poll that reached the search. -/
  computed : Nat
  deriving DecidableEq, Repr

inductive FindOp (H : Type)
  | poll (leader : Leader H) (numComputedTokens totalTokens : Nat)
  /-- The session of a shard goes on. -/
  | progress (shard : Nat) (session : FindSession H)
  /-- The handle of the search is dropped, or its blocks are loaded. -/
  | release

namespace Finder

/-- `route_find_blocks`: a poll with nothing to look for does not touch the search. -/
def findBlocks (chain : List H) (f : Finder H) (leader : Leader H)
    (numComputedTokens totalTokens : Nat) : Option (Finder H) :=
  let req := matchWindow cfg chain numComputedTokens totalTokens
  if req.blockPlhs.isEmpty then some f
  else
    let search := match f.search with
      | none => performSearch cfg leader req
      | some s => (localRefresh cfg leader s req).map some
    search.map fun search => ⟨search, numComputedTokens / cfg.blockSize⟩

/-- A session that has not ended moves on. -/
def progress (f : Finder H) (i : Nat) (session : FindSession H) : Option (Finder H) := do
  let s ← f.search
  let shard ← s.onboarding.shards[i]?
  if shard.findSession.isTerminal then none
  else
    let shards := s.onboarding.shards.set i { shard with findSession := session }
    some { f with search := some { s with onboarding := { s.onboarding with shards } } }

def step (chain : List H) (f : Finder H) : FindOp H → Option (Finder H)
  | .poll leader numComputedTokens totalTokens =>
    f.findBlocks cfg chain leader numComputedTokens totalTokens
  | .progress i session => f.progress i session
  | .release => some ⟨none, f.computed⟩

end Finder

end Kvbm.Tiering
