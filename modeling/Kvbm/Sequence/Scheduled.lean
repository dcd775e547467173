/-
A request's tokens, its blocks, and the schedule of its forward passes.

A request holds the ids of three kinds of blocks: assigned ones, which are registered, staged ones,
which have their tokens, and unassigned ones, which wait for them.  Over it lies a protocol of two
phases: a step is scheduled, which takes the blocks it needs, and then applied or reverted.

Of the tokens only their number is kept.  The manager is what it answers in a call.  A body that
stops the program returns `none`; of the other results the second part is the state afterwards.
-/
import Kvbm.Index.Basic
import Kvbm.Lib.Outcome

namespace Kvbm.Sequence

open Lib

/-- What the block manager answers: a prefix of what is asked for, or all of the blocks. -/
structure Manager where
  matchBlocks : Nat → List BlockId
  matchBlocks_le : ∀ n, (matchBlocks n).length ≤ n
  allocateBlocks : Nat → Option (List BlockId)
  allocateBlocks_length : ∀ {n ids}, allocateBlocks n = some ids → ids.length = n

structure RequestSequence where
  blockSize : Nat
  totalTokens : Nat
  assigned : List BlockId
  staged : List BlockId
  unassigned : List BlockId
  generatedTokens : Nat
  maxOutputTokens : Nat
  numInputTokens : Nat
  prefixMatchedBlocks : Nat
  deriving DecidableEq, Repr

namespace RequestSequence

def new (tokens maxOutputTokens blockSize : Nat) : RequestSequence :=
  ⟨blockSize, tokens, [], [], [], 0, maxOutputTokens, tokens, 0⟩

variable (r : RequestSequence)

def completeSequenceBlocks : Nat := r.totalTokens / r.blockSize

def allBlockIds : List BlockId := r.assigned ++ r.staged ++ r.unassigned

def isComplete : Prop := r.maxOutputTokens ≤ r.generatedTokens

instance : Decidable r.isComplete := inferInstanceAs (Decidable (_ ≤ _))

def remainingTokens : Nat := r.maxOutputTokens - r.generatedTokens

def newTokensForPrefill : Nat := r.totalTokens - r.prefixMatchedBlocks * r.blockSize

/-- `validate_no_duplicates`. -/
def Fresh (ids : List BlockId) : Prop := ids.Nodup ∧ ∀ id ∈ ids, id ∉ r.allBlockIds

instance (ids : List BlockId) : Decidable (r.Fresh ids) := inferInstanceAs (Decidable (_ ∧ _))

/-- Stops if there are blocks already, or if the manager gives one twice. -/
def matchAndAddPrefix (m : Manager) : Option (Nat × RequestSequence) :=
  let matched := m.matchBlocks r.completeSequenceBlocks
  if r.allBlockIds = [] ∧ matched.Nodup then
    some (matched.length, { r with
      assigned := matched
      prefixMatchedBlocks := r.prefixMatchedBlocks + matched.length })
  else none

def allocateBlocks (count : Nat) (m : Manager) : Bool × RequestSequence :=
  if count = 0 then (true, r)
  else match m.allocateBlocks count with
    | none => (false, r)
    | some ids =>
      if r.Fresh ids then (true, { r with unassigned := r.unassigned ++ ids }) else (false, r)

/-- As many unassigned blocks as there are complete token blocks without a block, in order. -/
def stagePending : RequestSequence :=
  let toStage := r.completeSequenceBlocks - (r.assigned.length + r.staged.length)
  { r with
    staged := r.staged ++ r.unassigned.take toStage
    unassigned := r.unassigned.drop toStage }

def registerStaged : RequestSequence := { r with assigned := r.assigned ++ r.staged, staged := [] }

def completeAndRegisterPending : RequestSequence := r.stagePending.registerStaged

/-- Whether a block boundary was crossed; stops if nothing more may be generated. -/
def appendToken : Option (Bool × RequestSequence) :=
  if r.isComplete then none
  else some ((r.totalTokens + 1) % r.blockSize == 0, { r with
    totalTokens := r.totalTokens + 1
    generatedTokens := r.generatedTokens + 1 })

/-- The loop over `append_token`, with whether any call crossed a boundary. -/
def appendAll : RequestSequence → Nat → Option (Bool × RequestSequence)
  | r, 0 => some (false, r)
  | r, n + 1 => r.appendToken.bind fun (crossed, r') =>
    (r'.appendAll n).map fun (later, r'') => (crossed || later, r'')

/-- Pop the last unassigned block, `count` times or until there is none. -/
def lifoPopUnassigned (count : Nat) : RequestSequence :=
  { r with unassigned := r.unassigned.take (r.unassigned.length - count) }

def release : RequestSequence := { r with assigned := [], staged := [], unassigned := [] }

/-- Stops if there are blocks already. -/
def reacquire (m : Manager) : Option (Bool × RequestSequence) :=
  let matched := m.matchBlocks r.completeSequenceBlocks
  let remaining := r.completeSequenceBlocks - matched.length
  let done (ids : List BlockId) : Bool × RequestSequence :=
    (true, { r with assigned := matched ++ ids, prefixMatchedBlocks := matched.length })
  if r.allBlockIds ≠ [] then none
  else if ¬ matched.Nodup then some (false, r)
  else if remaining = 0 then some (done [])
  else match m.allocateBlocks remaining with
    | none => some (false, r)
    | some ids => some (if Fresh { r with assigned := matched } ids then done ids else (false, r))

end RequestSequence

inductive SequenceState
  | idle
  | prefillScheduled (numTokens blocksAllocated : Nat)
  | decodeScheduled (blocksAllocated : Nat)
  | speculativeScheduled (numTokens blocksAllocated : Nat)
  deriving DecidableEq, Repr

/-- `blocks_allocated` of a scheduled state. -/
def SequenceState.blocks : SequenceState → Option Nat
  | .idle => none
  | .prefillScheduled _ b | .decodeScheduled b | .speculativeScheduled _ b => some b

inductive DecodeOutcome
  | continue
  | blockCompleted
  | maxLength
  | blockCompletedAndMaxLength
  deriving DecidableEq, Repr

inductive ScheduleError
  | notIdle (state : SequenceState)
  | prefillOverrun (position numTokens numInputTokens : Nat)
  | prefillComplete
  | prefillNotComplete (position numInputTokens : Nat)
  | allocationFailed (needed : Nat)
  | generationComplete (generated maxOutput : Nat)
  | wrongDanglingCount (expected actual : Nat)
  deriving DecidableEq, Repr

inductive ApplyError
  | wrongState (expected : String) (actual : SequenceState)
  | tokenOnNonFinalChunk
  | acceptedExceedsScheduled (accepted scheduled : Nat)
  | missingTokenOnFinalChunk
  | appendExceedsRemaining (requested remaining : Nat)
  deriving DecidableEq, Repr

structure SchedulableSequence where
  inner : RequestSequence
  state : SequenceState
  prefillPosition : Nat
  kvPosition : Nat
  deriving DecidableEq, Repr

namespace SchedulableSequence

def new (tokens maxOutputTokens blockSize : Nat) : SchedulableSequence :=
  ⟨.new tokens maxOutputTokens blockSize, .idle, 0, 0⟩

variable (s : SchedulableSequence)

def isPrefillComplete : Prop := s.inner.numInputTokens ≤ s.prefillPosition

instance : Decidable s.isPrefillComplete := inferInstanceAs (Decidable (_ ≤ _))

def tailTokens : Nat := s.inner.totalTokens - s.kvPosition

def requireIdle : Except ScheduleError Unit := ensure (s.state = .idle) (.notIdle s.state)

/-- The checks before a decode and before a speculative decode. -/
def requireDecodable : Except ScheduleError Unit :=
  s.requireIdle.bind fun _ =>
  (ensure s.isPrefillComplete
    (.prefillNotComplete s.prefillPosition s.inner.numInputTokens)).bind fun _ =>
  (ensure (¬ s.inner.isComplete)
    (.generationComplete s.inner.generatedTokens s.inner.maxOutputTokens)).bind fun _ =>
  ensure (s.tailTokens = 1) (.wrongDanglingCount 1 s.tailTokens)

def requireIdleForApply : Except ApplyError Unit :=
  ensure (s.state = .idle) (.wrongState "Idle" s.state)

def matchAndAddPrefix (m : Manager) : Option (Except ScheduleError Nat × SchedulableSequence) :=
  match s.requireIdle with
  | .error e => some (.error e, s)
  | .ok _ => (s.inner.matchAndAddPrefix m).map fun (count, inner) =>
    if 0 < count then
      let position := s.prefillPosition + count * inner.blockSize
      (.ok count, { s with inner, prefillPosition := position, kvPosition := position })
    else (.ok count, { s with inner })

/-- The end of every `schedule_*`: take the blocks and record them. -/
def provision (toAllocate : Nat) (m : Manager)
    (scheduled : Nat → SequenceState) : Except ScheduleError Unit × SchedulableSequence :=
  match s.inner.allocateBlocks toAllocate m with
  | (false, inner) => (.error (.allocationFailed toAllocate), { s with inner })
  | (true, inner) => (.ok (), { s with inner, state := scheduled toAllocate })

/-- `div_ceil`. -/
def blocksFor (tokens : Nat) : Nat := (tokens + s.inner.blockSize - 1) / s.inner.blockSize

def schedulePrefill (numTokens : Nat) (m : Manager) :
    Option (Except ScheduleError Unit × SchedulableSequence) :=
  let newPosition := s.prefillPosition + numTokens
  if s.state ≠ .idle then some (.error (.notIdle s.state), s)
  else if s.isPrefillComplete then some (.error .prefillComplete, s)
  -- the sum of a `usize` and a `usize` stops a build that checks for overflow
  else if 2 ^ 64 ≤ newPosition then none
  else if s.inner.numInputTokens < newPosition then
    some (.error (.prefillOverrun s.prefillPosition numTokens s.inner.numInputTokens), s)
  else some <| s.provision (s.blocksFor newPosition - s.inner.allBlockIds.length) m
    (.prefillScheduled numTokens)

def applyPrefill (token : Bool) : Option (Except ApplyError Unit × SchedulableSequence) :=
  match s.state with
  | .prefillScheduled numTokens _ =>
    let newPosition := s.prefillPosition + numTokens
    let isFinal := s.inner.numInputTokens ≤ newPosition
    if token ∧ ¬ isFinal then some (.error .tokenOnNonFinalChunk, s)
    else if isFinal ∧ ¬ token ∧ 0 < s.inner.maxOutputTokens then
      some (.error .missingTokenOnFinalChunk, s)
    else
      let inner := s.inner.completeAndRegisterPending
      (if token then inner.appendToken.map Prod.snd else some inner).map fun inner =>
        (.ok (), ⟨inner, .idle, newPosition, newPosition⟩)
  | other => some (.error (.wrongState "PrefillScheduled" other), s)

def scheduleDecode (m : Manager) : Except ScheduleError Unit × SchedulableSequence :=
  match s.requireDecodable with
  | .error e => (.error e, s)
  | .ok _ =>
    let registered := s.inner.assigned.length + s.inner.staged.length
    let pending := s.inner.completeSequenceBlocks - registered
    s.provision (pending + 1 - s.inner.unassigned.length) m .decodeScheduled

def outcome (blockCompleted isComplete : Bool) : DecodeOutcome :=
  match blockCompleted, isComplete with
  | false, false => .continue
  | true, false => .blockCompleted
  | false, true => .maxLength
  | true, true => .blockCompletedAndMaxLength

def applyDecode : Option (Except ApplyError DecodeOutcome × SchedulableSequence) :=
  match s.state with
  | .decodeScheduled _ => s.inner.appendToken.map fun (crossed, inner) =>
    (.ok (outcome crossed inner.isComplete), { s with
      inner := inner.completeAndRegisterPending
      state := .idle
      kvPosition := s.kvPosition + 1 })
  | other => some (.error (.wrongState "DecodeScheduled" other), s)

def scheduleSpeculative (numDraftTokens : Nat) (m : Manager) :
    Except ScheduleError Unit × SchedulableSequence :=
  match s.requireDecodable with
  | .error e => (.error e, s)
  | .ok _ =>
    let draft := min numDraftTokens s.inner.remainingTokens
    s.provision (s.blocksFor (s.inner.totalTokens + draft) - s.inner.allBlockIds.length) m
      (.speculativeScheduled draft)

/-- At most one block is kept for what comes next, and none at the end. -/
def lifoDropExcessUnassigned (r : RequestSequence) : RequestSequence :=
  r.lifoPopUnassigned (r.unassigned.length - if r.isComplete then 0 else 1)

def applySpeculative (accepted : Nat) :
    Option (Except ApplyError DecodeOutcome × SchedulableSequence) :=
  match s.state with
  | .speculativeScheduled scheduled _ =>
    if scheduled < accepted then some (.error (.acceptedExceedsScheduled accepted scheduled), s)
    else (s.inner.appendAll accepted).map fun (crossed, inner) =>
      (.ok (outcome crossed inner.isComplete), { s with
        inner := lifoDropExcessUnassigned inner.completeAndRegisterPending
        state := .idle
        kvPosition := s.kvPosition + accepted })
  | other => some (.error (.wrongState "SpeculativeScheduled" other), s)

def revertSchedule : Except ApplyError Unit × SchedulableSequence :=
  match s.state.blocks with
  | some b => (.ok (), { s with inner := s.inner.lifoPopUnassigned b, state := .idle })
  | none => (.error (.wrongState "any Scheduled state" s.state), s)

/-- Stops unless idle. -/
def dropUnassigned (count : Nat) : Option SchedulableSequence :=
  if s.state = .idle then some { s with inner := s.inner.lifoPopUnassigned count } else none

def release : Except ApplyError Unit × SchedulableSequence :=
  match s.requireIdleForApply with
  | .error e => (.error e, s)
  | .ok _ => (.ok (), { s with inner := s.inner.release })

def reacquire (m : Manager) : Option (Except ApplyError Bool × SchedulableSequence) :=
  match s.requireIdleForApply with
  | .error e => some (.error e, s)
  | .ok _ => (s.inner.reacquire m).map fun (success, inner) => (.ok success, { s with inner })

def appendTokens (tokens : Nat) : Option (Except ApplyError Unit × SchedulableSequence) :=
  match s.requireIdleForApply with
  | .error e => some (.error e, s)
  | .ok _ =>
    if s.inner.remainingTokens < tokens then
      some (.error (.appendExceedsRemaining tokens s.inner.remainingTokens), s)
    else (s.inner.appendAll tokens).map fun (_, inner) => (.ok (), { s with inner })

end SchedulableSequence

/-- The public operations. -/
inductive Act
  | matchAndAddPrefix (m : Manager)
  | schedulePrefill (numTokens : Nat) (m : Manager)
  | applyPrefill (token : Bool)
  | scheduleDecode (m : Manager)
  | applyDecode
  | scheduleSpeculative (numDraftTokens : Nat) (m : Manager)
  | applySpeculative (accepted : Nat)
  | revertSchedule
  | dropUnassigned (count : Nat)
  | release
  | reacquire (m : Manager)
  | appendTokens (tokens : Nat)

def step (s : SchedulableSequence) : Act → Option SchedulableSequence
  | .matchAndAddPrefix m => (s.matchAndAddPrefix m).map Prod.snd
  | .schedulePrefill n m => (s.schedulePrefill n m).map Prod.snd
  | .applyPrefill token => (s.applyPrefill token).map Prod.snd
  | .scheduleDecode m => some (s.scheduleDecode m).2
  | .applyDecode => s.applyDecode.map Prod.snd
  | .scheduleSpeculative n m => some (s.scheduleSpeculative n m).2
  | .applySpeculative accepted => (s.applySpeculative accepted).map Prod.snd
  | .revertSchedule => some s.revertSchedule.2
  | .dropUnassigned count => s.dropUnassigned count
  | .release => some s.release.2
  | .reacquire m => (s.reacquire m).map Prod.snd
  | .appendTokens tokens => (s.appendTokens tokens).map Prod.snd

end Kvbm.Sequence
