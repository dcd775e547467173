/-
The tracker of the event consolidator.

Several sources announce the same blocks.  The engines name a block by an opaque hash of their own
and give its tokens, from which the block's sequence hash is computed; KVBM names it by its
sequence hash and mostly without tokens.  The tracker keeps which sources hold a block, and queues
a store for the first source with publishable data and a remove when the last source lets go.
-/
import Mathlib.Algebra.GroupWithZero.Nat
import Mathlib.Data.Finset.Basic

namespace Kvbm.Consolidator

open Function

inductive EventSource
  | vllm
  | trtllm
  | kvbm
  deriving DecidableEq, Repr

/-- The hashing of token blocks, which is done elsewhere.  Only full blocks are hashed, so there
are none without tokens or with a block size of `0`. -/
structure Hashing (H B : Type*) where
  /-- The lineage hash, as a root, and the block hash of the first block of some tokens. -/
  firstBlock : List Nat → Nat → Option String → Option (H × B)
  extend : H → B → H
  full : ∀ {tokenIds blockSize loraName b}, firstBlock tokenIds blockSize loraName = some b →
    tokenIds ≠ [] ∧ blockSize ≠ 0

inductive ConsolidatedEvent (H : Type*)
  | store (seqHash : H) (tokenIds : List Nat) (blockSize : Nat) (loraName : Option String)
      (source : EventSource)
  | remove (seqHash : H) (source : EventSource)
  | clearAll
  deriving DecidableEq, Repr

structure BlockState where
  sources : Finset EventSource
  /-- A store was queued for the block. -/
  published : Bool
  deriving DecidableEq

structure Tracker (H : Type*) where
  blocks : H → Option BlockState
  externalToSeq : EventSource × String → Option H
  eventQueue : List (ConsolidatedEvent H)

namespace Tracker

variable {H B : Type*}

def new : Tracker H := ⟨fun _ => none, fun _ => none, []⟩

/-- The block size is passed on as a `u32`. -/
def computePlh (hashing : Hashing H B) (parent : Option H) (tokenIds : List Nat) (blockSize : Nat)
    (loraName : Option String) : Option H :=
  (hashing.firstBlock tokenIds (blockSize % 2 ^ 32) loraName).map fun first =>
    match parent with
    | none => first.1
    | some p => hashing.extend p first.2

variable [DecidableEq H]

/-- A store from an engine.  A parent that is not known counts as none. -/
def handleStore (hashing : Hashing H B) (t : Tracker H) (source : EventSource)
    (externalHash : String) (parentExternalHash : Option String) (tokenIds : List Nat)
    (blockSize : Nat) (loraName : Option String) : Tracker H × Bool :=
  let parent := parentExternalHash.bind fun p => t.externalToSeq (source, p)
  match computePlh hashing parent tokenIds blockSize loraName with
  | none => (t, false)
  | some plh =>
    if t.externalToSeq (source, externalHash) = some plh then (t, false)
    else
      let external := update t.externalToSeq (source, externalHash) (some plh)
      let event := .store plh tokenIds blockSize loraName source
      match t.blocks plh with
      | some state =>
        let state' := ⟨insert source state.sources, true⟩
        if state.published then
          (⟨update t.blocks plh (some state'), external, t.eventQueue⟩, false)
        else
          (⟨update t.blocks plh (some state'), external, t.eventQueue ++ [event]⟩, true)
      | none =>
        (⟨update t.blocks plh (some ⟨{source}, true⟩), external, t.eventQueue ++ [event]⟩, true)

variable (t : Tracker H)

def dropSource (source : EventSource) (plh : H) (state : BlockState) : Tracker H × Bool :=
  let sources := state.sources.erase source
  if sources = ∅ then
    if state.published then
      (⟨update t.blocks plh none, t.externalToSeq, t.eventQueue ++ [.remove plh source]⟩, true)
    else (⟨update t.blocks plh none, t.externalToSeq, t.eventQueue⟩, false)
  else
    (⟨update t.blocks plh (some ⟨sources, state.published⟩), t.externalToSeq, t.eventQueue⟩, false)

def handleRemove (source : EventSource) (externalHash : String) : Tracker H × Bool :=
  match t.externalToSeq (source, externalHash) with
  | none => (t, false)
  | some plh =>
    let t' := { t with
      externalToSeq := update t.externalToSeq (source, externalHash) none }
    match t.blocks plh with
    | none => (t', false)
    | some state => t'.dropSource source plh state

/-- A store from KVBM.  Without tokens it registers the block and publishes nothing. -/
def handleKvbmStore (seqHash : H) (tokenIds : List Nat) (blockSize : Nat)
    (loraName : Option String) : Tracker H × Bool :=
  let publishable := tokenIds ≠ [] ∧ 0 < blockSize
  let event := .store seqHash tokenIds blockSize loraName .kvbm
  match t.blocks seqHash with
  | some state =>
    if publishable ∧ state.published = false then
      ({ t with
        blocks := update t.blocks seqHash (some ⟨insert .kvbm state.sources, true⟩)
        eventQueue := t.eventQueue ++ [event] }, true)
    else
      ({ t with
        blocks := update t.blocks seqHash
          (some ⟨insert .kvbm state.sources, state.published⟩) }, false)
  | none =>
    if publishable then
      ({ t with
        blocks := update t.blocks seqHash (some ⟨{.kvbm}, true⟩)
        eventQueue := t.eventQueue ++ [event] }, true)
    else
      ({ t with blocks := update t.blocks seqHash (some ⟨{.kvbm}, false⟩) }, false)

def handleKvbmRemove (seqHash : H) : Tracker H × Bool :=
  match t.blocks seqHash with
  | none => (t, false)
  | some state => t.dropSource .kvbm seqHash state

def handleClearAll : Tracker H := ⟨fun _ => none, fun _ => none, t.eventQueue ++ [.clearAll]⟩

end Tracker

/-- The frameworks whose events are tagged as an engine's. -/
inductive EngineSource
  | vllm
  | trtllm
  deriving DecidableEq, Repr

def EngineSource.tag : EngineSource → EventSource
  | vllm => .vllm
  | trtllm => .trtllm

inductive Call (H : Type*)
  | store (source : EngineSource) (externalHash : String) (parentExternalHash : Option String)
      (tokenIds : List Nat) (blockSize : Nat) (loraName : Option String)
  | remove (source : EngineSource) (externalHash : String)
  | kvbmStore (seqHash : H) (tokenIds : List Nat) (blockSize : Nat) (loraName : Option String)
  | kvbmRemove (seqHash : H)
  | clearAll

variable {H B : Type*} [DecidableEq H]

def Tracker.call (hashing : Hashing H B) (t : Tracker H) : Call H → Tracker H
  | .store source external parent tokenIds blockSize loraName =>
    (t.handleStore hashing source.tag external parent tokenIds blockSize loraName).1
  | .remove source external => (t.handleRemove source.tag external).1
  | .kvbmStore seqHash tokenIds blockSize loraName =>
    (t.handleKvbmStore seqHash tokenIds blockSize loraName).1
  | .kvbmRemove seqHash => (t.handleKvbmRemove seqHash).1
  | .clearAll => t.handleClearAll

/-- The calls of a list, from a new tracker. -/
def Tracker.run (hashing : Hashing H B) (calls : List (Call H)) : Tracker H :=
  calls.foldl (Tracker.call hashing) Tracker.new

end Kvbm.Consolidator
