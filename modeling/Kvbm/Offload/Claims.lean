/-
Which hashes a block pipeline offloads.

The evaluator asks the destination for the hash of a block, then the tracker of the hashes in
flight, and then claims the hash.  Meanwhile the transfers that hold a claim register their blocks
and drop their guards, and the destination evicts blocks.  Each of these is a step of its own.
-/
import Kvbm.Index.Basic

namespace Kvbm.Offload

/-- What the block under evaluation has passed. -/
inductive Evaluation
  | nothing
  | presence
  | policies
  deriving DecidableEq

structure BlockPipeline (H : Type) where
  /-- The hashes registered in the destination. -/
  registered : Finset H
  /-- The pending tracker. -/
  pending : Finset H
  evaluating : Option (H × Evaluation)
  /-- The pending guards, one with each block that passed. -/
  guards : List H

inductive PipelineAct (H : Type)
  | evaluate (hash : H)
  | checkPresence
  | checkPending
  | tryClaim
  /-- Another policy does not pass the block, or its transfer is cancelled. -/
  | reject
  | register (hash : H)
  | dropGuard (hash : H)
  | evict (hash : H)

namespace BlockPipeline

variable {H : Type} [DecidableEq H] (p : BlockPipeline H)

/-- The evaluator goes on with the block that has passed so much. -/
def after (passed : Evaluation) (f : H → BlockPipeline H) : Option (BlockPipeline H) :=
  p.evaluating.bind fun e => if e.2 = passed then some (f e.1) else none

/-- The block passes unless its hash is found. -/
def filter (found : Finset H) (next : Evaluation) (hash : H) : BlockPipeline H :=
  { p with evaluating := if hash ∈ found then none else some (hash, next) }

def tryClaim (hash : H) : BlockPipeline H :=
  if hash ∈ p.pending then { p with evaluating := none }
  else ⟨p.registered, insert hash p.pending, none, hash :: p.guards⟩

def step : PipelineAct H → Option (BlockPipeline H)
  | .evaluate hash =>
    if p.evaluating = none then some { p with evaluating := some (hash, .nothing) } else none
  | .checkPresence => p.after .nothing (p.filter p.registered .presence)
  | .checkPending => p.after .presence (p.filter p.pending .policies)
  | .tryClaim => p.after .policies p.tryClaim
  | .reject => some { p with evaluating := none }
  | .register hash =>
    if hash ∈ p.guards then some { p with registered := insert hash p.registered } else none
  | .dropGuard hash =>
    if hash ∈ p.guards then
      some { p with pending := p.pending.erase hash, guards := p.guards.erase hash }
    else none
  | .evict hash => some { p with registered := p.registered.erase hash }

end BlockPipeline

end Kvbm.Offload
