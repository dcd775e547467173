/-
Registration transactions.

A register handler takes a permit, stages the new authority, writes the registry, commits and
finalises; whatever fails on the way is rolled back.  An unregister handler and the callback of a
removed registry entry revoke what was registered.  Handlers run side by side: each step below is
one call into a component that does its work under its own lock, and between two steps of a handler
any other handler may run.

A handler is where it is in the source, together with its local variables.  A step that calls
something outside of the model (a feature manager other than the indexer, the messenger, the
registry's backend) may fail there; the argument `ok` of a step says whether it does.
-/
import Kvbm.Hub.Bundle.Directory
import Kvbm.Hub.Tier.Projection
import Kvbm.Hub.Registration.Credentials

namespace Kvbm.Hub.Registration

open Lib Hub.Bundle

/-- How a rollback goes on when `remove_registry_incarnation` is done. -/
inductive After
  | done
  /-- look whether an entry is left, and fail closed -/
  | reserve (permit : RegistrationPermit)
  /-- the restored entry is gone; now the attempted one -/
  | retreat (permit : RegistrationPermit) (attempted : RegistryIncarnation)
  deriving DecidableEq, Repr

/-- How a handler goes on when the indexer's `on_unregister` is done. -/
inductive Rest
  /-- the end of a rollback -/
  | done
  /-- the end of a registration that leaves the indexer -/
  | dropped
  /-- `revoke`: give the credential state back -/
  | finish (incarnation : RegistryIncarnation) (after : After)
  /-- a rollback that was revoked on the way: take the restored entry out again -/
  | remove (restored : RegistryIncarnation)
  /-- `restore_registration_after_registry`: the loop over the features goes on -/
  | resume (permit : RegistrationPermit) (participates : Bool)
      (attempted restored : RegistryIncarnation)
  deriving DecidableEq, Repr

/-- Where a handler is.  Each constructor is named for the call that comes next. -/
inductive Point (H : Type)
  -- `register_instance`
  | stage (permit : RegistrationPermit) (participates : Bool)
  | write (permit : RegistrationPermit) (participates : Bool)
  | record (permit : RegistrationPermit) (participates : Bool) (incarnation : RegistryIncarnation)
  | bind (permit : RegistrationPermit) (participates : Bool) (incarnation : RegistryIncarnation)
  | dropPlacements (permit : RegistrationPermit) (participates : Bool)
      (incarnation : RegistryIncarnation)
  | commit (permit : RegistrationPermit) (participates : Bool) (incarnation : RegistryIncarnation)
  | finalize (permit : RegistrationPermit) (participates : Bool) (incarnation : RegistryIncarnation)
  -- `rollback_failed_registry_write`
  | unstage (permit : RegistrationPermit) (participates : Bool)
  | abortUnchanged (permit : RegistrationPermit) (participates : Bool)
  -- `rollback_registration` and `restore_registration`
  | restoreWrite (permit : RegistrationPermit) (participates : Bool)
      (attempted : RegistryIncarnation)
  | restoreStage (permit : RegistrationPermit) (participates : Bool)
      (attempted restored : RegistryIncarnation)
  | restoreFeatures (permit : RegistrationPermit) (participates : Bool)
      (attempted restored : RegistryIncarnation)
  | restoreBind (permit : RegistrationPermit) (participates : Bool)
      (attempted restored : RegistryIncarnation)
  | restorePlacements (permit : RegistrationPermit) (participates : Bool)
      (attempted restored : RegistryIncarnation)
  | abortRestored (permit : RegistrationPermit) (participates : Bool)
      (attempted restored : RegistryIncarnation)
  | restoreFinalize (restored : RegistryIncarnation)
  | reserve (permit : RegistrationPermit)
  | failClosed (permit : RegistrationPermit) (reservation : Option RegistryIncarnation)
  -- `remove_registry_incarnation` and `revoke`
  | remove (incarnation : RegistryIncarnation) (after : After)
  | revoke (incarnation : RegistryIncarnation) (after : After)
  | onUnregister (rest : Rest)
  | unregisterPlacements (rest : Rest)
  | finishRevocation (incarnation : RegistryIncarnation) (after : After)
  -- `unregister_instance`
  | removeUnregister (registration : CommittedRegistration)
  | restoreUnregister (registration : CommittedRegistration)
  -- `install_tier_placement_snapshot`
  | install (snapshot : Tier.TierPlacementSnapshot H) (authorizedEpoch : RegistrationEpoch)

/-- A running handler. -/
structure Task (H : Type) where
  owner : InstanceId
  point : Point H

structure Server (H : Type) [DecidableEq H] where
  credentials : InstanceId → Slot
  registry : Registry
  /-- Removals of expired entries whose callback has not been called. -/
  notices : Finset (InstanceId × RegistryIncarnation)
  directory : BundleDirectory H
  placements : Tier.Projection H
  /-- How many credentials and epochs have been generated; no two are the same. -/
  minted : Nat
  tasks : Nat → Option (Task H)

variable {H : Type}

def After.point : After → Option (Point H)
  | done => none
  | reserve permit => some (.reserve permit)
  | retreat permit attempted => some (.remove attempted (.reserve permit))

def Rest.point : Rest → Option (Point H)
  | done | dropped => none
  | finish incarnation after => some (.finishRevocation incarnation after)
  | remove restored => some (.remove restored .done)
  | resume permit participates attempted restored =>
    some (.restoreBind permit participates attempted restored)

variable (permit : RegistrationPermit)

/-- Where `rollback_failed_registry_write` begins. -/
def RegistrationPermit.failedWrite (participates : Bool) : Point H :=
  match permit.previous with
  | none => .abortUnchanged permit participates
  | some _ => .unstage permit participates

/-- Where `rollback_registration` begins. -/
def RegistrationPermit.rollback (participates : Bool) (attempted : RegistryIncarnation) : Point H :=
  match permit.previous with
  | none => .remove attempted (.reserve permit)
  | some _ => .restoreWrite permit participates attempted

/-- The indexer was among the features and is no longer. -/
def RegistrationPermit.drops (participates : Bool) : Bool :=
  permit.previous.any (·.participates) && !participates

namespace Server

variable [DecidableEq H] [Bundle.SequenceHash H] (h : Server H)

def setSlot (owner : InstanceId) (slot : Slot) : Server H :=
  { h with credentials := Function.update h.credentials owner slot }

/-- `stage_manager_authority`. -/
def stageAuthority (owner : InstanceId) (credential : MutationCredential)
    (epoch : RegistrationEpoch) (participates : Bool) :
    Except BundleDirectoryError Unit × Server H :=
  let r := h.directory.stageOwnerTransition owner (if participates then some credential else none)
    epoch
  (r.1, { h with directory := r.2 })

/-- Stage the authority of the registration that a permit would replace. -/
def stagePrevious (owner : InstanceId) (permit : RegistrationPermit) :
    Except BundleDirectoryError Unit × Server H :=
  match permit.previous with
  | none => (.ok (), h)
  | some previous =>
    h.stageAuthority owner previous.credential previous.registrationEpoch previous.participates

/-- The first half of the indexer's `commit_registration`. -/
def bindRegistration (owner : InstanceId) (epoch : RegistrationEpoch)
    (incarnation : RegistryIncarnation) : Except BundleDirectoryError Unit × Server H :=
  let r := h.directory.bindOwnerRegistration owner epoch incarnation
  (r.1, { h with directory := r.2 })

/-- Bind the restored entry to the registration that a permit would have replaced. -/
def bindPrevious (owner : InstanceId) (permit : RegistrationPermit)
    (incarnation : RegistryIncarnation) : Except BundleDirectoryError Unit × Server H :=
  match permit.previous with
  | none => (.ok (), h)
  | some previous => h.bindRegistration owner previous.registrationEpoch incarnation

def removePlacements (owner : InstanceId) : Server H :=
  { h with placements := h.placements.removeInstance owner }

/-- The indexer's `on_register_any`; a failure is only logged. -/
def onRegisterAny (owner : InstanceId) (incarnation : RegistryIncarnation) : Server H :=
  { h with directory := (h.directory.finalizeOwnerRegistration owner incarnation).2 }

def register (h : Server H) (owner : InstanceId) : RegistryIncarnation × Server H :=
  ((h.registry.register owner).1, { h with registry := (h.registry.register owner).2 })

def unregister (h : Server H) (owner : InstanceId) (incarnation : RegistryIncarnation) : Server H :=
  { h with registry := h.registry.unregister owner incarnation }

/-- One step of a handler of `owner`, and where it is then; `none` if it has ended. -/
def perform (owner : InstanceId) (ok : Bool) : Point H → Server H × Option (Point H)
  | .stage permit participates =>
    let r := h.stageAuthority owner permit.credential permit.registrationEpoch participates
    (r.2, match r.1 with
      | .ok () => some (.write permit participates)
      | .error _ => some (permit.failedWrite participates))
  | .write permit participates =>
    if ok then ((h.register owner).2, some (.record permit participates (h.register owner).1))
    else (h, some (permit.failedWrite participates))
  | .record permit participates incarnation =>
    let r := (h.credentials owner).recordRegistryWrite owner permit incarnation
    (h.setSlot owner r.2, match r.1 with
      | .ok () => some (.bind permit participates incarnation)
      | .error _ => some (permit.rollback participates incarnation))
  | .bind permit participates incarnation =>
    -- a manager's `on_register` may have failed before
    if ok then
      let r := h.bindRegistration owner permit.registrationEpoch incarnation
      (r.2, match r.1 with
        | .ok () => some (.dropPlacements permit participates incarnation)
        | .error _ => some (permit.rollback participates incarnation))
    else (h, some (permit.rollback participates incarnation))
  | .dropPlacements permit participates incarnation =>
    (h.removePlacements owner, some (.commit permit participates incarnation))
  | .commit permit participates incarnation =>
    -- the messenger's `register_peer` may have failed before
    if ok then
      match (h.credentials owner).commitRegistration owner permit participates incarnation with
      | .ok registration =>
        (h.setSlot owner (some (.active registration)),
          some (.finalize permit participates incarnation))
      | .error _ => (h, some (permit.rollback participates incarnation))
    else (h, some (permit.rollback participates incarnation))
  | .finalize permit participates incarnation =>
    (h.onRegisterAny owner incarnation,
      if permit.drops participates then some (.onUnregister .dropped) else none)
  | .unstage permit participates =>
    let r := h.stagePrevious owner permit
    (r.2, match r.1 with
      | .ok () => some (.abortUnchanged permit participates)
      | .error _ =>
        some (.failClosed permit (permit.previous.map CommittedRegistration.incarnation)))
  | .abortUnchanged permit _ =>
    match (h.credentials owner).abortRegistration owner permit
        (permit.previous.map CommittedRegistration.incarnation) with
    | .ok (.restored, slot) => (h.setSlot owner slot, none)
    | .ok (.revoked, slot) => (h.setSlot owner slot, some (.onUnregister .done))
    | .error _ => (h, some (.onUnregister .done))
  | .restoreWrite permit participates attempted =>
    if ok then
      ((h.register owner).2,
        some (.restoreStage permit participates attempted (h.register owner).1))
    else (h, some (.remove attempted (.reserve permit)))
  | .restoreStage permit participates attempted restored =>
    let r := h.stagePrevious owner permit
    (r.2, match r.1 with
      | .ok () => some (.restoreFeatures permit participates attempted restored)
      | .error _ => some (.remove restored (.retreat permit attempted)))
  | .restoreFeatures permit participates attempted restored =>
    -- features that are registered again may fail before the indexer's turn
    if ok then
      (h, if participates && !permit.previous.any (·.participates)
        then some (.onUnregister (.resume permit participates attempted restored))
        else some (.restoreBind permit participates attempted restored))
    else (h, some (.remove restored (.retreat permit attempted)))
  | .restoreBind permit participates attempted restored =>
    -- and after it
    if ok then
      let r := h.bindPrevious owner permit restored
      (r.2, match r.1 with
        | .ok () => some (.restorePlacements permit participates attempted restored)
        | .error _ => some (.remove restored (.retreat permit attempted)))
    else (h, some (.remove restored (.retreat permit attempted)))
  | .restorePlacements permit participates attempted restored =>
    (h.removePlacements owner, some (.abortRestored permit participates attempted restored))
  | .abortRestored permit _ attempted restored =>
    if ok then
      match (h.credentials owner).abortRegistration owner permit (some restored) with
      | .ok (.restored, slot) => (h.setSlot owner slot, some (.restoreFinalize restored))
      | .ok (.revoked, slot) => (h.setSlot owner slot, some (.onUnregister (.remove restored)))
      | .error _ => (h, some (.onUnregister (.remove restored)))
    else (h, some (.remove restored (.retreat permit attempted)))
  | .restoreFinalize restored => (h.onRegisterAny owner restored, none)
  | .reserve permit => (h, some (.failClosed permit (h.registry.entries owner)))
  | .failClosed permit reservation =>
    match (h.credentials owner).failClosedRegistration owner permit reservation with
    | .ok slot => (h.setSlot owner slot, some (.onUnregister .done))
    | .error _ => (h, some (.onUnregister .done))
  | .remove incarnation after =>
    -- removed, not found or replaced: the incarnation is revoked; otherwise it stays
    if ok then (h.unregister owner incarnation, some (.revoke incarnation after))
    else (h, after.point)
  | .revoke incarnation after =>
    match (h.credentials owner).beginRevocation incarnation with
    | (.cleanup, slot) => (h.setSlot owner slot, some (.onUnregister (.finish incarnation after)))
    | (.ignore, slot) => (h.setSlot owner slot, after.point)
  | .onUnregister rest =>
    ({ h with directory := h.directory.removeOwner owner }, some (.unregisterPlacements rest))
  | .unregisterPlacements rest => (h.removePlacements owner, rest.point)
  | .finishRevocation incarnation after =>
    (h.setSlot owner ((h.credentials owner).finishRevocation incarnation), after.point)
  | .removeUnregister registration =>
    if ok then
      (h.unregister owner registration.incarnation, some (.revoke registration.incarnation .done))
    else (h, some (.restoreUnregister registration))
  | .restoreUnregister registration =>
    (h.setSlot owner ((h.credentials owner).restoreUnregister registration), none)
  | .install snapshot authorizedEpoch =>
    match h.placements.installSnapshot snapshot authorizedEpoch h.directory.clock with
    | .ok (placements, _) => ({ h with placements := placements }, none)
    | .error _ => (h, none)

end Server

/-! ### Runs of the hub -/

/-- What happens to the hub.  A new handler gets a number that no other one has. -/
inductive Action (H : Type)
  | register (t : Nat) (owner : InstanceId) (presented : Option MutationCredential)
      (participates : Bool)
  | unregister (t : Nat) (owner : InstanceId) (presented : Option MutationCredential)
  | push (t : Nat) (snapshot : Tier.TierPlacementSnapshot H) (credential : MutationCredential)
  /-- a handler takes its next step -/
  | advance (t : Nat) (ok : Bool)
  /-- a handler's request is dropped while it waits -/
  | drop (t : Nat)
  /-- the registry drops an entry that has not been seen for long -/
  | evict (owner : InstanceId)
  /-- the callback of such a removal begins -/
  | deliver (t : Nat) (owner : InstanceId) (incarnation : RegistryIncarnation)
  | tick (now : Nat)
  | publish (request : BundlePublishRequest H)
  | invalidate (request : BundleInvalidateRequest H)
  | query (request : BundleQueryRequest H)

/-- The handler is waiting for something asynchronous.  The rollback's calls of the registry and
of the managers are awaited as well. -/
def Point.awaits : Point H → Bool
  | .write _ _ | .bind _ _ _ | .finalize _ _ _ | .restoreWrite _ _ _ | .restoreFeatures _ _ _ _
  | .restoreBind _ _ _ _ | .restoreFinalize _ | .remove _ _ | .removeUnregister _ => true
  | _ => false

namespace Server

variable [DecidableEq H] [Bundle.SequenceHash H]

def new (directory : BundleDirectory H) (placements : Tier.Projection H) : Server H :=
  ⟨fun _ => none, .empty, ∅, directory, placements, 0, fun _ => none⟩

def spawn (h : Server H) (t : Nat) (owner : InstanceId) (point : Option (Point H)) : Server H :=
  { h with tasks := Function.update h.tasks t (point.map (Task.mk owner)) }

def step (h : Server H) : Action H → Option (Server H)
  | .register t owner presented participates =>
    if (h.tasks t).isSome then none
    else
      match (h.credentials owner).beginRegistration owner presented h.minted h.minted with
      | .error _ => some h
      | .ok permit =>
        some ({ h.setSlot owner (Slot.started permit) with minted := h.minted + 1 }.spawn t owner
          (some (.stage permit participates)))
  | .unregister t owner presented =>
    if (h.tasks t).isSome then none
    else
      match (h.credentials owner).beginUnregister owner presented with
      | .error _ => some h
      | .ok registration =>
        some ((h.setSlot owner (some (.unregistering registration))).spawn t owner
          (some (.removeUnregister registration)))
  | .push t snapshot credential =>
    if (h.tasks t).isSome then none
    else
      match snapshot.validate, h.directory.authorizeOwnerEpoch snapshot.instanceId credential with
      | .ok _, .ok epoch =>
        some (h.spawn t snapshot.instanceId (some (.install snapshot epoch)))
      | _, _ => some h
  | .advance t ok =>
    (h.tasks t).map fun task =>
      let r := h.perform task.owner ok task.point
      r.1.spawn t task.owner r.2
  | .drop t =>
    (h.tasks t).bind fun task =>
      if task.point.awaits then some (h.spawn t task.owner none) else none
  | .evict owner =>
    (h.registry.entries owner).map fun incarnation =>
      { h.unregister owner incarnation with notices := insert (owner, incarnation) h.notices }
  | .deliver t owner incarnation =>
    if (h.tasks t).isSome ∨ (owner, incarnation) ∉ h.notices then none
    else
      let r := (h.credentials owner).beginRevocation incarnation
      some ({ h.setSlot owner r.2 with notices := h.notices.erase (owner, incarnation) }.spawn t
        owner (match r.1 with
          | .cleanup => some (.onUnregister (.finish incarnation .done))
          | .ignore => none))
  | .tick now => some { h with directory := h.directory.step (.tick now) }
  | .publish request => some { h with directory := (h.directory.publish request).2 }
  | .invalidate request => some { h with directory := (h.directory.invalidate request).2 }
  | .query request => some { h with directory := h.directory.step (.query request) }

end Server

end Kvbm.Hub.Registration
