/-
Who may change the registration of an instance.

For every instance the hub keeps one state of its credential.  A registration and its removal take
the state over, do their work elsewhere, and give it back; while one has it, no other may begin.
Every operation here reads and writes the state of its own instance only, so it is written for that
one state.
-/
import Kvbm.Hub.Bundle.Record

namespace Kvbm.Hub.Registration

open Hub.Bundle

/-- Of the features it is only kept whether the indexer is among them: the other managers take no
part in what is staged and committed.  The peer's address is left out. -/
structure CommittedRegistration where
  credential : MutationCredential
  registrationEpoch : RegistrationEpoch
  participates : Bool
  incarnation : RegistryIncarnation
  deriving DecidableEq, Repr

structure RegistrationPermit where
  credential : MutationCredential
  registrationEpoch : RegistrationEpoch
  previous : Option CommittedRegistration
  deriving DecidableEq, Repr

structure RegistrationInProgress where
  credential : MutationCredential
  registrationEpoch : RegistrationEpoch
  attemptedIncarnation : Option RegistryIncarnation
  removedIncarnations : Finset RegistryIncarnation
  deriving DecidableEq

inductive CredentialState
  | removed (incarnation : RegistryIncarnation)
  | reserved (incarnation : RegistryIncarnation)
  | active (registration : CommittedRegistration)
  | registering (progress : RegistrationInProgress)
  | unregistering (registration : CommittedRegistration)
  | revoking (incarnation : RegistryIncarnation)
  deriving DecidableEq

inductive RegistrationCredentialError
  | unauthorized (owner : InstanceId)
  | busy (owner : InstanceId)
  | notFound (owner : InstanceId)
  | stateChanged (owner : InstanceId)
  deriving DecidableEq, Repr

inductive AbortRegistrationOutcome
  | restored
  | revoked
  deriving DecidableEq, Repr

inductive RevocationAction
  | ignore
  | cleanup
  deriving DecidableEq, Repr

/-- The state of one instance's credential, if there is one. -/
abbrev Slot := Option CredentialState

namespace Slot

variable (slot : Slot)

/-- `begin_registration`: the permit; `credential` and `epoch` have just been generated. -/
def beginRegistration (owner : InstanceId) (presented : Option MutationCredential)
    (credential : MutationCredential) (epoch : RegistrationEpoch) :
    Except RegistrationCredentialError RegistrationPermit :=
  match slot with
  | some (.active registration) =>
    if some registration.credential ≠ presented then .error (.unauthorized owner)
    else .ok ⟨credential, epoch, some registration⟩
  | some (.reserved _) => .error (.unauthorized owner)
  | some (.removed _) | none =>
    if presented.isSome then .error (.unauthorized owner) else .ok ⟨credential, epoch, none⟩
  | some (.registering _) | some (.unregistering _) | some (.revoking _) => .error (.busy owner)

/-- The state in which a permit leaves the instance. -/
def started (permit : RegistrationPermit) : Slot :=
  some (.registering ⟨permit.credential, permit.registrationEpoch, none, ∅⟩)

def recordRegistryWrite (owner : InstanceId) (permit : RegistrationPermit)
    (incarnation : RegistryIncarnation) : Except RegistrationCredentialError Unit × Slot :=
  match slot with
  | some (.registering progress) =>
    if progress.credential ≠ permit.credential then (.error (.stateChanged owner), slot)
    else
      let slot := some (.registering { progress with attemptedIncarnation := some incarnation })
      if incarnation ∈ progress.removedIncarnations then (.error (.stateChanged owner), slot)
      else (.ok (), slot)
  | _ => (.error (.stateChanged owner), slot)

def commitRegistration (owner : InstanceId) (permit : RegistrationPermit) (participates : Bool)
    (incarnation : RegistryIncarnation) :
    Except RegistrationCredentialError CommittedRegistration :=
  match slot with
  | some (.registering progress) =>
    if progress.credential ≠ permit.credential ∨
        progress.registrationEpoch ≠ permit.registrationEpoch ∨
        progress.attemptedIncarnation ≠ some incarnation ∨
        incarnation ∈ progress.removedIncarnations then
      .error (.stateChanged owner)
    else .ok ⟨permit.credential, permit.registrationEpoch, participates, incarnation⟩
  | _ => .error (.stateChanged owner)

def abortRegistration (owner : InstanceId) (permit : RegistrationPermit)
    (restoredIncarnation : Option RegistryIncarnation) :
    Except RegistrationCredentialError (AbortRegistrationOutcome × Slot) :=
  match slot with
  | some (.registering progress) =>
    if progress.credential ≠ permit.credential then .error (.stateChanged owner)
    else
      match permit.previous, restoredIncarnation with
      | some previous, some incarnation =>
        if incarnation ∉ progress.removedIncarnations then
          .ok (.restored, some (.active { previous with incarnation := incarnation }))
        else .ok (.revoked, none)
      | _, _ => .ok (.revoked, none)
  | _ => .error (.stateChanged owner)

def failClosedRegistration (owner : InstanceId) (permit : RegistrationPermit)
    (reservation : Option RegistryIncarnation) : Except RegistrationCredentialError Slot :=
  match slot with
  | some (.registering progress) =>
    if progress.credential ≠ permit.credential then .error (.stateChanged owner)
    else .ok (reservation.map .reserved)
  | _ => .error (.stateChanged owner)

/-- `begin_unregister`: the registration that is to be removed. -/
def beginUnregister (owner : InstanceId) (presented : Option MutationCredential) :
    Except RegistrationCredentialError CommittedRegistration :=
  match slot with
  | some (.active registration) =>
    if some registration.credential ≠ presented then .error (.unauthorized owner)
    else .ok registration
  | some (.reserved _) => .error (.unauthorized owner)
  | some (.removed _) | none => .error (.notFound owner)
  | some (.registering _) | some (.unregistering _) | some (.revoking _) => .error (.busy owner)

def restoreUnregister (registration : CommittedRegistration) : Slot :=
  match slot with
  | some (.unregistering current) =>
    if current.incarnation = registration.incarnation then some (.active registration) else slot
  | _ => slot

/-- `begin_revocation`: a removal of `incarnation` has come through. -/
def beginRevocation (incarnation : RegistryIncarnation) : RevocationAction × Slot :=
  match slot with
  | none => (.ignore, some (.removed incarnation))
  | some (.reserved current) =>
    if current = incarnation then (.ignore, none) else (.ignore, slot)
  | some (.active registration) | some (.unregistering registration) =>
    if registration.incarnation = incarnation then (.cleanup, some (.revoking incarnation))
    else (.ignore, slot)
  | some (.registering progress) =>
    (.ignore, some (.registering
      { progress with removedIncarnations := insert incarnation progress.removedIncarnations }))
  | some (.removed _) | some (.revoking _) => (.ignore, slot)

def finishRevocation (incarnation : RegistryIncarnation) : Slot :=
  match slot with
  | some (.revoking current) => if current = incarnation then none else slot
  | _ => slot

end Slot

/-! ### The registry -/

/-- The entries of the in-memory registry, without the peers' addresses and the times at which they
were last seen. -/
structure Registry where
  entries : InstanceId → Option RegistryIncarnation
  lastIncarnation : Nat

namespace Registry

def empty : Registry := ⟨fun _ => none, 0⟩

/-- A write always makes a new incarnation. -/
def register (r : Registry) (id : InstanceId) : RegistryIncarnation × Registry :=
  (r.lastIncarnation + 1,
    ⟨Function.update r.entries id (some (r.lastIncarnation + 1)), r.lastIncarnation + 1⟩)

/-- Only the named incarnation is removed. -/
def unregister (r : Registry) (id : InstanceId) (incarnation : RegistryIncarnation) : Registry :=
  if r.entries id = some incarnation then
    { r with entries := Function.update r.entries id none }
  else r

end Registry

end Kvbm.Hub.Registration
