/-
The directory of complete bundles.

Owners publish and invalidate advertisements under the credential of their registration, and
anybody may ask for a bundle.  While a registration is replaced the owner has no authority; its
records stay where they are until the replacement is finished, which drops them, or rolled back,
which leaves them.  Every call reads the hub's clock, which never goes back.
-/
import Kvbm.Hub.Bundle.Generation
import Kvbm.Hub.Bundle.Expiry

namespace Kvbm.Hub.Bundle

open Lib Function

variable {H : Type}

structure OwnerAuthority where
  credential : MutationCredential
  registrationEpoch : RegistrationEpoch
  deriving DecidableEq, Repr

inductive NextAuthority
  | active (authority : OwnerAuthority)
  | removed
  deriving DecidableEq, Repr

/-- The authority an owner has once the transition is done. -/
def NextAuthority.toOption : NextAuthority → Option OwnerAuthority
  | active authority => some authority
  | removed => none

/-- What a registration with this credential leads to. -/
def NextAuthority.of (credential : Option MutationCredential)
    (transactionEpoch : RegistrationEpoch) : NextAuthority :=
  match credential with
  | some credential => .active ⟨credential, transactionEpoch⟩
  | none => .removed

structure PendingOwnerRegistration where
  previousAuthority : Option OwnerAuthority
  nextAuthority : NextAuthority
  transactionEpoch : RegistrationEpoch
  incarnation : Option RegistryIncarnation
  deriving DecidableEq, Repr

inductive BundleDirectoryError
  | invalidAdvertisement (error : BundleLineageValidationError)
  | unknownOwner (owner : InstanceId)
  | unauthorizedOwner (owner : InstanceId)
  | registrationEpochMismatch (owner : InstanceId)
  | unrequiredPlacement (owner : InstanceId) (resource : LogicalResourceId)
  | staleOwnerTransaction (owner : InstanceId)
  | ownerRegistrationInProgress (owner : InstanceId)
  | unboundOwnerRegistration (owner : InstanceId)
  | staleOwnerRegistration (owner : InstanceId) (expected attempted : RegistryIncarnation)
  | staleGeneration (current attempted : Nat)
  | ownerCapacity (owner : InstanceId) (capacity : Nat)
  | globalCapacity (capacity : Nat)
  deriving DecidableEq, Repr

def mapAdvertisementCapacity : AdvertisementCapacity → BundleDirectoryError
  | .owner owner capacity => .ownerCapacity owner capacity
  | .global capacity => .globalCapacity capacity

def mapRetirementCapacity : RetiredGenerationCapacity → BundleDirectoryError
  | .absentOwner owner capacity | .totalOwner owner capacity => .ownerCapacity owner capacity
  | .absentGlobal capacity | .totalGlobal capacity => .globalCapacity capacity

structure BundleDirectoryState (H : Type) where
  advertisements : AdvertisementIndex H
  expiredAdvertisements : ExpiredAdvertisementHistory H
  ownerCredentials : InstanceId → Option OwnerAuthority
  pendingOwnerRegistrations : InstanceId → Option PendingOwnerRegistration
  retiredGenerations : RetiredGenerations H
  identityCapacityPerOwner : Nat
  identityGlobalCapacity : Nat

namespace BundleDirectoryState

def new (expiredRetentionMs advertisementsPerOwner advertisementsGlobal absentRetirementsPerOwner
    absentRetirementsGlobal : Nat) : BundleDirectoryState H where
  advertisements := .new advertisementsPerOwner advertisementsGlobal
  expiredAdvertisements := .new expiredRetentionMs
  ownerCredentials := fun _ => none
  pendingOwnerRegistrations := fun _ => none
  retiredGenerations := .new expiredRetentionMs absentRetirementsPerOwner absentRetirementsGlobal
    (saturatingAdd advertisementsPerOwner absentRetirementsPerOwner)
    (saturatingAdd advertisementsGlobal absentRetirementsGlobal)
  identityCapacityPerOwner := saturatingAdd advertisementsPerOwner absentRetirementsPerOwner
  identityGlobalCapacity := saturatingAdd advertisementsGlobal absentRetirementsGlobal

variable (s : BundleDirectoryState H)

def ensureNewIdentity (owner : InstanceId) : Except BundleDirectoryError Unit :=
  (ensure (saturatingAdd s.advertisements.len s.retiredGenerations.len < s.identityGlobalCapacity)
    (.globalCapacity s.identityGlobalCapacity)).bind fun _ =>
  ensure (saturatingAdd (s.advertisements.ownerLen owner) (s.retiredGenerations.ownerLen owner) <
    s.identityCapacityPerOwner) (.ownerCapacity owner s.identityCapacityPerOwner)

def installNextAuthority (owner : InstanceId) (next : NextAuthority) : BundleDirectoryState H :=
  { s with ownerCredentials := update s.ownerCredentials owner next.toOption }

def removePending (owner : InstanceId) : BundleDirectoryState H :=
  { s with
    pendingOwnerRegistrations := update s.pendingOwnerRegistrations owner none }

def authorizeOwner (owner : InstanceId) (credential : MutationCredential) :
    Except BundleDirectoryError RegistrationEpoch :=
  match s.ownerCredentials owner with
  | none => .error (.unknownOwner owner)
  | some expected =>
    if expected.credential ≠ credential then .error (.unauthorizedOwner owner)
    else .ok expected.registrationEpoch

variable [DecidableEq H] [SequenceHash H] (s : BundleDirectoryState H)

def prune (s : BundleDirectoryState H) (observedUnixMs : Nat) : BundleDirectoryState H :=
  let pruned := s.advertisements.pruneExpired observedUnixMs
  { s with
    retiredGenerations := s.retiredGenerations.prune observedUnixMs
    advertisements := pruned.2
    expiredAdvertisements := s.expiredAdvertisements.record pruned.1 observedUnixMs }

def forget (s : BundleDirectoryState H) (key : BundleKey H) : BundleDirectoryState H :=
  { s with expiredAdvertisements := s.expiredAdvertisements.forget key }

/-- A new lifecycle begins: no advertisement and no retirement of the one before survives. -/
def clearOwnerMetadata (owner : InstanceId) : BundleDirectoryState H :=
  let advertisements := s.advertisements.removeOwner owner
  let retired := s.retiredGenerations.removeOwner owner
  let keys := advertisements.1.map BundleAdvertisementRecord.key ++ retired.1
  keys.foldl forget { s with advertisements := advertisements.2, retiredGenerations := retired.2 }

/-- Retire one live advertisement of an owner that goes; if there is no room for that, it
stays. -/
def retireRecord (owner : InstanceId) (now : Nat) (s : BundleDirectoryState H)
    (advertisement : BundleAdvertisementRecord H) : BundleDirectoryState H :=
  match s.retiredGenerations.retireLive advertisement.key owner advertisement.generation
      advertisement.expiresAtUnixMs advertisement.expiresAtUnixMs now with
  | .error _ => s
  | .ok retired =>
    { s with
      retiredGenerations := retired
      advertisements := s.advertisements.discard (advertisement.key, owner) }.forget
        advertisement.key

/-- A stored advertisement is not replaced by an older one, and a new one needs room. -/
def ensureReplaces (advertisement : BundleAdvertisementRecord H) :
    Except BundleDirectoryError Unit :=
  match s.advertisements.get advertisement.key advertisement.owner with
  | some current =>
    ensure (current.generation ≤ advertisement.generation)
      (.staleGeneration current.generation advertisement.generation)
  | none => s.ensureNewIdentity advertisement.owner

/-- The part of `publish` after the checks that do not look at the records. -/
def accept (advertisement : BundleAdvertisementRecord H) (now : Nat) :
    Except BundleDirectoryError (BundleDirectoryState H) :=
  let key := advertisement.key
  let owner := advertisement.owner
  let generation := advertisement.generation
  match s.retiredGenerations.rejectedGeneration key owner generation now with
  | some current => .error (.staleGeneration current generation)
  | none =>
    (s.ensureReplaces advertisement).bind fun _ =>
    ((s.advertisements.insert advertisement).mapError mapAdvertisementCapacity).map
      fun advertisements => { s with advertisements := advertisements }.forget key

/-- The part of `invalidate` after the check of the credential. -/
def retire (request : BundleInvalidateRequest H) (now : Nat) :
    Except BundleDirectoryError (Bool × BundleDirectoryState H) :=
  let retired := s.retiredGenerations
  match (s.advertisements.get request.key request.owner).filter
      fun entry => entry.generation ≤ request.generation with
  | some entry =>
    ((retired.retireLive request.key request.owner request.generation entry.expiresAtUnixMs
      request.retainUntilUnixMs now).mapError mapRetirementCapacity).map fun retired =>
        (decide (entry.generation = request.generation),
          { s with
            retiredGenerations := retired
            advertisements := s.advertisements.discard (request.key, request.owner) }.forget
              request.key)
  | none =>
    (if retired.contains request.key request.owner then .ok ()
      else s.ensureNewIdentity request.owner).bind fun _ =>
    ((retired.retireAbsent request.key request.owner request.generation request.retainUntilUnixMs
      now).mapError mapRetirementCapacity).map fun retired =>
        (false, { s with retiredGenerations := retired })

/-! ### Queries -/

/-- Why an entry is not returned, if there is a reason; the inner `none` is a reason that a miss
does not report. -/
def refusal (request : BundleQueryRequest H) (key : BundleKey H)
    (entry : BundleAdvertisementRecord H) : Option (Option BundleQueryMissReason) :=
  match s.ownerCredentials entry.owner with
  | none => some none
  | some authority =>
    if entry.registrationEpoch ≠ some authority.registrationEpoch then some none
    else if (s.retiredGenerations.rejectedGeneration entry.key entry.owner entry.generation
        request.nowUnixMs).isSome then some none
    else if entry.expiresAtUnixMs ≤ request.nowUnixMs then some (some .expired)
    else if entry.requirements ≠ request.requirements then some (some .incompatible)
    else
      match validateBundleLineages key request.requirements entry.lineages with
      | .error _ => some (some .incomplete)
      | .ok () => none

/-- The first reason is kept. -/
def note (reason new : BundleQueryMissReason) : BundleQueryMissReason :=
  if reason = .notFound then new else reason

/-- Look at one entry of a key; `display` is how an owner is written, and texts are compared. -/
def consider {δ : Type} [LinearOrder δ] (s : BundleDirectoryState H) (display : InstanceId → δ)
    (request : BundleQueryRequest H) (key : BundleKey H)
    (found : BundleQueryMissReason × Option (BundleAdvertisementRecord H))
    (entry : BundleAdvertisementRecord H) :
    BundleQueryMissReason × Option (BundleAdvertisementRecord H) :=
  match s.refusal request key entry with
  | some none => found
  | some (some reason) => (note found.1 reason, found.2)
  | none =>
    (found.1, if found.2.all fun current => display entry.owner < display current.owner
      then some entry else found.2)

/-- Look at key after key. -/
def search {δ : Type} [LinearOrder δ] (s : BundleDirectoryState H) (display : InstanceId → δ)
    (request : BundleQueryRequest H) :
    BundleQueryMissReason → List (BundleKey H) →
      Except BundleQueryMissReason (BundleAdvertisementRecord H)
  | reason, [] => .error reason
  | reason, key :: rest =>
    if key.manifest ≠ request.manifest then
      s.search display request (note reason .incompatible) rest
    else
      let reason := if s.expiredAdvertisements.contains key then note reason .expired else reason
      match (s.advertisements.forKey key).foldl (s.consider display request key) (reason, none) with
      | (reason, none) => s.search display request reason rest
      | (_, some entry) => .ok entry

end BundleDirectoryState

/-! ### The calls -/

/-- `clock` is what the hub's clock reads now. -/
structure BundleDirectory (H : Type) where
  state : BundleDirectoryState H
  leaseTtlMs : Nat
  advertisementTtlMs : Nat
  clock : Nat

namespace BundleDirectory

/-- `with_limits_inner`. -/
def withLimits (leaseTtlMs advertisementTtlMs advertisementsPerOwner advertisementsGlobal
    absentRetirementsPerOwner absentRetirementsGlobal clock : Nat) : BundleDirectory H :=
  ⟨.new leaseTtlMs advertisementsPerOwner advertisementsGlobal absentRetirementsPerOwner
    absentRetirementsGlobal, leaseTtlMs, advertisementTtlMs, clock⟩

def maxAdvertisementTtlMs : Nat := 300000

def maxAdvertisementsPerOwner : Nat := 4096

def maxAdvertisementsGlobal : Nat := 65536

def maxAbsentRetirementsPerOwner : Nat := 4096

def maxAbsentRetirementsGlobal : Nat := 65536

def new (leaseTtlMs clock : Nat) : BundleDirectory H :=
  withLimits leaseTtlMs maxAdvertisementTtlMs maxAdvertisementsPerOwner maxAdvertisementsGlobal
    maxAbsentRetirementsPerOwner maxAbsentRetirementsGlobal clock

variable (d : BundleDirectory H)

def bindOwnerRegistration (owner : InstanceId) (transactionEpoch : RegistrationEpoch)
    (incarnation : RegistryIncarnation) : Except BundleDirectoryError Unit × BundleDirectory H :=
  match d.state.pendingOwnerRegistrations owner with
  | none => (.ok (), d)
  | some pending =>
    if pending.transactionEpoch ≠ transactionEpoch then (.error (.staleOwnerTransaction owner), d)
    else
      match pending.incarnation with
      | some current =>
        if current ≠ incarnation then
          (.error (.staleOwnerRegistration owner current incarnation), d)
        else (.ok (), d)
      | none =>
        (.ok (),
          { d with
            state := { d.state with
              pendingOwnerRegistrations := update d.state.pendingOwnerRegistrations owner
                (some { pending with incarnation := some incarnation }) } })

variable [DecidableEq H] [SequenceHash H] (d : BundleDirectory H)

/-- `stage_owner_transition`: begin a replacement, or take one back. -/
def stageOwnerTransition (owner : InstanceId) (credential : Option MutationCredential)
    (transactionEpoch : RegistrationEpoch) : Except BundleDirectoryError Unit × BundleDirectory H :=
  let next := NextAuthority.of credential transactionEpoch
  match d.state.pendingOwnerRegistrations owner with
  | some pending =>
    if pending.nextAuthority = next then
      if pending.transactionEpoch = transactionEpoch then (.ok (), d)
      else
        -- what was staged is authoritative already: it is finished, never taken back
        (.ok (), { d with
          state := ((d.state.removePending owner).clearOwnerMetadata owner).installNextAuthority
            owner pending.nextAuthority })
    else if pending.previousAuthority = next.toOption then
      (.ok (), { d with state := (d.state.removePending owner).installNextAuthority owner next })
    else (.error (.ownerRegistrationInProgress owner), d)
  | none =>
    if d.state.ownerCredentials owner = next.toOption then (.ok (), d)
    else
      (.ok (), { d with
        state := { d.state with
          ownerCredentials := update d.state.ownerCredentials owner none
          pendingOwnerRegistrations := update d.state.pendingOwnerRegistrations owner
            (some ⟨d.state.ownerCredentials owner, next, transactionEpoch, none⟩) } })

def finalizeOwnerRegistration (owner : InstanceId) (incarnation : RegistryIncarnation) :
    Except BundleDirectoryError Unit × BundleDirectory H :=
  match d.state.pendingOwnerRegistrations owner with
  | none => (.ok (), d)
  | some pending =>
    match pending.incarnation with
    | none => (.error (.unboundOwnerRegistration owner), d)
    | some expected =>
      if expected ≠ incarnation then
        (.error (.staleOwnerRegistration owner expected incarnation), d)
      else
        (.ok (), { d with
          state := (((d.state.removePending owner).clearOwnerMetadata owner).prune
            d.clock).installNextAuthority owner pending.nextAuthority })

def authorizeOwnerEpoch (owner : InstanceId) (credential : MutationCredential) :
    Except BundleDirectoryError RegistrationEpoch :=
  d.state.authorizeOwner owner credential

def removeOwner (owner : InstanceId) : BundleDirectory H :=
  let s := (d.state.installNextAuthority owner .removed).removePending owner
  { d with
    state := ((s.advertisements.recordsForOwner owner).foldl (.retireRecord owner d.clock) s).prune
      d.clock }

/-- A placement is of a resource that the bundle requires. -/
def checkPlacements (advertisement : BundleAdvertisementRecord H) :
    Except BundleDirectoryError Unit :=
  match advertisement.placements.find? fun placement =>
      !advertisement.requirements.any fun requirement =>
        requirement.resource = placement.resource with
  | some placement => .error (.unrequiredPlacement advertisement.owner placement.resource)
  | none => .ok ()

/-- The checks of `publish` that do not look at the records. -/
def checkPublish (request : BundlePublishRequest H) : Except BundleDirectoryError Unit :=
  let advertisement := request.advertisement
  ((validateBundleLineages advertisement.key advertisement.requirements
    advertisement.lineages).mapError .invalidAdvertisement).bind fun _ =>
  (checkPlacements advertisement).bind fun _ =>
  (d.state.authorizeOwner advertisement.owner request.credential).bind fun epoch =>
  ensure (advertisement.registrationEpoch = some epoch)
    (.registrationEpochMismatch advertisement.owner)

/-- The record as it is stored: the hub bounds its lifetime and stamps its arrival. -/
def stamp (advertisement : BundleAdvertisementRecord H) : BundleAdvertisementRecord H :=
  { advertisement with
    expiresAtUnixMs := min advertisement.expiresAtUnixMs
      (saturatingAdd d.clock d.advertisementTtlMs)
    advertisedAtUnixMs := some d.clock }

def publish (request : BundlePublishRequest H) :
    Except BundleDirectoryError Unit × BundleDirectory H :=
  match d.checkPublish request with
  | .error e => (.error e, d)
  | .ok () =>
    let pruned := d.state.prune d.clock
    match pruned.accept (d.stamp request.advertisement) d.clock with
    | .error e => (.error e, { d with state := pruned })
    | .ok state => (.ok (), { d with state := state })

def invalidate (request : BundleInvalidateRequest H) :
    Except BundleDirectoryError Bool × BundleDirectory H :=
  match d.state.authorizeOwner request.owner request.credential with
  | .error e => (.error e, d)
  | .ok _ =>
    let pruned := d.state.prune d.clock
    match pruned.retire request d.clock with
    | .error e => (.error e, { d with state := pruned })
    | .ok (exact, state) => (.ok exact, { d with state := state })

/-- The second half of `query`, under the reader's lock; `leaseId` is drawn at random. -/
def answer {δ : Type} [LinearOrder δ] (d : BundleDirectory H) (display : InstanceId → δ)
    (leaseId : Nat) (request : BundleQueryRequest H) : BundleQueryOutcome H :=
  match d.state.search display request .notFound request.candidates with
  | .error reason => .miss reason
  | .ok entry =>
    .hit ⟨entry, leaseId, min entry.expiresAtUnixMs (saturatingAdd request.nowUnixMs d.leaseTtlMs),
      entry.readyTier, entry.advertisedAtUnixMs⟩

def prune (d : BundleDirectory H) : BundleDirectory H := { d with state := d.state.prune d.clock }

/-- The resources of the request are distinct. -/
def wellFormed (request : BundleQueryRequest H) : Bool :=
  (request.requirements.map ResourceRequirement.resource).dedup.length = request.requirements.length

def query {δ : Type} [LinearOrder δ] (d : BundleDirectory H) (display : InstanceId → δ)
    (leaseId : Nat) (request : BundleQueryRequest H) : BundleQueryOutcome H × BundleDirectory H :=
  if wellFormed request then (d.prune.answer display leaseId request, d.prune)
  else (.miss .incomplete, d)

end BundleDirectory

/-! ### Runs -/

/-- What happens to a directory.  A query prunes under the writer's lock and answers under the
reader's, and other calls may come between the two; `prune` is the first half alone.  In which
order the records are walked through is not specified, so it may change at any time. -/
inductive Action (H : Type)
  | tick (now : Nat)
  | stage (owner : InstanceId) (credential : Option MutationCredential)
      (transactionEpoch : RegistrationEpoch)
  | bind (owner : InstanceId) (transactionEpoch : RegistrationEpoch)
      (incarnation : RegistryIncarnation)
  | finalize (owner : InstanceId) (incarnation : RegistryIncarnation)
  | removeOwner (owner : InstanceId)
  | publish (request : BundlePublishRequest H)
  | invalidate (request : BundleInvalidateRequest H)
  | prune
  | query (request : BundleQueryRequest H)
  | reorder (byKey : Listed (Identity H) (BundleAdvertisementRecord H))

namespace BundleDirectory

variable [DecidableEq H] [SequenceHash H]

def reorder (d : BundleDirectory H) (byKey : Listed (Identity H) (BundleAdvertisementRecord H)) :
    BundleDirectory H :=
  if d.state.advertisements.byKey.entries.Perm byKey.entries then
    { d with state := { d.state with advertisements := { d.state.advertisements with byKey } } }
  else d

def step (d : BundleDirectory H) : Action H → BundleDirectory H
  | .tick now => { d with clock := max d.clock now }
  | .stage owner credential transactionEpoch =>
    (d.stageOwnerTransition owner credential transactionEpoch).2
  | .bind owner transactionEpoch incarnation =>
    (d.bindOwnerRegistration owner transactionEpoch incarnation).2
  | .finalize owner incarnation => (d.finalizeOwnerRegistration owner incarnation).2
  | .removeOwner owner => d.removeOwner owner
  | .publish request => (d.publish request).2
  | .invalidate request => (d.invalidate request).2
  | .prune => d.prune
  | .query request => if wellFormed request then d.prune else d
  | .reorder byKey => d.reorder byKey

end BundleDirectory

end Kvbm.Hub.Bundle
