/-
The steps of the hub as one instance sees them.

A step is a step of somebody else, of which the instance sees nothing, or it is one of the few
things that happen to the instance itself.  Every invariant of an instance is proved along this
division.
-/
import Kvbm.Proofs.Hub.Registration.View

namespace Kvbm.Hub.Registration.Server

open Hub.Bundle BundleDirectory

variable {H : Type} [DecidableEq H] {h h' : Server H} {owner i : InstanceId}

/-! ### What a handler leaves of the hub's other state -/

/-- A call that starts no handler. -/
structure Proceeds (h h' : Server H) : Prop where
  tasks : h'.tasks = h.tasks
  notices : h'.notices = h.notices
  minted : h'.minted = h.minted
  incarnation : h.registry.lastIncarnation ≤ h'.registry.lastIncarnation

theorem proceeds_unregister {incarnation : RegistryIncarnation} :
    Proceeds h (h.unregister owner incarnation) := by
  refine ⟨rfl, rfl, rfl, ?_⟩
  simp only [unregister, Registry.unregister]
  split_ifs <;> exact le_rfl

/-! ### Handlers that start, move and end -/

variable {p : Point H} {next : Option (Point H)} {t u : Nat}

theorem running_spawn :
    (h.spawn t owner next).tasks u = some ⟨i, p⟩ ↔
      if u = t then owner = i ∧ next = some p else h.tasks u = some ⟨i, p⟩ := by
  by_cases hu : u = t
  · subst hu
    simp only [spawn, Function.update_self, if_true, Option.map_eq_some_iff, Task.mk.injEq]
    constructor
    · rintro ⟨_, hp, ho, rfl⟩
      exact ⟨ho, hp⟩
    · rintro ⟨ho, hp⟩
      exact ⟨p, hp, ho, rfl⟩
  · simp [spawn, hu]

theorem running_cases (htasks : h'.tasks = h.tasks)
    (hu : (h'.spawn t i next).tasks u = some ⟨i, p⟩) :
    u = t ∧ next = some p ∨ u ≠ t ∧ h.tasks u = some ⟨i, p⟩ := by
  rw [running_spawn, htasks] at hu
  split_ifs at hu with hut
  · exact .inl ⟨hut, hu.2⟩
  · exact .inr ⟨hut, hu⟩

theorem running_at (hn : next = some p) : (h.spawn t i next).tasks t = some ⟨i, p⟩ := by
  rw [running_spawn, if_pos rfl]
  exact ⟨rfl, hn⟩

theorem running_else (htasks : h'.tasks = h.tasks) (hut : u ≠ t) (hu : h.tasks u = some ⟨i, p⟩) :
    (h'.spawn t i next).tasks u = some ⟨i, p⟩ := by
  rw [running_spawn, if_neg hut, htasks]
  exact hu

/-- A step of somebody else. -/
structure Apart (h h' : Server H) (i : InstanceId) : Prop extends Spares h h' i where
  noticed : ∀ q, (i, q) ∈ h'.notices ↔ (i, q) ∈ h.notices
  running : ∀ t p, h'.tasks t = some ⟨i, p⟩ ↔ h.tasks t = some ⟨i, p⟩
  incarnation : h.registry.lastIncarnation ≤ h'.registry.lastIncarnation
  minted : h.minted ≤ h'.minted

theorem apart_spawn (hi : i ≠ owner) (hs : Spares h h' i)
    (hn : ∀ q, (i, q) ∈ h'.notices ↔ (i, q) ∈ h.notices) (ht : h'.tasks = h.tasks)
    (hinc : h.registry.lastIncarnation ≤ h'.registry.lastIncarnation) (hm : h.minted ≤ h'.minted)
    (hfree : ∀ p, h.tasks t ≠ some ⟨i, p⟩) : Apart h (h'.spawn t owner next) i where
  view := hs.view
  entry := hs.entry
  noticed := hn
  running u p := by
    rw [running_spawn]
    by_cases hu : u = t
    · subst hu
      rw [if_pos rfl]
      exact ⟨fun ⟨ho, _⟩ => absurd ho.symm hi, fun h => absurd h (hfree p)⟩
    · rw [if_neg hu, ht]
  incarnation := hinc
  minted := hm

/-! ### What the next step of a handler can do -/

section Refused

variable {e : BundleDirectoryError} {epoch : RegistrationEpoch} {incarnation : RegistryIncarnation}
  {permit : RegistrationPermit}

theorem bindRegistration_error (hs : (h.bindRegistration i epoch incarnation).1 = .error e) :
    (h.bindRegistration i epoch incarnation).2 = h := by
  simp only [bindRegistration, bindOwnerRegistration] at hs ⊢
  split at hs
  · cases hs
  split_ifs at hs ⊢
  · rfl
  split at hs
  · split_ifs at hs ⊢
    rfl
  · cases hs

theorem bindPrevious_eq : (h.bindPrevious i permit incarnation).2 =
    { h with directory := (h.bindPrevious i permit incarnation).2.directory } := by
  unfold bindPrevious
  split <;> rfl

variable [Bundle.SequenceHash H]

theorem stageAuthority_error {credential : MutationCredential} {participates : Bool}
    (hs : (h.stageAuthority i credential epoch participates).1 = .error e) :
    (h.stageAuthority i credential epoch participates).2 = h := by
  simp only [stageAuthority, stageOwnerTransition] at hs ⊢
  split at hs
  · split_ifs at hs ⊢ <;> rfl
  · split_ifs at hs

theorem stagePrevious_eq :
    (h.stagePrevious i permit).2 =
      { h with directory := (h.stagePrevious i permit).2.directory } := by
  unfold stagePrevious
  split <;> rfl

theorem stagePrevious_error (hs : (h.stagePrevious i permit).1 = .error e) :
    (h.stagePrevious i permit).2 = h := by
  unfold stagePrevious at hs ⊢
  split at hs
  · cases hs
  · exact stageAuthority_error hs

end Refused

variable [Bundle.SequenceHash H]

/-- The next step of a handler of `i`: where it is, what becomes of the hub, and where the handler
is then.  A call that is refused leaves the hub as it was. -/
inductive Performs (h : Server H) (i : InstanceId) : Point H → Server H → Option (Point H) → Prop
  | staged {permit : RegistrationPermit}
      (staged : (h.stageAuthority i permit.credential permit.registrationEpoch participates).1 =
        .ok ()) :
      Performs h i (.stage permit participates)
        (h.stageAuthority i permit.credential permit.registrationEpoch participates).2
        (some (.write permit participates))
  | notStaged {permit : RegistrationPermit}
      (refused : (h.stageAuthority i permit.credential permit.registrationEpoch participates).1 =
        .error e) :
      Performs h i (.stage permit participates) h (some (permit.failedWrite participates))
  | written : Performs h i (.write permit participates) (h.register i).2
        (some (.record permit participates (h.register i).1))
  | notWritten :
      Performs h i (.write permit participates) h (some (permit.failedWrite participates))
  | recorded (recorded : ((h.credentials i).recordRegistryWrite i permit incarnation).1 = .ok ()) :
      Performs h i (.record permit participates incarnation)
        (h.setSlot i ((h.credentials i).recordRegistryWrite i permit incarnation).2)
        (some (.bind permit participates incarnation))
  | notRecorded
      (refused : ((h.credentials i).recordRegistryWrite i permit incarnation).1 = .error e) :
      Performs h i (.record permit participates incarnation)
        (h.setSlot i ((h.credentials i).recordRegistryWrite i permit incarnation).2)
        (some (permit.rollback participates incarnation))
  | bound {permit : RegistrationPermit}
      (bound : (h.bindRegistration i permit.registrationEpoch incarnation).1 = .ok ()) :
      Performs h i (.bind permit participates incarnation)
        (h.bindRegistration i permit.registrationEpoch incarnation).2
        (some (.dropPlacements permit participates incarnation))
  | notBound : Performs h i (.bind permit participates incarnation) h
        (some (permit.rollback participates incarnation))
  | dropped : Performs h i (.dropPlacements permit participates incarnation) (h.removePlacements i)
        (some (.commit permit participates incarnation))
  | committed
      (committed : (h.credentials i).commitRegistration i permit participates incarnation =
        .ok registration) :
      Performs h i (.commit permit participates incarnation)
        (h.setSlot i (some (.active registration)))
        (some (.finalize permit participates incarnation))
  | notCommitted : Performs h i (.commit permit participates incarnation) h
        (some (permit.rollback participates incarnation))
  | finalized :
      Performs h i (.finalize permit participates incarnation) (h.onRegisterAny i incarnation)
        (if permit.drops participates then some (.onUnregister .dropped) else none)
  | unstaged (staged : (h.stagePrevious i permit).1 = .ok ()) :
      Performs h i (.unstage permit participates)
        { h with directory := (h.stagePrevious i permit).2.directory }
        (some (.abortUnchanged permit participates))
  | notUnstaged (refused : (h.stagePrevious i permit).1 = .error e) :
      Performs h i (.unstage permit participates) h
        (some (.failClosed permit (permit.previous.map CommittedRegistration.incarnation)))
  | kept {permit : RegistrationPermit}
      (aborted : (h.credentials i).abortRegistration i permit
        (permit.previous.map CommittedRegistration.incarnation) = .ok (.restored, slot)) :
      Performs h i (.abortUnchanged permit participates) (h.setSlot i slot) none
  | notKept {permit : RegistrationPermit}
      (aborted : (h.credentials i).abortRegistration i permit
        (permit.previous.map CommittedRegistration.incarnation) = .ok (.revoked, slot)) :
      Performs h i (.abortUnchanged permit participates) (h.setSlot i slot)
        (some (.onUnregister .done))
  | changed {permit : RegistrationPermit}
      (refused : (h.credentials i).abortRegistration i permit
        (permit.previous.map CommittedRegistration.incarnation) = .error e) :
      Performs h i (.abortUnchanged permit participates) h (some (.onUnregister .done))
  | rewritten : Performs h i (.restoreWrite permit participates attempted) (h.register i).2
        (some (.restoreStage permit participates attempted (h.register i).1))
  | notRewritten : Performs h i (.restoreWrite permit participates attempted) h
        (some (.remove attempted (.reserve permit)))
  | restaged (staged : (h.stagePrevious i permit).1 = .ok ()) :
      Performs h i (.restoreStage permit participates attempted restored)
        { h with directory := (h.stagePrevious i permit).2.directory }
        (some (.restoreFeatures permit participates attempted restored))
  | notRestaged (refused : (h.stagePrevious i permit).1 = .error e) :
      Performs h i (.restoreStage permit participates attempted restored) h
        (some (.remove restored (.retreat permit attempted)))
  | leftFeature {permit : RegistrationPermit}
      (new : participates = true) (old : permit.previous.any (·.participates) = false) :
      Performs h i (.restoreFeatures permit participates attempted restored) h
        (some (.onUnregister (.resume permit participates attempted restored)))
  | keptFeature : Performs h i (.restoreFeatures permit participates attempted restored) h
        (some (.restoreBind permit participates attempted restored))
  | notFeature : Performs h i (.restoreFeatures permit participates attempted restored) h
        (some (.remove restored (.retreat permit attempted)))
  | rebound (bound : (h.bindPrevious i permit restored).1 = .ok ()) :
      Performs h i (.restoreBind permit participates attempted restored)
        { h with directory := (h.bindPrevious i permit restored).2.directory }
        (some (.restorePlacements permit participates attempted restored))
  | notRebound : Performs h i (.restoreBind permit participates attempted restored) h
        (some (.remove restored (.retreat permit attempted)))
  | redropped : Performs h i (.restorePlacements permit participates attempted restored)
        (h.removePlacements i) (some (.abortRestored permit participates attempted restored))
  | restored
      (aborted : (h.credentials i).abortRegistration i permit (some restored) =
        .ok (.restored, slot)) :
      Performs h i (.abortRestored permit participates attempted restored) (h.setSlot i slot)
        (some (.restoreFinalize restored))
  | notRestored
      (aborted : (h.credentials i).abortRegistration i permit (some restored) =
        .ok (.revoked, slot)) :
      Performs h i (.abortRestored permit participates attempted restored) (h.setSlot i slot)
        (some (.onUnregister (.remove restored)))
  | changedRestored
      (refused : (h.credentials i).abortRegistration i permit (some restored) = .error e) :
      Performs h i (.abortRestored permit participates attempted restored) h
        (some (.onUnregister (.remove restored)))
  | unreachable : Performs h i (.abortRestored permit participates attempted restored) h
        (some (.remove restored (.retreat permit attempted)))
  | refinalized : Performs h i (.restoreFinalize restored) (h.onRegisterAny i restored) none
  | reserved : Performs h i (.reserve permit) h (some (.failClosed permit (h.registry.entries i)))
  | closed (closed : (h.credentials i).failClosedRegistration i permit reservation = .ok slot) :
      Performs h i (.failClosed permit reservation) (h.setSlot i slot) (some (.onUnregister .done))
  | notClosed (refused : (h.credentials i).failClosedRegistration i permit reservation = .error e) :
      Performs h i (.failClosed permit reservation) h (some (.onUnregister .done))
  | removed : Performs h i (.remove incarnation after) (h.unregister i incarnation)
        (some (.revoke incarnation after))
  | notRemoved : Performs h i (.remove incarnation after) h after.point
  | revoked (begun : (h.credentials i).beginRevocation incarnation = (.cleanup, slot)) :
      Performs h i (.revoke incarnation after) (h.setSlot i slot)
        (some (.onUnregister (.finish incarnation after)))
  | notRevoked (begun : (h.credentials i).beginRevocation incarnation = (.ignore, slot)) :
      Performs h i (.revoke incarnation after) (h.setSlot i slot) after.point
  | cleared : Performs h i (.onUnregister rest) { h with directory := h.directory.removeOwner i }
        (some (.unregisterPlacements rest))
  | clearedPlacements : Performs h i (.unregisterPlacements rest) (h.removePlacements i) rest.point
  | finished : Performs h i (.finishRevocation incarnation after)
        (h.setSlot i ((h.credentials i).finishRevocation incarnation)) after.point
  | left : Performs h i (.removeUnregister registration) (h.unregister i registration.incarnation)
        (some (.revoke registration.incarnation .done))
  | notLeft :
      Performs h i (.removeUnregister registration) h (some (.restoreUnregister registration))
  | stayed : Performs h i (.restoreUnregister registration)
        (h.setSlot i ((h.credentials i).restoreUnregister registration)) none
  | installed {placements}
      (installed : h.placements.installSnapshot snapshot authorizedEpoch h.directory.clock =
        .ok (placements, install)) :
      Performs h i (.install snapshot authorizedEpoch) { h with placements := placements } none
  | notInstalled : Performs h i (.install snapshot authorizedEpoch) h none

/-- **A step of a handler is one of these.** -/
theorem perform_performs (h : Server H) (i : InstanceId) (ok : Bool) (p : Point H) :
    Performs h i p (h.perform i ok p).1 (h.perform i ok p).2 := by
  cases p with
  | stage permit participates =>
    simp only [perform]
    cases hr : (h.stageAuthority i permit.credential permit.registrationEpoch participates).1 with
    | ok => exact .staged hr
    | error =>
      rw [stageAuthority_error hr]
      exact .notStaged hr
  | write =>
    cases ok with
    | true => exact .written
    | false => exact .notWritten
  | record permit participates incarnation =>
    simp only [perform]
    cases hr : ((h.credentials i).recordRegistryWrite i permit incarnation).1 with
    | ok => exact .recorded hr
    | error => exact .notRecorded hr
  | bind permit participates incarnation =>
    cases ok with
    | true =>
      simp only [perform, if_true]
      cases hr : (h.bindRegistration i permit.registrationEpoch incarnation).1 with
      | ok => exact .bound hr
      | error =>
        rw [bindRegistration_error hr]
        exact .notBound
    | false => exact .notBound
  | dropPlacements => exact .dropped
  | commit =>
    cases ok with
    | true =>
      simp only [perform, if_true]
      split
      · exact .committed ‹_›
      · exact .notCommitted
    | false => exact .notCommitted
  | finalize => exact .finalized
  | unstage permit =>
    simp only [perform]
    cases hr : (h.stagePrevious i permit).1 with
    | ok =>
      rw [stagePrevious_eq]
      exact .unstaged hr
    | error =>
      rw [stagePrevious_error hr]
      exact .notUnstaged hr
  | abortUnchanged =>
    simp only [perform]
    split
    · exact .kept ‹_›
    · exact .notKept ‹_›
    · exact .changed ‹_›
  | restoreWrite =>
    cases ok with
    | true => exact .rewritten
    | false => exact .notRewritten
  | restoreStage permit =>
    simp only [perform]
    cases hr : (h.stagePrevious i permit).1 with
    | ok =>
      rw [stagePrevious_eq]
      exact .restaged hr
    | error =>
      rw [stagePrevious_error hr]
      exact .notRestaged hr
  | restoreFeatures =>
    cases ok with
    | true =>
      simp only [perform, if_true]
      split_ifs with hleft
      · obtain ⟨hnew, hold⟩ := Bool.and_eq_true_iff.mp hleft
        exact .leftFeature hnew (by simpa using hold)
      · exact .keptFeature
    | false => exact .notFeature
  | restoreBind permit participates attempted restored =>
    cases ok with
    | true =>
      simp only [perform, if_true]
      cases hr : (h.bindPrevious i permit restored).1 with
      | ok =>
        rw [bindPrevious_eq]
        exact .rebound hr
      | error =>
        unfold bindPrevious at hr ⊢
        split at hr
        · cases hr
        · rw [bindRegistration_error hr]
          exact .notRebound
    | false => exact .notRebound
  | restorePlacements => exact .redropped
  | abortRestored permit participates attempted restored =>
    cases ok with
    | true =>
      simp only [perform, if_true]
      split
      · exact .restored ‹_›
      · exact .notRestored ‹_›
      · exact .changedRestored ‹_›
    | false => exact .unreachable
  | restoreFinalize => exact .refinalized
  | reserve => exact .reserved
  | failClosed =>
    simp only [perform]
    split
    · exact .closed ‹_›
    · exact .notClosed ‹_›
  | remove =>
    cases ok with
    | true => exact .removed
    | false => exact .notRemoved
  | revoke =>
    simp only [perform]
    split
    · exact .revoked ‹_›
    · exact .notRevoked ‹_›
  | onUnregister => exact .cleared
  | unregisterPlacements => exact .clearedPlacements
  | finishRevocation => exact .finished
  | removeUnregister =>
    cases ok with
    | true => exact .left
    | false => exact .notLeft
  | restoreUnregister => exact .stayed
  | install =>
    simp only [perform]
    split
    · exact .installed ‹_›
    · exact .notInstalled

theorem Performs.proceeds (hp : Performs h i p h' next) : Proceeds h h' := by
  cases hp
  case written | rewritten => exact ⟨rfl, rfl, rfl, Nat.le_succ _⟩
  case removed | left => exact proceeds_unregister
  all_goals exact ⟨rfl, rfl, rfl, le_rfl⟩

/-- **A handler changes nothing of another instance.** -/
theorem Performs.spares (hp : Performs h owner p h' next) (hi : i ≠ owner) : Spares h h' i := by
  cases hp
  case staged => exact spares_stageAuthority hi
  case written | rewritten => exact spares_register hi
  case bound => exact spares_bindRegistration hi
  case unstaged | restaged =>
    rw [← stagePrevious_eq]
    exact spares_stagePrevious hi
  case rebound =>
    rw [← bindPrevious_eq]
    exact spares_bindPrevious hi
  case finalized | refinalized => exact ⟨view_onRegisterAny.trans (if_neg hi), rfl⟩
  case removed | left => exact spares_unregister hi
  case cleared => exact ⟨view_onUnregister.trans (if_neg hi), rfl⟩
  case recorded | notRecorded | committed | kept | notKept | restored | notRestored | closed
    | revoked | notRevoked | finished | stayed => exact spares_setSlot hi
  all_goals exact ⟨rfl, rfl⟩

/-! ### Steps as an instance sees them -/

/-- Handlers run to their end. -/
def Complete : Action H → Prop
  | .drop _ => False
  | _ => True

instance : DecidablePred (Complete : Action H → Prop)
  | .drop _ => .isFalse id
  | .register .. | .unregister .. | .push .. | .advance .. | .evict .. | .deliver .. | .tick ..
  | .publish .. | .invalidate .. | .query .. => .isTrue trivial

/-- A step for the instance itself. -/
inductive Own (h : Server H) (i : InstanceId) : Action H → Server H → Prop
  | begin {t : Nat} {presented : Option MutationCredential} {participates : Bool}
      {permit : RegistrationPermit} (free : h.tasks t = none)
      (granted : (h.credentials i).beginRegistration i presented h.minted h.minted = .ok permit) :
      Own h i (.register t i presented participates)
        ({ h.setSlot i (Slot.started permit) with minted := h.minted + 1 }.spawn t i
          (some (.stage permit participates)))
  | leave {t : Nat} {presented : Option MutationCredential} {registration : CommittedRegistration}
      (free : h.tasks t = none)
      (granted : (h.credentials i).beginUnregister i presented = .ok registration) :
      Own h i (.unregister t i presented)
        ((h.setSlot i (some (.unregistering registration))).spawn t i
          (some (.removeUnregister registration)))
  | push {t : Nat} {snapshot : Tier.TierPlacementSnapshot H} {credential : MutationCredential}
      {epoch : RegistrationEpoch} (free : h.tasks t = none) (own : snapshot.instanceId = i)
      (authorized : h.directory.authorizeOwnerEpoch i credential = .ok epoch) :
      Own h i (.push t snapshot credential) (h.spawn t i (some (.install snapshot epoch)))
  | advance {t : Nat} {ok : Bool} {p : Point H} {after : Server H} {next : Option (Point H)}
      (running : h.tasks t = some ⟨i, p⟩) (performed : h.perform i ok p = (after, next))
      (performs : Performs h i p after next) :
      Own h i (.advance t ok) (after.spawn t i next)
  | evict {incarnation : RegistryIncarnation} (entry : h.registry.entries i = some incarnation) :
      Own h i (.evict i)
        { h.unregister i incarnation with notices := insert (i, incarnation) h.notices }
  | deliver {t : Nat} {incarnation : RegistryIncarnation} (free : h.tasks t = none)
      (noticed : (i, incarnation) ∈ h.notices) :
      Own h i (.deliver t i incarnation)
        ({ h.setSlot i ((h.credentials i).beginRevocation incarnation).2 with
            notices := h.notices.erase (i, incarnation) }.spawn t i
          (match ((h.credentials i).beginRevocation incarnation).1 with
            | .cleanup => some (.onUnregister (.finish incarnation .done))
            | .ignore => none))

/-- **Every step is a step of somebody else, or one of the instance itself.** -/
theorem step_cases {a : Action H} (ha : Complete a) (hs : h.step a = some h') :
    Apart h h' i ∨ Own h i a h' := by
  have called (d : BundleDirectory H) (hd : d.standing i = h.directory.standing i) :
      Apart h { h with directory := d } i :=
    ⟨⟨View.ext rfl hd, rfl⟩, fun _ => .rfl, fun _ _ => .rfl, le_rfl, le_rfl⟩
  have same : Apart h h i := called h.directory rfl
  have free_of {t : Nat} (hf : ¬(h.tasks t).isSome = true) : h.tasks t = none := by simpa using hf
  have none_of {t : Nat} (hf : h.tasks t = none) (p : Point H) : h.tasks t ≠ some ⟨i, p⟩ := by
    simp [hf]
  cases a with
  | register t owner =>
    simp only [step] at hs
    split_ifs at hs with hfree
    split at hs
    · cases hs
      exact .inl same
    rename_i permit hpermit
    cases hs
    by_cases hi : i = owner
    · subst hi
      exact .inr (.begin (free_of hfree) hpermit)
    have hsp : Spares h (h.setSlot owner (Slot.started permit)) i := spares_setSlot hi
    exact .inl (apart_spawn hi ⟨hsp.view, hsp.entry⟩ (fun _ => .rfl) rfl le_rfl (Nat.le_succ _)
      (none_of (free_of hfree)))
  | unregister t owner =>
    simp only [step] at hs
    split_ifs at hs with hfree
    split at hs
    · cases hs
      exact .inl same
    rename_i registration hregistration
    cases hs
    by_cases hi : i = owner
    · subst hi
      exact .inr (.leave (free_of hfree) hregistration)
    · exact .inl (apart_spawn hi (spares_setSlot hi) (fun _ => .rfl) rfl le_rfl le_rfl
        (none_of (free_of hfree)))
  | push t snapshot =>
    simp only [step] at hs
    split_ifs at hs with hfree
    split at hs
    · rename_i epoch _ hepoch
      cases hs
      by_cases hi : i = snapshot.instanceId
      · subst hi
        exact .inr (.push (free_of hfree) rfl hepoch)
      · exact .inl (apart_spawn hi .refl (fun _ => .rfl) rfl le_rfl le_rfl
          (none_of (free_of hfree)))
    · cases hs
      exact .inl same
  | advance t ok =>
    simp only [step, Option.map_eq_some_iff] at hs
    obtain ⟨⟨owner, p⟩, hrunning, rfl⟩ := hs
    by_cases hi : i = owner
    · subst hi
      exact .inr (.advance hrunning rfl (perform_performs h i ok p))
    have hp := (perform_performs h owner ok p).proceeds
    refine .inl (apart_spawn hi ((perform_performs h owner ok p).spares hi)
      (fun q => by rw [hp.notices]) hp.tasks hp.incarnation hp.minted.ge fun p' => ?_)
    rw [hrunning]
    intro heq
    cases heq
    exact hi rfl
  | drop => exact ha.elim
  | evict owner =>
    simp only [step, Option.map_eq_some_iff] at hs
    obtain ⟨incarnation, hentry, rfl⟩ := hs
    by_cases hi : i = owner
    · subst hi
      exact .inr (.evict hentry)
    have hp : Proceeds h (h.unregister owner incarnation) := proceeds_unregister
    have hsp : Spares h (h.unregister owner incarnation) i := spares_unregister hi
    exact .inl ⟨⟨hsp.view, hsp.entry⟩, fun q => by simp [hi], fun _ _ => .rfl, hp.incarnation,
      le_rfl⟩
  | deliver t owner incarnation =>
    simp only [step] at hs
    split_ifs at hs with hguard
    cases hs
    obtain ⟨hrunning, hdelivered⟩ := not_or.mp hguard
    have hfree := free_of hrunning
    have hnoticed := not_not.mp hdelivered
    by_cases hi : i = owner
    · subst hi
      exact .inr (.deliver hfree hnoticed)
    have hsp : Spares h (h.setSlot owner ((h.credentials owner).beginRevocation incarnation).2) i :=
      spares_setSlot hi
    exact .inl (apart_spawn hi ⟨hsp.view, hsp.entry⟩ (fun q => by simp [hi]) rfl le_rfl le_rfl
      (none_of hfree))
  | tick =>
    cases hs
    exact .inl (called _ rfl)
  | publish =>
    cases hs
    refine .inl (called _ ?_)
    simp only [BundleDirectory.publish]
    split
    · rfl
    split
    · rfl
    rename_i haccept
    obtain ⟨-, index, -, rfl⟩ := BundleDirectoryState.accept_eq_ok haccept
    rfl
  | invalidate =>
    cases hs
    refine .inl (called _ ?_)
    simp only [BundleDirectory.invalidate]
    split
    · rfl
    split
    · rfl
    · rename_i hretire
      obtain ⟨r, -, rfl | ⟨rfl, -⟩⟩ := BundleDirectoryState.retire_eq_ok hretire <;> rfl
  | query =>
    cases hs
    refine .inl (called _ ?_)
    simp only [BundleDirectory.step]
    split_ifs <;> rfl

end Kvbm.Hub.Registration.Server
