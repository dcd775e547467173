/-
The transitions of a credential's state.

For each operation one lemma says in which state it succeeds and what it leaves.
-/
import Kvbm.Hub.Registration.Credentials

namespace Kvbm.Hub.Registration

open Hub.Bundle

namespace Slot

variable {slot slot' : Slot} {owner : InstanceId} {permit : RegistrationPermit}
  {incarnation : RegistryIncarnation}

/-- The registration that is committed, also while it is being removed. -/
def registration : Slot → Option CommittedRegistration
  | some (.active registration) | some (.unregistering registration) => some registration
  | _ => none

/-- A registration with this permit is in progress. -/
def Holds (slot : Slot) (permit : RegistrationPermit) : Prop :=
  ∃ attempted removed, slot = some (.registering
    ⟨permit.credential, permit.registrationEpoch, attempted, removed⟩)

/-- Nothing is registered, and nothing is going on. -/
def Vacant (slot : Slot) : Prop :=
  slot = none ∨ (∃ q, slot = some (.removed q)) ∨ ∃ q, slot = some (.reserved q)

/-- The removals that have come through while a registration is in progress. -/
def removals : Slot → Finset RegistryIncarnation
  | some (.registering progress) => progress.removedIncarnations
  | _ => ∅

variable {presented : Option MutationCredential}

theorem beginRegistration_ok {credential : MutationCredential} {epoch : RegistrationEpoch}
    (h : slot.beginRegistration owner presented credential epoch = .ok permit) :
    permit.credential = credential ∧ permit.registrationEpoch = epoch ∧
      ((∃ r, slot = some (.active r) ∧ permit.previous = some r) ∨
        (slot = none ∨ ∃ q, slot = some (.removed q)) ∧ permit.previous = none) := by
  unfold beginRegistration at h
  split at h
  · split_ifs at h
    cases h
    exact ⟨rfl, rfl, .inl ⟨_, rfl, rfl⟩⟩
  · cases h
  · split_ifs at h
    cases h
    exact ⟨rfl, rfl, .inr ⟨.inr ⟨_, rfl⟩, rfl⟩⟩
  · split_ifs at h
    cases h
    exact ⟨rfl, rfl, .inr ⟨.inl rfl, rfl⟩⟩
  all_goals cases h

theorem started_holds : (started permit).Holds permit := ⟨none, ∅, rfl⟩

theorem recordRegistryWrite_holds (h : slot.Holds permit) :
    (slot.recordRegistryWrite owner permit incarnation).2.Holds permit := by
  obtain ⟨attempted, removed, rfl⟩ := h
  simp only [recordRegistryWrite, ne_eq, not_true_eq_false, if_false]
  split_ifs <;> exact ⟨_, _, rfl⟩

theorem recordRegistryWrite_cases :
    (slot.recordRegistryWrite owner permit incarnation).2 = slot ∨
      ∃ progress, slot = some (.registering progress) ∧
        (slot.recordRegistryWrite owner permit incarnation).2 =
          some (.registering { progress with attemptedIncarnation := some incarnation }) := by
  unfold recordRegistryWrite
  split
  · split_ifs
    · exact .inl rfl
    · exact .inr ⟨_, rfl, rfl⟩
    · exact .inr ⟨_, rfl, rfl⟩
  · exact .inl rfl

theorem commitRegistration_ok {participates : Bool} {registration : CommittedRegistration}
    (h : slot.commitRegistration owner permit participates incarnation = .ok registration) :
    incarnation ∉ slot.removals ∧
      registration = ⟨permit.credential, permit.registrationEpoch, participates, incarnation⟩ := by
  unfold commitRegistration at h
  split at h
  · split_ifs at h with hguard
    simp only [not_or, not_not] at hguard
    cases h
    exact ⟨hguard.2.2.2, rfl⟩
  · cases h

variable {restored : Option RegistryIncarnation} {q : RegistryIncarnation}

theorem abortRegistration_restored
    (h : slot.abortRegistration owner permit restored = .ok (.restored, slot')) :
    ∃ previous q, permit.previous = some previous ∧ restored = some q ∧ q ∉ slot.removals ∧
      slot' = some (.active { previous with incarnation := q }) := by
  unfold abortRegistration at h
  split at h
  · split_ifs at h
    split at h
    · rename_i previous q hprevious
      split_ifs at h with hremoved <;> cases h
      exact ⟨previous, q, hprevious, rfl, hremoved, rfl⟩
    · cases h
  · cases h

theorem abortRegistration_revoked
    (h : slot.abortRegistration owner permit restored = .ok (.revoked, slot')) : slot' = none := by
  unfold abortRegistration at h
  split at h
  · split_ifs at h
    split at h
    · split_ifs at h <;> cases h
      rfl
    · cases h
      rfl
  · cases h

variable {e : RegistrationCredentialError}

/-- What a rollback gives back: the registration that was there before, unless the entry it goes
with is reported removed. -/
def givenBack (slot : Slot) (permit : RegistrationPermit) (entry : Option RegistryIncarnation) :
    Slot :=
  permit.previous.bind fun previous => entry.bind fun q =>
    if q ∈ slot.removals then none else some (.active { previous with incarnation := q })

theorem abortRegistration_holds (owner : InstanceId) (restored : Option RegistryIncarnation)
    (hh : slot.Holds permit) : ∃ outcome,
      slot.abortRegistration owner permit restored =
        .ok (outcome, slot.givenBack permit restored) := by
  obtain ⟨attempted, removed, rfl⟩ := hh
  simp only [abortRegistration, ne_eq, not_true_eq_false, if_false, givenBack, removals]
  cases permit.previous with
  | none => exact ⟨_, rfl⟩
  | some =>
    cases restored with
    | none => exact ⟨_, rfl⟩
    | some q =>
      by_cases hq : q ∈ removed
      · exact ⟨_, by simp [hq]; rfl⟩
      · exact ⟨_, by simp [hq]; rfl⟩

theorem abortRegistration_ne_error (hh : slot.Holds permit) :
    slot.abortRegistration owner permit restored ≠ .error e := by
  obtain ⟨outcome, heq⟩ := abortRegistration_holds owner restored hh
  simp [heq]

variable {reservation : Option RegistryIncarnation}

theorem failClosedRegistration_ok
    (h : slot.failClosedRegistration owner permit reservation = .ok slot') :
    slot' = reservation.map .reserved := by
  unfold failClosedRegistration at h
  split at h
  · split_ifs at h
    cases h
    rfl
  · cases h

theorem beginUnregister_ok {registration : CommittedRegistration}
    (h : slot.beginUnregister owner presented = .ok registration) :
    slot = some (.active registration) := by
  unfold beginUnregister at h
  split at h
  · split_ifs at h
    cases h
    rfl
  all_goals cases h

theorem restoreUnregister_cases (slot : Slot) {registration : CommittedRegistration} :
    (∃ current, slot = some (.unregistering current) ∧
        current.incarnation = registration.incarnation ∧
        slot.restoreUnregister registration = some (.active registration)) ∨
      slot.restoreUnregister registration = slot := by
  unfold restoreUnregister
  split
  · rename_i current
    split_ifs with hinc
    · exact .inl ⟨current, rfl, hinc, rfl⟩
    · exact .inr rfl
  · exact .inr rfl

/-- A removal has its registration cleaned up only if that is the committed one. -/
theorem beginRevocation_cleanup (h : slot.beginRevocation incarnation = (.cleanup, slot')) :
    (∃ r, slot.registration = some r ∧ r.incarnation = incarnation) ∧
      slot' = some (.revoking incarnation) := by
  unfold beginRevocation at h
  split at h
  case h_3 r =>
    split_ifs at h with hinc <;> cases h
    exact ⟨⟨r, rfl, hinc⟩, rfl⟩
  case h_4 r =>
    split_ifs at h with hinc <;> cases h
    exact ⟨⟨r, rfl, hinc⟩, rfl⟩
  all_goals first | cases h | (split_ifs at h <;> cases h)

/-- What an ignored removal makes of the state. -/
inductive Ignored (q : RegistryIncarnation) : Slot → Slot → Prop
  | early : Ignored q none (some (.removed q))
  | freed : Ignored q (some (.reserved q)) none
  | noted (progress : RegistrationInProgress) :
      Ignored q (some (.registering progress)) (some (.registering
        { progress with removedIncarnations := insert q progress.removedIncarnations }))
  | old {slot : Slot} (other : ∀ r, slot.registration = some r → r.incarnation ≠ q)
      (idle : ∀ progress, slot ≠ some (.registering progress)) : Ignored q slot slot

theorem beginRevocation_ignore (h : slot.beginRevocation incarnation = (.ignore, slot')) :
    Ignored incarnation slot slot' := by
  unfold beginRevocation at h
  split at h
  · cases h
    exact .early
  · split_ifs at h with hq <;> cases h
    · subst hq
      exact .freed
    · exact .old (by simp [registration]) (by simp)
  · split_ifs at h with hq <;> cases h
    exact .old (by simpa [registration] using hq) (by simp)
  · split_ifs at h with hq <;> cases h
    exact .old (by simpa [registration] using hq) (by simp)
  · cases h
    exact .noted _
  · cases h
    exact .old (by simp [registration]) (by simp)
  · cases h
    exact .old (by simp [registration]) (by simp)

theorem Ignored.registration {r : CommittedRegistration}
    (h : Ignored q slot slot') (hr : slot'.registration = some r) : slot.registration = some r := by
  cases h with
  | early | freed | noted => cases hr
  | old => exact hr

theorem Ignored.holds (h : Ignored q slot slot') (hh : slot.Holds permit) : slot'.Holds permit := by
  obtain ⟨attempted, removed, rfl⟩ := hh
  cases h with
  | noted | old => exact ⟨_, _, rfl⟩

theorem Ignored.vacant (h : Ignored q slot slot') (hv : slot.Vacant) : slot'.Vacant := by
  cases h with
  | early => exact .inr (.inl ⟨q, rfl⟩)
  | freed => exact .inl rfl
  | noted => obtain h | ⟨_, h⟩ | ⟨_, h⟩ := hv <;> cases h
  | old => exact hv

theorem Vacant.registration (hv : slot.Vacant) : slot.registration = none := by
  obtain h | ⟨_, h⟩ | ⟨_, h⟩ := hv <;> rw [h] <;> rfl

theorem Holds.registration (hh : slot.Holds permit) : slot.registration = none := by
  obtain ⟨_, _, h⟩ := hh
  rw [h]
  rfl

/-- A removal leaves a registration under another incarnation, and one that is in progress. -/
theorem beginRevocation_spares :
    (∀ r, slot.registration = some r → r.incarnation ≠ q → (slot.beginRevocation q).2 = slot) ∧
      ∀ permit, slot.Holds permit → (slot.beginRevocation q).2.Holds permit := by
  cases hb : slot.beginRevocation q with
  | mk action =>
    cases action with
    | cleanup =>
      obtain ⟨⟨r, hr, hq⟩, -⟩ := beginRevocation_cleanup hb
      refine ⟨fun r' hr' hne => ?_, fun permit hh => ?_⟩
      · cases hr.symm.trans hr'
        exact absurd hq hne
      · cases hh.registration.symm.trans hr
    | ignore =>
      have hi := beginRevocation_ignore hb
      refine ⟨fun r hr _ => ?_, fun permit => hi.holds⟩
      cases hi with
      | early | freed | noted => cases hr
      | old => rfl

theorem finishRevocation_cases (slot : Slot) :
    (slot = some (.revoking incarnation) ∧ slot.finishRevocation incarnation = none) ∨
      slot ≠ some (.revoking incarnation) ∧ slot.finishRevocation incarnation = slot := by
  unfold finishRevocation
  split
  · rename_i current
    split_ifs with hq
    · subst hq
      exact .inl ⟨rfl, rfl⟩
    · exact .inr ⟨by simpa using hq, rfl⟩
  · rename_i hne
    exact .inr ⟨hne incarnation, rfl⟩

end Slot

end Kvbm.Hub.Registration
