/-
Registry, credentials and directory agree.

What the phases of the handlers give when they are put together: an instance that no handler is at
work for is registered in all three places or in none, an old removal does nothing to a newer
registration, a registration that is under way grants nothing yet, and one that is rolled back has
changed nothing.
-/
import Kvbm.Proofs.Hub.Bundle.Records
import Kvbm.Proofs.Hub.Registration.Alive

namespace Kvbm.Hub.Registration

open Lib Hub.Bundle Function Option BundleDirectory

variable {H : Type}

/-! ### What a handler asks of the directory -/

/-- The call of the directory that comes next. -/
def Point.asks (i : InstanceId) : Point H → Option (Bundle.Action H)
  | stage permit participates =>
    some (.stage i (if participates then some permit.credential else none) permit.registrationEpoch)
  | unstage permit _ | restoreStage permit _ _ _ => permit.previous.map fun previous =>
    .stage i (if previous.participates then some previous.credential else none)
      previous.registrationEpoch
  | bind permit _ incarnation => some (.bind i permit.registrationEpoch incarnation)
  | restoreBind permit _ _ restored => permit.previous.map fun previous =>
    .bind i previous.registrationEpoch restored
  | finalize _ _ incarnation | restoreFinalize incarnation => some (.finalize i incarnation)
  | onUnregister _ => some (.removeOwner i)
  | _ => none

/-- The incarnation whose removal the handler reports or cleans up after. -/
def Point.serves : Point H → Option RegistryIncarnation
  | revoke q _ => some q
  | p => p.cleans

/-- The permit of a handler whose next call gives the credential back as it was, and the entry
that the credential then goes with. -/
def Point.aborts : Point H → Option (RegistrationPermit × Option RegistryIncarnation)
  | abortUnchanged permit _ => some (permit, permit.previous.map CommittedRegistration.incarnation)
  | abortRestored permit _ _ restored => some (permit, some restored)
  | _ => none

/-- The permit of a handler that takes its registration back, and how many steps that call is
away at most. -/
def Point.rollsBack : Point H → Option (RegistrationPermit × Nat)
  | abortUnchanged permit _ | abortRestored permit _ _ _ => some (permit, 0)
  | unstage permit _ | restorePlacements permit _ _ _ => some (permit, 1)
  | restoreBind permit _ _ _ => some (permit, 2)
  | unregisterPlacements (.resume permit _ _ _) => some (permit, 3)
  | onUnregister (.resume permit _ _ _) => some (permit, 4)
  | restoreFeatures permit _ _ _ => some (permit, 5)
  | restoreStage permit _ _ _ => some (permit, 6)
  | restoreWrite permit _ _ => some (permit, 7)
  | _ => none

namespace Server

variable [DecidableEq H] {h h' : Server H} {i j : InstanceId}
  {p p' : Point H} {next : Option (Point H)} {t : Nat} {q : RegistryIncarnation}
  {permit : RegistrationPermit} {r : CommittedRegistration}

/-! ### The parts -/

/-- No register or unregister handler and no callback is at work for the instance; a push of
placements may be. -/
def Idle (h : Server H) (i : InstanceId) : Prop :=
  ∀ t p, h.tasks t = some ⟨i, p⟩ → ∃ snapshot epoch, p = .install snapshot epoch

section

variable (hc : Coherent h i)

include hc

theorem Coherent.settled_of_idle (hidle : h.Idle i) : Settled (h.view i) := by
  refine hc.phased.settled fun t p ht => ?_
  obtain ⟨_, _, rfl⟩ := hidle t p ht
  rfl

/-- A state that a handler gives back is given back when the handlers are done. -/
theorem Coherent.rest (hidle : h.Idle i) :
    (∀ progress, h.credentials i ≠ some (.registering progress)) ∧
      (∀ r, h.credentials i ≠ some (.unregistering r)) ∧
      ∀ q, h.credentials i ≠ some (.revoking q) := by
  refine ⟨?_, ?_, ?_⟩
  · intro progress hslot
    have hsettled := hc.settled_of_idle hidle
    rw [Settled, show (h.view i).slot = _ from hslot] at hsettled
    exact hsettled
  · intro r hslot
    obtain ⟨t, p, ht, hp⟩ := hc.tidy.leaving r hslot
    obtain ⟨_, _, rfl⟩ := hidle t p ht
    exact hp
  · intro q hslot
    obtain ⟨t, p, ht, hp⟩ := hc.tidy.revoking q hslot
    obtain ⟨_, _, rfl⟩ := hidle t p ht
    cases hp

theorem Coherent.active (ha : Alive h i) (hidle : h.Idle i)
    (hr : h.credentials i = some (.active r)) :
    (h.registry.entries i = some r.incarnation ∨ (i, r.incarnation) ∈ h.notices) ∧
      h.directory.standing i = (r.authority, none) := by
  refine ⟨?_, ?_⟩
  · obtain hentry | hnotice | ⟨t, p, ht, hp⟩ :=
      ha.registered r (by rw [show (h.view i).slot = _ from hr]; rfl)
    · exact .inl hentry
    · exact .inr hnotice
    · obtain ⟨_, _, rfl⟩ := hidle t p ht
      cases hp
  · have hsettled := hc.settled_of_idle hidle
    rw [Settled, show (h.view i).slot = _ from hr] at hsettled
    exact hsettled

theorem Coherent.fresh (ht : h.tasks t = some ⟨i, p⟩) :
    ∀ permit, p.permit = some permit → permit.Fresh :=
  fun permit hpermit r => hc.known.permit_new t p permit r ht hpermit

theorem Coherent.exclusive : Exclusive (h.view i).standing := by
  by_cases hreg : ∃ t p, h.tasks t = some ⟨i, p⟩ ∧ p.registers = true
  · obtain ⟨t, p, ht, hreg⟩ := hreg
    obtain ⟨permit, hd⟩ | ⟨-, -, he⟩ | ⟨-, hsettled | ⟨_, _, _, hcommitted⟩⟩ :=
      (hc.phased.stands t p ht hreg).cases (hc.fresh ht) hreg
    · exact hd.exclusive
    · exact he
    · exact .inl hsettled.pending
    · exact hcommitted.exclusive
  · refine .inl (Settled.pending (hc.phased.settled fun t p ht => ?_))
    exact Bool.eq_false_iff.mpr fun hp => hreg ⟨t, p, ht, hp⟩

theorem Coherent.withheld {progress : RegistrationInProgress}
    (hslot : h.credentials i = some (.registering progress)) :
    ∀ a, (h.directory.standing i).1 = some a →
      a.credential ≠ progress.credential ∧ a.registrationEpoch ≠ progress.registrationEpoch := by
  by_cases hreg : ∃ t p, h.tasks t = some ⟨i, p⟩ ∧ p.registers = true
  · obtain ⟨t, p, ht, hreg⟩ := hreg
    have hholds : (h.view i).slot.Holds ⟨progress.credential, progress.registrationEpoch, none⟩ :=
      ⟨_, _, hslot⟩
    obtain ⟨permit, hd⟩ | ⟨-, hvacant, -⟩ | ⟨-, hsettled | ⟨_, _, _, hcommitted⟩⟩ :=
      (hc.phased.stands t p ht hreg).cases (hc.fresh ht) hreg
    · obtain ⟨_, _, hslot'⟩ := hd.holds
      cases hslot.symm.trans hslot'
      exact hd.withheld
    · obtain h' | ⟨_, h'⟩ | ⟨_, h'⟩ := hvacant <;> cases hslot.symm.trans h'
    · exact absurd hholds hsettled.not_holds
    · exact absurd hholds hcommitted.not_holds
  · have hsettled := hc.phased.settled fun t p ht =>
      Bool.eq_false_iff.mpr fun hp => hreg ⟨t, p, ht, hp⟩
    rw [Settled, show (h.view i).slot = _ from hslot] at hsettled
    exact hsettled.elim

end

/-! ### The calls of the directory -/

variable [Bundle.SequenceHash H]

/-- A handler leaves the directory, or makes the call that comes next. -/
theorem Performs.asks (hp : Performs h i p h' next) :
    h'.directory = h.directory ∨ ∃ b, p.asks i = some b ∧ h'.directory = h.directory.step b := by
  cases hp
  case staged | bound | finalized | refinalized | cleared => exact .inr ⟨_, rfl, rfl⟩
  case unstaged permit _ _ | restaged permit _ _ _ _ =>
    simp only [stagePrevious, Point.asks]
    cases permit.previous with
    | none => exact .inl rfl
    | some => exact .inr ⟨_, rfl, rfl⟩
  case rebound permit _ _ _ _ =>
    simp only [bindPrevious, Point.asks]
    cases permit.previous with
    | none => exact .inl rfl
    | some => exact .inr ⟨_, rfl, rfl⟩
  all_goals exact .inl rfl

variable {a : Action H} {d : BundleDirectory H}

theorem directory_step (hs : h.step a = some h') :
    h'.directory = h.directory ∨ (∃ t ok i p b, a = .advance t ok ∧ h.tasks t = some ⟨i, p⟩ ∧
        p.asks i = some b ∧ h'.directory = h.directory.step b) ∨
      (∃ b, h'.directory = h.directory.step b ∧
        ((∃ now, b = .tick now) ∨ (∃ request, b = .query request) ∨
          (∃ request, b = .publish request ∧ a = .publish request) ∨
          ∃ request, b = .invalidate request ∧ a = .invalidate request)) := by
  cases a with
  | register | unregister | push =>
    simp only [step] at hs
    split_ifs at hs
    split at hs <;> cases hs <;> exact .inl rfl
  | advance t ok =>
    simp only [step, map_eq_some_iff] at hs
    obtain ⟨⟨owner, p⟩, hrunning, rfl⟩ := hs
    obtain hsame | ⟨b, hb, hstep⟩ := (perform_performs h owner ok p).asks
    · exact .inl hsame
    · exact .inr (.inl ⟨t, ok, owner, p, b, rfl, hrunning, hb, hstep⟩)
  | drop =>
    simp only [step, bind_eq_some_iff] at hs
    obtain ⟨task, -, hs⟩ := hs
    split_ifs at hs
    cases hs
    exact .inl rfl
  | evict =>
    simp only [step, map_eq_some_iff] at hs
    obtain ⟨q, -, rfl⟩ := hs
    exact .inl rfl
  | deliver =>
    simp only [step] at hs
    split_ifs at hs
    cases hs
    exact .inl rfl
  | tick now =>
    cases hs
    exact .inr (.inr ⟨_, rfl, .inl ⟨now, rfl⟩⟩)
  | publish request =>
    cases hs
    exact .inr (.inr ⟨.publish request, rfl, .inr (.inr (.inl ⟨request, rfl, rfl⟩))⟩)
  | invalidate request =>
    cases hs
    exact .inr (.inr ⟨.invalidate request, rfl, .inr (.inr (.inr ⟨request, rfl, rfl⟩))⟩)
  | query request =>
    cases hs
    exact .inr (.inr ⟨_, rfl, .inr (.inl ⟨request, rfl⟩)⟩)

theorem directory_sound (hd : h.directory.state.Sound) (hs : h.step a = some h') :
    h'.directory.state.Sound := by
  have hmoves : ∀ b, (h.directory.step b).state.Sound := fun b =>
    (moves_step (p := fun _ => False) hd b fun _ _ => id).sound
  obtain hsame | ⟨_, _, _, _, b, -, -, -, hstep⟩ | ⟨b, hstep, -⟩ := directory_step hs
  · rw [hsame]
    exact hd
  · rw [hstep]
    exact hmoves b
  · rw [hstep]
    exact hmoves b

theorem clock_step (hs : h.step a = some h') : h.directory.clock ≤ h'.directory.clock := by
  obtain hsame | ⟨_, _, _, _, b, -, -, -, hstep⟩ | ⟨b, hstep, -⟩ := directory_step hs
  · rw [hsame]
  · rw [hstep]
    exact clock_le_step
  · rw [hstep]
    exact clock_le_step

/-! ### Old removals -/

/-- The step reports the removal of `q`, or cleans up after it. -/
def Serves (h : Server H) (i : InstanceId) (q : RegistryIncarnation) (a : Action H) : Prop :=
  (∃ t, a = .deliver t i q) ∨
    ∃ t ok p, a = .advance t ok ∧ h.tasks t = some ⟨i, p⟩ ∧ p.serves = some q

/-- **An old removal does nothing to a newer registration**, whether that is committed or still
under way, and never takes an entry out. -/
theorem Coherent.serves (hc : Coherent h i) (hs : h.step a = some h') (hserves : h.Serves i q a) :
    h'.registry.entries i = h.registry.entries i ∧
      (∀ r, (h.credentials i).registration = some r → r.incarnation ≠ q → h'.view i = h.view i) ∧
      ∀ permit, (h.credentials i).Holds permit →
        (h'.credentials i).Holds permit ∧ h'.directory.standing i = h.directory.standing i := by
  -- the credential after the report
  have hset : (h.setSlot i ((h.credentials i).beginRevocation q).2).credentials i = _ :=
    credentials_setSlot
  obtain ⟨hsame, hholds⟩ := @Slot.beginRevocation_spares (h.credentials i) q
  rw [← hset] at hsame hholds
  obtain ⟨t, rfl⟩ | ⟨t, ok, p, rfl, ht, hp⟩ := hserves
  · simp only [step] at hs
    split_ifs at hs
    cases hs
    exact ⟨rfl, fun r hr hne => View.ext (hsame r hr hne) rfl, fun _ hh => ⟨hholds _ hh, rfl⟩⟩
  · simp only [step, ht, map_some, some.injEq] at hs
    subst hs
    have hperforms := perform_performs h i ok p
    generalize h.perform i ok p = after at hperforms ⊢
    obtain ⟨after, next⟩ := after
    simp only at hperforms ⊢
    cases hclean : p.cleans with
    | some q' =>
      -- the credential is being revoked, so nothing is registered and nothing under way
      have hslot := (hc.tidy.cleaning t p q' ht hclean).slot
      have hentry : after.registry.entries i = h.registry.entries i := by
        cases hperforms <;> first | rfl | cases hclean
      refine ⟨hentry, fun r hr => ?_, fun permit hh => ?_⟩
      · rw [show h.credentials i = _ from hslot] at hr
        cases hr
      · obtain ⟨_, _, hslot'⟩ := hh
        cases hslot.symm.trans hslot'
    | none =>
      cases hperforms
      case revoked hb | notRevoked hb =>
        cases hp
        rw [hb] at hsame hholds
        exact ⟨rfl, fun r hr hne => View.ext (hsame r hr hne) rfl, fun _ hh => ⟨hholds _ hh, rfl⟩⟩
      all_goals cases hclean.symm.trans hp

/-! ### Nothing is granted before its time -/

theorem publish_refused {request : BundlePublishRequest H}
    (hd : ∀ a, d.state.ownerCredentials request.advertisement.owner = some a →
      a.credential ≠ request.credential) : ∃ e, (d.publish request).1 = .error e := by
  have hrefused : ∃ e, d.state.authorizeOwner request.advertisement.owner request.credential =
      .error e := by
    unfold BundleDirectoryState.authorizeOwner
    split
    · exact ⟨_, rfl⟩
    rename_i a ha
    rw [if_pos (hd a ha)]
    exact ⟨_, rfl⟩
  obtain ⟨e, he⟩ := hrefused
  have hcheck : ∃ e, d.checkPublish request = .error e := by
    unfold checkPublish
    simp only [he]
    cases (validateBundleLineages request.advertisement.key request.advertisement.requirements
      request.advertisement.lineages).mapError BundleDirectoryError.invalidAdvertisement with
    | error e' => exact ⟨e', rfl⟩
    | ok =>
      cases checkPlacements request.advertisement with
      | error e' => exact ⟨e', rfl⟩
      | ok => exact ⟨e, rfl⟩
  obtain ⟨e', he'⟩ := hcheck
  exact ⟨e', by rw [publish, he']⟩

/-- What a query returns is granted now. -/
theorem hit_granted {δ : Type} [LinearOrder δ] {display : InstanceId → δ}
    {leaseId : Nat} {request : BundleQueryRequest H} {hit : BundleQueryHit H} (hs : d.state.Sound)
    (hhit : d.answer display leaseId request = .hit hit) :
    ∃ a, (d.standing hit.advertisement.owner).1 = some a ∧
      hit.advertisement.registrationEpoch = some a.registrationEpoch :=
  (BundleDirectoryState.search_first hs (answer_hit hhit)).eligible.authority

/-! ### What a rollback leaves -/

/-- **A rollback gives back the credential and the authority that were there**, unless the entry is
reported removed. -/
theorem Coherent.aborted {entry : Option RegistryIncarnation} (hc : Coherent h i)
    (hs : h.step (.advance t true) = some h') (ht : h.tasks t = some ⟨i, p⟩)
    (hp : p.aborts = some (permit, entry)) :
    h'.credentials i = (h.credentials i).givenBack permit entry ∧
      ∀ previous, permit.previous = some previous →
        h'.directory.standing i = (previous.authority, none) := by
  simp only [step, ht, map_some, some.injEq] at hs
  subst hs
  have hstands := hc.phased.stands t p ht
  have hbegun : (h.credentials i).Holds permit ∧
      ∀ previous, permit.previous = some previous → Begun permit (h.view i) := by
    cases p with
    | abortUnchanged =>
      cases hp
      have hstands := hstands rfl
      simp only [Point.Stands] at hstands
      split_ifs at hstands with hnone
      · exact ⟨hstands.holds, by simp [hnone]⟩
      · exact ⟨hstands.holds, fun _ _ => hstands⟩
    | abortRestored =>
      cases hp
      exact ⟨(hstands rfl).holds, fun _ _ => hstands rfl⟩
    | _ => cases hp
  obtain ⟨outcome, hab⟩ := Slot.abortRegistration_holds i entry hbegun.1
  have hafter : (h.perform i true p).1 =
      h.setSlot i ((h.credentials i).givenBack permit entry) := by
    cases p with
    | abortUnchanged | abortRestored =>
      cases hp
      simp only [perform, hab, if_true]
      cases outcome <;> rfl
    | _ => cases hp
  simp only [hafter]
  refine ⟨credentials_setSlot, fun previous hprevious => ?_⟩
  show (h.view i).standing = _
  rw [(hbegun.2 previous hprevious).standing, RegistrationPermit.before, hprevious]
  rfl

/-- A step of somebody else leaves a handler where it is. -/
theorem tasks_other {a : Action H} (ha : Complete a) (hother : ∀ ok, a ≠ .advance t ok)
    (ht : h.tasks t = some ⟨i, p⟩) (hs : h.step a = some h') : h'.tasks t = some ⟨i, p⟩ := by
  have hfree : ∀ {u}, h.tasks u = none → t ≠ u := by
    rintro u hu rfl
    cases ht.symm.trans hu
  obtain hapart | hown := step_cases ha hs
  · exact (hapart.running t p).mpr ht
  cases hown with
  | begin hu | leave hu | push hu | deliver hu => exact running_else rfl (hfree hu) ht
  | advance _ _ hp =>
    refine running_else hp.proceeds.tasks ?_ ht
    rintro rfl
    exact hother _ rfl
  | evict => exact ht

/-- **A step of a rollback that does not fail outside brings it closer to its abort.** -/
theorem Coherent.rollsBack {k : Nat} (hc : Coherent h i) (ht : h.tasks t = some ⟨i, p⟩)
    (hp : p.rollsBack = some (permit, k)) (hprevious : permit.previous ≠ none) (hk : 0 < k)
    (hs : h.step (.advance t true) = some h') :
    ∃ p' m, h'.tasks t = some ⟨i, p'⟩ ∧ p'.rollsBack = some (permit, m) ∧ m < k := by
  simp only [step, ht, map_some, some.injEq] at hs
  subst hs
  suffices hnext : ∃ p' m, (h.perform i true p).2 = some p' ∧ p'.rollsBack = some (permit, m) ∧
      m < k by
    obtain ⟨p', m, hn, hm⟩ := hnext
    exact ⟨p', m, running_at hn, hm⟩
  have hstands := hc.phased.stands t p ht
  cases p with
  | restoreWrite | restorePlacements =>
    cases hp
    exact ⟨_, _, rfl, rfl, by decide⟩
  | unstage | restoreStage =>
    cases hp
    obtain ⟨-, bound, hst⟩ := hstands rfl
    simp only [perform, (Staged.unstage hprevious hst).1]
    exact ⟨_, _, rfl, rfl, by decide⟩
  | restoreFeatures =>
    cases hp
    simp only [perform, if_true]
    split_ifs
    · exact ⟨_, _, rfl, rfl, by decide⟩
    · exact ⟨_, _, rfl, rfl, by decide⟩
  | restoreBind =>
    cases hp
    simp only [perform, if_true, (bindPrevious_settled (by rw [(hstands rfl).standing])).1]
    exact ⟨_, _, rfl, rfl, by decide⟩
  | onUnregister rest | unregisterPlacements rest =>
    cases rest with
    | resume =>
      cases hp
      exact ⟨_, _, rfl, rfl, by decide⟩
    | _ => cases hp
  | abortUnchanged | abortRestored =>
    cases hp
    cases hk
  | _ => cases hp

theorem touches_asks {b : Bundle.Action H}
    (hb : p.asks j = some b) (htouch : d.Touches i b) : i = j := by
  cases p with
  | stage | finalize | restoreFinalize => cases hb; exact htouch.1
  | bind => cases hb; exact htouch.elim
  | onUnregister => cases hb; exact htouch
  | unstage | restoreStage =>
    obtain ⟨previous, -, rfl⟩ := map_eq_some_iff.mp hb
    exact htouch.1
  | restoreBind =>
    obtain ⟨previous, -, rfl⟩ := map_eq_some_iff.mp hb
    exact htouch.elim
  | _ => cases hb

/-- The calls of a register handler that has nothing committed leave the owner's advertisements. -/
theorem Coherent.untouched {b : Bundle.Action H} (hc : Coherent h i)
    (ht : h.tasks t = some ⟨i, p⟩) (hpermit : p.permit = some permit)
    (hbefore : permit.before ≠ none) (hb : p.asks i = some b) : ¬h.directory.Touches i b := by
  have hstands := hc.phased.stands t p ht
  -- a transition is taken back, not finished
  have hback : ∀ {participates : Bool} {bound : Option RegistryIncarnation},
      Staged permit participates bound (h.view i) → ∀ previous, permit.previous = some previous →
      ¬h.directory.Renews i (.stage i
        (if previous.participates then some previous.credential else none)
        previous.registrationEpoch) := by
    rintro participates bound hst previous hprevious ⟨-, pending, hpending, hnext, -⟩
    have hstanding : (h.directory.standing i).2 = (permit.staging participates bound).2 :=
      congrArg Prod.snd hst.standing
    rw [show (h.directory.standing i).2 = some pending from hpending,
      RegistrationPermit.staging] at hstanding
    split_ifs at hstanding with hsame
    · cases hstanding
      refine hsame ?_
      have hnext' : permit.next participates = NextAuthority.of
        (if previous.participates then some previous.credential else none)
        previous.registrationEpoch := hnext
      rw [hnext', toOption_previous, RegistrationPermit.before, hprevious]
      rfl
  cases p with
  | stage =>
    cases hb
    rintro ⟨-, pending, hpending, -⟩
    have hstanding : (h.directory.standing i).2 = none := by
      rw [show h.directory.standing i = _ from (hstands rfl).standing]
    cases hstanding.symm.trans hpending
  | unstage | restoreStage =>
    cases hpermit
    obtain ⟨previous, hprevious, rfl⟩ := map_eq_some_iff.mp hb
    exact hback (hstands rfl).2.choose_spec previous hprevious
  | bind =>
    cases hb
    exact id
  | restoreBind =>
    obtain ⟨previous, hprevious, rfl⟩ := map_eq_some_iff.mp hb
    exact id
  | onUnregister rest =>
    cases rest with
    | resume =>
      cases hpermit
      exact absurd (hstands rfl).2 hbefore
    | done | dropped | finish | remove => cases hpermit
  | finalize | restoreFinalize => cases hpermit
  | _ => cases hb

end Server

end Kvbm.Hub.Registration
