/-
The phases of a registration.

At each point of a register handler the credential and the directory stand in one definite way,
whatever the removals of the instance's entries do in the meantime.  Of a registration that is
under way the directory still has the authority of the one before, or has none and keeps the
transition; it never has the new one before the credential is committed.
-/
import Kvbm.Proofs.Hub.Registration.Known

namespace Kvbm.Hub.Registration

open Hub.Bundle CommittedRegistration Standing RegistrationPermit Slot

variable {H : Type}

/-- What the directory grants a committed registration. -/
def CommittedRegistration.authority (r : CommittedRegistration) : Option OwnerAuthority :=
  if r.participates then some ⟨r.credential, r.registrationEpoch⟩ else none

namespace RegistrationPermit

/-- The authority of the registration that the permit would replace. -/
def before (permit : RegistrationPermit) : Option OwnerAuthority := permit.previous.bind authority

/-- The authority that the permit leads to. -/
def next (permit : RegistrationPermit) (participates : Bool) : NextAuthority :=
  .of (if participates then some permit.credential else none) permit.registrationEpoch

/-- How the owner stands while the transition is pending; `bound` is the entry it waits for. -/
def staging (permit : RegistrationPermit) (participates : Bool)
    (bound : Option RegistryIncarnation) : Standing :=
  if permit.before = (permit.next participates).toOption then (permit.before, none)
  else (none, some ⟨permit.before, permit.next participates, permit.registrationEpoch, bound⟩)

/-- The permit's credential and epoch are not those of the registration before. -/
def Fresh (permit : RegistrationPermit) : Prop :=
  ∀ r, permit.previous = some r →
    r.credential ≠ permit.credential ∧ r.registrationEpoch ≠ permit.registrationEpoch

end RegistrationPermit

/-! ### Standings along a transition -/

section Standings

variable {permit : RegistrationPermit} {participates : Bool} {bound : Option RegistryIncarnation}
  {incarnation : RegistryIncarnation} {previous : CommittedRegistration}

theorem toOption_previous :
    (NextAuthority.of (if previous.participates then some previous.credential else none)
      previous.registrationEpoch).toOption = previous.authority := by
  unfold authority
  split_ifs <;> rfl

theorem finalize_staging :
    (permit.staging participates (some incarnation)).finalize incarnation =
      ((permit.next participates).toOption, none) := by
  simp only [staging]
  split_ifs with hsame
  · simp [finalize, hsame]
  · simp [finalize]

/-- A pending transition is taken back by staging what was there before. -/
theorem stage_staging (participates : Bool) (bound : Option RegistryIncarnation)
    (hprevious : permit.previous = some previous) :
    (permit.staging participates bound).stage
      (.of (if previous.participates then some previous.credential else none)
        previous.registrationEpoch) previous.registrationEpoch = some (permit.before, none) := by
  have hbefore : permit.before = previous.authority := by
    simp [before, hprevious]
  by_cases hsame : permit.before = (permit.next participates).toOption
  · rw [staging, if_pos hsame]
    simp only [stage, toOption_previous, hbefore, if_true]
  have hne : permit.next participates ≠
      NextAuthority.of (if previous.participates then some previous.credential else none)
        previous.registrationEpoch := by
    intro heq
    rw [heq, toOption_previous] at hsame
    exact hsame hbefore
  rw [staging, if_neg hsame]
  simp only [stage, if_neg hne, toOption_previous, hbefore, if_true]

end Standings

/-! ### Phases -/

/-- The directory does not grant what the permit leads to. -/
def Withheld (permit : RegistrationPermit) (s : Standing) : Prop :=
  ∀ a, s.1 = some a →
    a.credential ≠ permit.credential ∧ a.registrationEpoch ≠ permit.registrationEpoch

/-- While a transition is pending there is no authority. -/
def Exclusive (s : Standing) : Prop := s.2 = none ∨ s.1 = none

/-- Nothing is staged: the authority is that of the registration before. -/
structure Begun (permit : RegistrationPermit) (v : View) : Prop where
  holds : v.slot.Holds permit
  standing : v.standing = (permit.before, none)

structure Staged (permit : RegistrationPermit) (participates : Bool)
    (bound : Option RegistryIncarnation) (v : View) : Prop where
  holds : v.slot.Holds permit
  standing : v.standing = permit.staging participates bound

/-- The registration is given up, and the credential not yet released. -/
structure Doomed (permit : RegistrationPermit) (v : View) : Prop where
  holds : v.slot.Holds permit
  withheld : Withheld permit v.standing
  exclusive : Exclusive v.standing

/-- No registration is under way: the directory has what the credential is good for. -/
def Settled (v : View) : Prop :=
  match v.slot with
  | some (.active r) | some (.unregistering r) => v.standing = (r.authority, none)
  | some (.revoking _) => v.standing.2 = none
  | some (.registering _) => False
  | _ => v.standing = (none, none)

/-- The credential is committed and the transition still pending, unless the registration has been
removed since. -/
inductive Committed (permit : RegistrationPermit) (participates : Bool)
    (incarnation : RegistryIncarnation) : View → Prop
  | active {v : View} {r : CommittedRegistration}
      (registration : v.slot.registration = some r)
      (eq : r = ⟨permit.credential, permit.registrationEpoch, participates, incarnation⟩)
      (standing : v.standing = permit.staging participates (some incarnation)) :
      Committed permit participates incarnation v
  | revoking {v : View} {q : RegistryIncarnation} (slot : v.slot = some (.revoking q))
      (standing : v.standing = permit.staging participates (some incarnation) ∨
        v.standing = (none, none)) : Committed permit participates incarnation v
  | gone {v : View} (vacant : v.slot.Vacant) (standing : v.standing = (none, none)) :
      Committed permit participates incarnation v

def After.Stands : After → View → Prop
  | done, v => Settled v
  | reserve permit, v | retreat permit _, v => Doomed permit v

/-- How things stand when the indexer's `on_unregister` is called. -/
def Rest.Stands : Rest → View → Prop
  | done, v | remove _, v => v.slot.Vacant ∧ Exclusive v.standing
  | dropped, v => Settled v ∧ ∀ r, v.slot.registration = some r → r.participates = false
  | finish _ after, v => after.Stands v
  | resume permit _ _ _, v => Begun permit v ∧ permit.before = none

/-- And when it is done. -/
def Rest.StandsAfter : Rest → View → Prop
  | done, v | remove _, v | dropped, v => Settled v
  | finish _ after, v => after.Stands v
  | resume permit _ _ _, v => Begun permit v

/-- How the credential and the directory stand at a point of a register handler. -/
def Point.Stands : Point H → View → Prop
  | stage permit _, v | restoreFeatures permit _ _ _, v | restoreBind permit _ _ _, v
  | restorePlacements permit _ _ _, v | abortRestored permit _ _ _, v => Begun permit v
  | write permit participates, v | record permit participates _, v
  | bind permit participates _, v => Staged permit participates none v
  | dropPlacements permit participates incarnation, v
  | commit permit participates incarnation, v => Staged permit participates (some incarnation) v
  | finalize permit participates incarnation, v => Committed permit participates incarnation v
  | unstage permit participates, v | restoreWrite permit participates _, v
  | restoreStage permit participates _ _, v =>
    permit.previous ≠ none ∧ ∃ bound, Staged permit participates bound v
  | abortUnchanged permit _, v => if permit.previous = none then Doomed permit v else Begun permit v
  | reserve permit, v | failClosed permit _, v => Doomed permit v
  | remove _ after, v | revoke _ after, v | finishRevocation _ after, v => after.Stands v
  | onUnregister rest, v => rest.Stands v
  | unregisterPlacements rest, v => rest.StandsAfter v
  | _, v => Settled v

/-! ### Register handlers -/

def After.registers : After → Bool
  | done => false
  | reserve _ | retreat _ _ => true

def Rest.registers : Rest → Bool
  | finish _ after => after.registers
  | _ => true

/-- The handler is a register handler, and has something left to do besides removing an entry that
it wrote. -/
def Point.registers : Point H → Bool
  | remove _ after | revoke _ after | finishRevocation _ after => after.registers
  | onUnregister rest | unregisterPlacements rest => rest.registers
  | removeUnregister _ | restoreUnregister _ | install _ _ => false
  | _ => true

/-- The register handler has given the credential up, and not yet cleared the directory. -/
def Point.released : Point H → Bool
  | onUnregister .done | onUnregister (.remove _) => true
  | _ => false

/-- The register handler has committed, put back or given up; the credential may have been revoked
since. -/
def Point.late : Point H → Bool
  | finalize _ _ _ | restoreFinalize _ | onUnregister .dropped | unregisterPlacements .done
  | unregisterPlacements .dropped | unregisterPlacements (.remove _) => true
  | _ => false

section Phases

variable {permit : RegistrationPermit} {participates : Bool} {bound : Option RegistryIncarnation}
  {v : View}

theorem Withheld.before (hf : permit.Fresh) : Withheld permit (permit.before, none) := by
  intro a ha
  obtain ⟨r, hr, ha⟩ := Option.bind_eq_some_iff.mp ha
  unfold authority at ha
  split_ifs at ha
  cases ha
  exact hf r hr

theorem Begun.doomed (hv : Begun permit v) (hf : permit.Fresh) : Doomed permit v := by
  refine ⟨hv.holds, ?_, ?_⟩
  · rw [hv.standing]
    exact .before hf
  · rw [hv.standing]
    exact .inl rfl

section

variable (hv : Staged permit participates bound v)

include hv

theorem Staged.exclusive : Exclusive v.standing := by
  rw [hv.standing, staging]
  split_ifs
  · exact .inl rfl
  · exact .inr rfl

theorem Staged.doomed (hf : permit.Fresh) : Doomed permit v := by
  refine ⟨hv.holds, ?_, hv.exclusive⟩
  rw [hv.standing, staging]
  split_ifs
  · exact .before hf
  · intro a ha
    cases ha

theorem Staged.rollback {attempted : RegistryIncarnation} (hf : permit.Fresh) :
    (permit.rollback participates attempted : Point H).Stands v := by
  unfold RegistrationPermit.rollback
  split
  · exact hv.doomed hf
  · rename_i hprevious
    exact ⟨by simp [hprevious], _, hv⟩

end

theorem Settled.of_vacant (hv : v.slot.Vacant) (hs : v.standing = (none, none)) : Settled v := by
  unfold Settled
  obtain h | ⟨q, h⟩ | ⟨q, h⟩ := hv <;> rw [h] <;> exact hs

theorem Settled.of_registration {r : CommittedRegistration} (hv : v.slot.registration = some r)
    (hs : v.standing = (r.authority, none)) : Settled v := by
  unfold registration at hv
  unfold Settled
  split at hv
  · cases hv
    simp [*]
  · cases hv
    simp [*]
  · cases hv

theorem Settled.pending (hv : Settled v) : v.standing.2 = none := by
  unfold Settled at hv
  split at hv
  · rw [hv]
  · rw [hv]
  · exact hv
  · exact hv.elim
  · rw [hv]

/-- An owner that has no authority is settled without one. -/
theorem Settled.clear (hv : Settled v)
    (hleft : ∀ r, v.slot.registration = some r → r.participates = false) :
    Settled ⟨v.slot, (none, none)⟩ := by
  have hnone : ∀ r, v.slot.registration = some r → r.authority = none := by
    intro r hr
    rw [authority, if_neg (by simp [hleft r hr])]
  obtain ⟨slot, standing⟩ := v
  cases slot with
  | none => rfl
  | some state =>
    cases state with
    | removed => rfl
    | reserved => rfl
    | active r =>
      show _ = (r.authority, none)
      rw [hnone r rfl]
    | registering => exact hv.elim
    | unregistering r =>
      show _ = (r.authority, none)
      rw [hnone r rfl]
    | revoking => rfl

theorem Settled.not_holds (hv : Settled v) : ¬v.slot.Holds permit := by
  rintro ⟨_, _, hslot⟩
  rw [Settled, hslot] at hv
  exact hv

theorem After.Stands.doomed {after : After} (hreg : after.registers = true)
    (hs : after.Stands v) : ∃ permit, Doomed permit v := by
  cases after with
  | done => cases hreg
  | reserve permit => exact ⟨permit, hs⟩
  | retreat permit => exact ⟨permit, hs⟩

/-- **A register handler holds the credential**, has just released it, or is past that. -/
theorem Point.Stands.cases {p : Point H} (hf : ∀ permit, p.permit = some permit → permit.Fresh)
    (hreg : p.registers = true) (hs : p.Stands v) :
    (∃ permit, Doomed permit v) ∨
      p.released = true ∧ v.slot.Vacant ∧ Exclusive v.standing ∨
      p.late = true ∧ (Settled v ∨ ∃ permit participates q, Committed permit participates q v) := by
  cases p with
  | stage | restoreFeatures | restoreBind | restorePlacements | abortRestored =>
    exact .inl ⟨_, Begun.doomed hs (hf _ rfl)⟩
  | write | record | bind | dropPlacements | commit => exact .inl ⟨_, Staged.doomed hs (hf _ rfl)⟩
  | finalize => exact .inr (.inr ⟨rfl, .inr ⟨_, _, _, hs⟩⟩)
  | unstage | restoreWrite | restoreStage => exact .inl ⟨_, hs.2.choose_spec.doomed (hf _ rfl)⟩
  | abortUnchanged =>
    simp only [Point.Stands] at hs
    split_ifs at hs
    · exact .inl ⟨_, hs⟩
    · exact .inl ⟨_, hs.doomed (hf _ rfl)⟩
  | restoreFinalize => exact .inr (.inr ⟨rfl, .inl hs⟩)
  | reserve | failClosed => exact .inl ⟨_, hs⟩
  | remove | revoke | finishRevocation => exact .inl (After.Stands.doomed hreg hs)
  | onUnregister rest =>
    cases rest with
    | done => exact .inr (.inl ⟨rfl, hs⟩)
    | remove => exact .inr (.inl ⟨rfl, hs⟩)
    | dropped => exact .inr (.inr ⟨rfl, .inl hs.1⟩)
    | finish => exact .inl (After.Stands.doomed hreg hs)
    | resume => exact .inl ⟨_, hs.1.doomed (hf _ rfl)⟩
  | unregisterPlacements rest =>
    cases rest with
    | done => exact .inr (.inr ⟨rfl, .inl hs⟩)
    | remove => exact .inr (.inr ⟨rfl, .inl hs⟩)
    | dropped => exact .inr (.inr ⟨rfl, .inl hs⟩)
    | finish => exact .inl (After.Stands.doomed hreg hs)
    | resume => exact .inl ⟨_, Begun.doomed hs (hf _ rfl)⟩
  | removeUnregister | restoreUnregister | install => cases hreg

variable {q : RegistryIncarnation}

theorem Committed.exclusive (hv : Committed permit participates q v) : Exclusive v.standing := by
  have hstaging : Exclusive (permit.staging participates (some q)) := by
    unfold staging
    split_ifs
    · exact .inl rfl
    · exact .inr rfl
  cases hv with
  | active _ _ hs => exact hs ▸ hstaging
  | revoking _ hs =>
    obtain hs | hs := hs
    · exact hs ▸ hstaging
    · exact .inl (by rw [hs])
  | gone _ hs => exact .inl (by rw [hs])

theorem Committed.not_holds {permit' : RegistrationPermit}
    (hv : Committed permit participates q v) : ¬v.slot.Holds permit' := by
  intro hh
  cases hv with
  | active hr => cases hh.registration.symm.trans hr
  | revoking hslot =>
    obtain ⟨_, _, h⟩ := hh
    cases hslot.symm.trans h
  | gone hvacant =>
    obtain ⟨_, _, h⟩ := hh
    obtain h' | ⟨_, h'⟩ | ⟨_, h'⟩ := hvacant <;> cases h.symm.trans h'

end Phases

/-! ### A step of a register handler -/

namespace Server

variable {i : InstanceId} {p p' : Point H} {next : Option (Point H)} {permit : RegistrationPermit}
  {participates : Bool} {q : RegistryIncarnation} {after : After} {v : View}

/-- How things stand where a handler goes. -/
def StandsNext : Option (Point H) → View → Prop
  | none, v => Settled v
  | some p, v => p.Stands v

theorem standsNext_after (hreg : after.registers = true)
    (hs : after.Stands v) : StandsNext (after.point : Option (Point H)) v := by
  cases after with
  | done => cases hreg
  | reserve | retreat => exact hs

/-- A step that neither releases the credential nor grants an authority. -/
theorem After.Stands.congr {v v' : View} (hreg : after.registers = true)
    (hs : after.Stands v) (hslot : ∀ permit, v.slot.Holds permit → v'.slot.Holds permit)
    (hstanding : v'.standing = v.standing ∨ v'.standing.1 = none) : after.Stands v' := by
  have hd : ∀ permit, Doomed permit v → Doomed permit v' := by
    intro permit hd
    obtain heq | hnone := hstanding
    · exact ⟨hslot permit hd.holds, fun a ha => hd.withheld a (heq ▸ ha), heq ▸ hd.exclusive⟩
    · refine ⟨hslot permit hd.holds, fun a ha => ?_, .inr hnone⟩
      cases hnone.symm.trans ha
  cases after with
  | done => cases hreg
  | reserve permit => exact hd permit hs
  | retreat permit => exact hd permit hs

variable [DecidableEq H] {h h' : Server H}

theorem view_setSlot_self {slot : Slot} :
    (h.setSlot i slot).view i = ⟨slot, (h.view i).standing⟩ := by
  rw [view_setSlot, if_pos rfl]

theorem Staged.bind (hv : Staged permit participates none (h.view i)) :
    Staged permit participates (some q)
      ((h.bindRegistration i permit.registrationEpoch q).2.view i) := by
  have hbind : (h.directory.standing i).bind permit.registrationEpoch q =
      some (permit.staging participates (some q)) := by
    rw [show h.directory.standing i = permit.staging participates none from hv.standing]
    simp only [RegistrationPermit.staging]
    split_ifs
    · rfl
    · simp [Standing.bind]
  exact ⟨hv.holds, (BundleDirectory.bindOwnerRegistration_eq hbind).2⟩

theorem bindPrevious_settled (hv : (h.view i).standing.2 = none) :
    (h.bindPrevious i permit q).1 = .ok () ∧
      { h with directory := (h.bindPrevious i permit q).2.directory }.view i = h.view i := by
  unfold bindPrevious
  split
  · exact ⟨rfl, rfl⟩
  have hbind : ∀ epoch, (h.directory.standing i).bind epoch q = some (h.directory.standing i) := by
    intro epoch
    unfold Standing.bind
    rw [show (h.directory.standing i).2 = none from hv]
  obtain ⟨hok, hstanding⟩ := BundleDirectory.bindOwnerRegistration_eq (hbind _)
  exact ⟨hok, View.ext rfl hstanding⟩

variable [Bundle.SequenceHash H]

theorem Begun.stage (hv : Begun permit (h.view i)) :
    (h.stageAuthority i permit.credential permit.registrationEpoch participates).1 = .ok () ∧
      Staged permit participates none
        ((h.stageAuthority i permit.credential permit.registrationEpoch
          participates).2.view i) := by
  have hstage : (h.directory.standing i).stage (permit.next participates)
      permit.registrationEpoch = some (permit.staging participates none) := by
    rw [show h.directory.standing i = (permit.before, none) from hv.standing]
    simp only [Standing.stage, RegistrationPermit.staging]
    split_ifs <;> rfl
  obtain ⟨hok, hstanding⟩ := BundleDirectory.stageOwnerTransition_eq hstage
  exact ⟨hok, hv.holds, hstanding⟩

theorem Staged.unstage {bound : Option RegistryIncarnation} (hprevious : permit.previous ≠ none)
    (hv : Staged permit participates bound (h.view i)) :
    (h.stagePrevious i permit).1 = .ok () ∧
      Begun permit ({ h with directory := (h.stagePrevious i permit).2.directory }.view i) := by
  obtain ⟨previous, hprevious⟩ := Option.ne_none_iff_exists'.mp hprevious
  have hstage := stage_staging participates bound hprevious
  rw [← show h.directory.standing i = permit.staging participates bound from hv.standing] at hstage
  obtain ⟨hok, hstanding⟩ := BundleDirectory.stageOwnerTransition_eq hstage
  simp only [stagePrevious, hprevious]
  exact ⟨hok, hv.holds, hstanding⟩

/-- **Each step of a register handler leads from one phase to the next.** -/
theorem Performs.stands (hf : ∀ permit, p.permit = some permit → permit.Fresh)
    (hreg : p.registers = true) (hs : p.Stands (h.view i)) (hp : Performs h i p h' next) :
    StandsNext next (h'.view i) := by
  cases hp
  case staged => exact (Begun.stage hs).2
  case notStaged hr => cases (Begun.stage hs).1.symm.trans hr
  case written | dropped | rewritten | keptFeature | redropped | reserved | removed => exact hs
  case notWritten =>
    simp only [StandsNext, RegistrationPermit.failedWrite]
    split
    · rename_i hprevious
      simp only [Point.Stands, if_pos hprevious]
      exact Staged.doomed hs (hf _ rfl)
    · rename_i hprevious
      exact ⟨by simp [hprevious], _, hs⟩
  case recorded =>
    rw [view_setSlot_self]
    exact ⟨recordRegistryWrite_holds hs.holds, hs.standing⟩
  case notRecorded permit incarnation _ participates _ =>
    rw [view_setSlot_self]
    have hst : Staged permit participates none
        ⟨((h.credentials i).recordRegistryWrite i permit incarnation).2, (h.view i).standing⟩ :=
      ⟨recordRegistryWrite_holds hs.holds, hs.standing⟩
    exact hst.rollback (hf _ rfl)
  case bound => exact Staged.bind hs
  case notBound | notCommitted => exact Staged.rollback hs (hf _ rfl)
  case committed hc =>
    obtain ⟨-, rfl⟩ := commitRegistration_ok hc
    rw [view_setSlot_self]
    exact .active rfl rfl hs.standing
  case finalized permit participates incarnation =>
    have hsettled : Settled ((h.onRegisterAny i incarnation).view i) := by
      rw [view_onRegisterAny, if_pos rfl]
      cases hs with
      | active hr heq hst =>
        refine .of_registration hr ?_
        rw [hst, finalize_staging, heq]
        cases participates <;> rfl
      | revoking hslot hst =>
        rw [Settled, hslot]
        obtain hst | hst := hst
        · rw [hst, finalize_staging]
        · rw [hst]
          rfl
      | gone hvacant hst =>
        rw [hst]
        exact .of_vacant hvacant rfl
    split_ifs with hdrops
    · refine ⟨hsettled, fun r hr => ?_⟩
      rw [view_onRegisterAny, if_pos rfl] at hr
      have hparticipates : participates = false := by
        simpa [drops] using (Bool.and_eq_true_iff.mp hdrops).2
      cases hs with
      | active hr' heq =>
        cases hr'.symm.trans hr
        rw [heq]
        exact hparticipates
      | revoking hslot =>
        rw [hslot] at hr
        cases hr
      | gone hvacant => cases hvacant.registration.symm.trans hr
    · exact hsettled
  case unstaged permit participates _ =>
    obtain ⟨hprevious, bound, hst⟩ := hs
    show (if permit.previous = none then _ else _)
    rw [if_neg hprevious]
    exact (Staged.unstage hprevious hst).2
  case notUnstaged hr | notRestaged hr =>
    obtain ⟨hprevious, bound, hst⟩ := hs
    cases (Staged.unstage hprevious hst).1.symm.trans hr
  case kept permit participates slot hab =>
    obtain ⟨previous, q, hprevious, hq, -, rfl⟩ := abortRegistration_restored hab
    rw [hprevious] at hq
    cases hq
    simp only [Point.Stands, hprevious, reduceCtorEq, if_false] at hs
    rw [view_setSlot_self]
    show (h.view i).standing = (previous.authority, none)
    rw [hs.standing, before, hprevious]
    rfl
  case notKept permit participates slot hab =>
    rw [abortRegistration_revoked hab, view_setSlot_self]
    refine ⟨.inl rfl, ?_⟩
    simp only [Point.Stands] at hs
    split_ifs at hs
    · exact hs.exclusive
    · exact (hs.doomed (hf _ rfl)).exclusive
  case changed permit participates e hr =>
    refine absurd hr (abortRegistration_ne_error ?_)
    simp only [Point.Stands] at hs
    split_ifs at hs
    · exact hs.holds
    · exact hs.holds
  case notRewritten =>
    obtain ⟨-, bound, hst⟩ := hs
    exact hst.doomed (hf _ rfl)
  case restaged =>
    obtain ⟨hprevious, bound, hst⟩ := hs
    exact (Staged.unstage hprevious hst).2
  case leftFeature participates attempted restored permit hnew hold =>
    refine ⟨hs, ?_⟩
    unfold before
    cases hprevious : permit.previous with
    | none => rfl
    | some previous =>
      rw [hprevious] at hold
      show previous.authority = none
      rw [authority, if_neg (by simpa using hold)]
  case notFeature | notRebound | unreachable => exact Begun.doomed hs (hf _ rfl)
  case rebound =>
    rw [(bindPrevious_settled (by rw [hs.standing])).2]
    exact hs
  case restored permit participates attempted restored slot hab =>
    obtain ⟨previous, q, hprevious, hq, -, rfl⟩ := abortRegistration_restored hab
    rw [view_setSlot_self]
    show (h.view i).standing = (previous.authority, none)
    rw [hs.standing, before, hprevious]
    rfl
  case notRestored hab =>
    rw [abortRegistration_revoked hab, view_setSlot_self]
    exact ⟨.inl rfl, (Begun.doomed hs (hf _ rfl)).exclusive⟩
  case changedRestored hr => exact absurd hr (abortRegistration_ne_error hs.holds)
  case refinalized =>
    rw [view_onRegisterAny, if_pos rfl]
    have hpending : (h.view i).standing.2 = none := Settled.pending hs
    unfold finalize
    rw [hpending]
    exact hs
  case closed reservation _ hc =>
    rw [failClosedRegistration_ok hc, view_setSlot_self]
    refine ⟨?_, hs.exclusive⟩
    cases reservation with
    | none => exact .inl rfl
    | some q => exact .inr (.inr ⟨q, rfl⟩)
  case notClosed hr =>
    obtain ⟨attempted, removed, hslot⟩ := hs.holds
    rw [show h.credentials i = _ from hslot] at hr
    simp [failClosedRegistration] at hr
  case notRemoved => exact standsNext_after hreg hs
  case revoked q after slot hb =>
    obtain ⟨permit, hd⟩ := After.Stands.doomed hreg hs
    obtain ⟨⟨r, hr, -⟩, -⟩ := beginRevocation_cleanup hb
    cases hd.holds.registration.symm.trans hr
  case notRevoked q slot after hb =>
    refine standsNext_after hreg (After.Stands.congr hreg hs ?_ ?_) <;> rw [view_setSlot_self]
    · exact fun permit => (beginRevocation_ignore hb).holds
    · exact .inl rfl
  case cleared rest =>
    show rest.StandsAfter _
    rw [view_onUnregister, if_pos rfl]
    cases rest with
    | done | remove => exact .of_vacant hs.1 rfl
    | dropped => exact Settled.clear hs.1 hs.2
    | finish q after => exact After.Stands.congr hreg hs (fun permit hh => hh) (.inr rfl)
    | resume =>
      obtain ⟨hbegun, hbefore⟩ := hs
      exact ⟨hbegun.holds, by rw [hbefore]⟩
  case clearedPlacements rest => cases rest <;> exact hs
  case finished q after =>
    refine standsNext_after hreg (After.Stands.congr hreg hs ?_ ?_) <;> rw [view_setSlot_self]
    · intro permit hh
      obtain ⟨hslot, -⟩ | ⟨-, hfinish⟩ := finishRevocation_cases (h.credentials i)
      · obtain ⟨_, _, hslot'⟩ := hh
        cases hslot.symm.trans hslot'
      show ((h.credentials i).finishRevocation q).Holds permit
      rw [hfinish]
      exact hh
    · exact .inl rfl
  all_goals cases hreg

end Server

end Kvbm.Hub.Registration
