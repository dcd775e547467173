/-
Registrations are told apart by their incarnation.

Credentials and epochs are generated anew for each registration, and so is the incarnation of each
write of the registry.  A registration is known to the credentials, to a handler that may put it
back, or to both; two that are known under one incarnation are the same.
-/
import Kvbm.Proofs.Hub.Registration.Slot
import Kvbm.Proofs.Hub.Registration.Steps

namespace Kvbm.Hub.Registration

open Hub.Bundle CommittedRegistration RegistrationPermit Slot

variable {H : Type}

def Rest.permit : Rest → Option RegistrationPermit
  | resume permit _ _ _ => some permit
  | _ => none

def Rest.written : Rest → Option RegistryIncarnation
  | resume _ _ _ restored => some restored
  | _ => none

namespace Point

/-- The permit of a handler that may still commit, or put back what was there before. -/
def permit : Point H → Option RegistrationPermit
  | stage permit _ | write permit _ | record permit _ _ | bind permit _ _
  | dropPlacements permit _ _ | commit permit _ _ | unstage permit _ | abortUnchanged permit _
  | restoreWrite permit _ _ | restoreStage permit _ _ _ | restoreFeatures permit _ _ _
  | restoreBind permit _ _ _ | restorePlacements permit _ _ _ | abortRestored permit _ _ _ =>
    some permit
  | onUnregister rest | unregisterPlacements rest => rest.permit
  | _ => none

/-- The registration that an unregister handler may put back. -/
def leaving : Point H → Option CommittedRegistration
  | removeUnregister registration | restoreUnregister registration => some registration
  | _ => none

/-- The incarnation that a register handler wrote and may commit. -/
def written : Point H → Option RegistryIncarnation
  | record _ _ incarnation | bind _ _ incarnation | dropPlacements _ _ incarnation
  | commit _ _ incarnation => some incarnation
  | restoreStage _ _ _ restored | restoreFeatures _ _ _ restored | restoreBind _ _ _ restored
  | restorePlacements _ _ _ restored | abortRestored _ _ _ restored => some restored
  | onUnregister rest | unregisterPlacements rest => rest.written
  | _ => none

/-- The entry of the registration that a register handler may commit or put back. -/
def target : Point H → Option RegistryIncarnation
  | stage permit _ | write permit _ | unstage permit _ | abortUnchanged permit _ =>
    permit.previous.map incarnation
  | p => p.written

/-- The incarnation whose removal the handler is about to report. -/
def revokes : Point H → Option RegistryIncarnation
  | revoke q _ => some q
  | _ => none

/-- The next call writes the registry. -/
def writes : Point H → Bool
  | write _ _ | restoreWrite _ _ _ => true
  | _ => false

/-- A handler knows a registration that it may put back. -/
def Knows (p : Point H) (r : CommittedRegistration) : Prop :=
  (∃ permit, p.permit = some permit ∧ permit.previous = some r) ∨ p.leaving = some r

theorem not_knows {p : Point H} {r : CommittedRegistration} (hp : p.permit = none)
    (hl : p.leaving = none) : ¬p.Knows r := by
  simp [Knows, hp, hl]

section Edges

variable {p : Point H} {permit : RegistrationPermit} {participates : Bool}
  {attempted : RegistryIncarnation}

theorem edges_failedWrite : (permit.failedWrite participates : Point H).permit = some permit ∧
    (permit.failedWrite participates : Point H).leaving = none ∧
    (permit.failedWrite participates : Point H).written = none ∧
    (permit.failedWrite participates : Point H).target = permit.previous.map incarnation := by
  unfold failedWrite
  split <;> exact ⟨rfl, rfl, rfl, rfl⟩

theorem edges_rollback (h : permit.rollback participates attempted = p) :
    (∀ permit', p.permit = some permit' → permit = permit') ∧ p.leaving = none ∧
      p.written = none ∧ p.target = none := by
  subst h
  unfold rollback
  split
  · exact ⟨nofun, rfl, rfl, rfl⟩
  · exact ⟨fun _ => Option.some.inj, rfl, rfl, rfl⟩

theorem edges_after {after : After} (h : after.point = some p) :
    p.permit = none ∧ p.leaving = none ∧ p.written = none ∧ p.target = none := by
  cases after <;> cases h <;> exact ⟨rfl, rfl, rfl, rfl⟩

theorem edges_rest {rest : Rest} (h : rest.point = some p) : p.permit = rest.permit ∧
    p.leaving = none ∧ p.written = rest.written ∧ p.target = rest.written := by
  cases rest <;> cases h <;> exact ⟨rfl, rfl, rfl, rfl⟩

end Edges

end Point

namespace Server

open Point

variable [DecidableEq H] {h h' : Server H} {i : InstanceId} {p p' : Point H}
  {next : Option (Point H)}

/-! ### What is known of an instance -/

/-- The credentials or a handler know the registration. -/
def Knows (h : Server H) (i : InstanceId) (r : CommittedRegistration) : Prop :=
  (h.credentials i).registration = some r ∨ ∃ t p, h.tasks t = some ⟨i, p⟩ ∧ p.Knows r

/-- A registration that a handler commits: it is new, and the handler wrote its incarnation. -/
structure Commits (p : Point H) (next : Option (Point H)) (r : CommittedRegistration) : Prop where
  written : p.written = some r.incarnation
  done : ∀ p', next = some p' → p'.written = none
  origin : ∃ permit, p.permit = some permit ∧
    (r.credential = permit.credential ∧ r.registrationEpoch = permit.registrationEpoch ∨
      ∃ previous, permit.previous = some previous ∧ r.credential = previous.credential ∧
        r.registrationEpoch = previous.registrationEpoch)

theorem credentials_setSlot {slot : Slot} : (h.setSlot i slot).credentials i = slot :=
  Function.update_self ..

/-- What is known of an instance, and what its handlers have written. -/
structure Known (h : Server H) (i : InstanceId) : Prop where
  unique : ∀ r r', h.Knows i r → h.Knows i r' → r.incarnation = r'.incarnation → r = r'
  incarnation_le : ∀ r, h.Knows i r → r.incarnation ≤ h.registry.lastIncarnation
  credential_lt : ∀ r, h.Knows i r → r.credential < h.minted ∧ r.registrationEpoch < h.minted
  written_le : ∀ t p q, h.tasks t = some ⟨i, p⟩ → p.written = some q →
    q ≤ h.registry.lastIncarnation
  written_new : ∀ t p q r, h.tasks t = some ⟨i, p⟩ → p.written = some q → h.Knows i r →
    r.incarnation ≠ q
  written_once : ∀ t p u p' q, h.tasks t = some ⟨i, p⟩ → p.written = some q →
    h.tasks u = some ⟨i, p'⟩ → p'.written = some q → t = u
  permit_lt : ∀ t p permit, h.tasks t = some ⟨i, p⟩ → p.permit = some permit →
    permit.credential < h.minted ∧ permit.registrationEpoch < h.minted
  permit_new : ∀ t p permit r, h.tasks t = some ⟨i, p⟩ → p.permit = some permit →
    permit.previous = some r →
      r.credential ≠ permit.credential ∧ r.registrationEpoch ≠ permit.registrationEpoch

/-- Nothing new comes to be known or written; a new permit has been generated just now. -/
theorem Known.mono (hk : Known h i) (hknows : ∀ r, h'.Knows i r → h.Knows i r)
    (hwritten : ∀ t p q, h'.tasks t = some ⟨i, p⟩ → p.written = some q →
      ∃ p0, h.tasks t = some ⟨i, p0⟩ ∧ p0.written = some q)
    (hpermit : ∀ t p permit, h'.tasks t = some ⟨i, p⟩ → p.permit = some permit →
      (∃ p0, h.tasks t = some ⟨i, p0⟩ ∧ p0.permit = some permit) ∨
        permit.credential = h.minted ∧ permit.registrationEpoch = h.minted ∧
          h.minted < h'.minted ∧ ∀ r, permit.previous = some r → h.Knows i r)
    (hinc : h.registry.lastIncarnation ≤ h'.registry.lastIncarnation)
    (hminted : h.minted ≤ h'.minted) : Known h' i where
  unique r r' hr hr' := hk.unique r r' (hknows r hr) (hknows r' hr')
  incarnation_le r hr := (hk.incarnation_le r (hknows r hr)).trans hinc
  credential_lt r hr :=
    ⟨(hk.credential_lt r (hknows r hr)).1.trans_le hminted,
      (hk.credential_lt r (hknows r hr)).2.trans_le hminted⟩
  written_le t p q ht hq := by
    obtain ⟨p0, ht0, hq0⟩ := hwritten t p q ht hq
    exact (hk.written_le t p0 q ht0 hq0).trans hinc
  written_new t p q r ht hq hr := by
    obtain ⟨p0, ht0, hq0⟩ := hwritten t p q ht hq
    exact hk.written_new t p0 q r ht0 hq0 (hknows r hr)
  written_once t p u p' q ht hq hu hq' := by
    obtain ⟨p0, ht0, hq0⟩ := hwritten t p q ht hq
    obtain ⟨p1, hu1, hq1⟩ := hwritten u p' q hu hq'
    exact hk.written_once t p0 u p1 q ht0 hq0 hu1 hq1
  permit_lt t p permit ht hp := by
    obtain ⟨p0, ht0, hp0⟩ | ⟨hcred, hepoch, hlt, -⟩ := hpermit t p permit ht hp
    · have hold := hk.permit_lt t p0 permit ht0 hp0
      exact ⟨hold.1.trans_le hminted, hold.2.trans_le hminted⟩
    · exact ⟨hcred ▸ hlt, hepoch ▸ hlt⟩
  permit_new t p permit r ht hp hr := by
    obtain ⟨p0, ht0, hp0⟩ | ⟨hcred, hepoch, -, hprevious⟩ := hpermit t p permit ht hp
    · exact hk.permit_new t p0 permit r ht0 hp0 hr
    have hlt := hk.credential_lt r (hprevious r hr)
    rw [hcred, hepoch]
    exact ⟨hlt.1.ne, hlt.2.ne⟩

/-- A handler that has just been started knows what the credentials know. -/
theorem Known.spawn {t : Nat} (hk : Known h i)
    (hslot : ∀ r, (h'.credentials i).registration = some r → h.Knows i r)
    (htasks : h'.tasks = h.tasks)
    (hinc : h.registry.lastIncarnation ≤ h'.registry.lastIncarnation)
    (hminted : h.minted ≤ h'.minted)
    (hnew : ∀ p, next = some p → p.written = none ∧ (∀ r, p.Knows r → h.Knows i r) ∧
      ∀ permit, p.permit = some permit → permit.credential = h.minted ∧
        permit.registrationEpoch = h.minted ∧ h.minted < h'.minted) :
    Known (h'.spawn t i next) i := by
  refine hk.mono ?_ ?_ ?_ hinc hminted
  · intro r hr
    obtain hr | ⟨u, p, hu, hp⟩ := hr
    · exact hslot r hr
    obtain ⟨-, hn⟩ | ⟨-, hu⟩ := running_cases htasks hu
    · exact (hnew p hn).2.1 r hp
    · exact .inr ⟨u, p, hu, hp⟩
  · intro u p q hu hq
    obtain ⟨-, hn⟩ | ⟨-, hu⟩ := running_cases htasks hu
    · cases (hnew p hn).1.symm.trans hq
    · exact ⟨p, hu, hq⟩
  · intro u p permit hu hp
    obtain ⟨-, hn⟩ | ⟨-, hu⟩ := running_cases htasks hu
    · obtain ⟨-, hknows, hpermit⟩ := hnew p hn
      obtain ⟨hcred, hepoch, hlt⟩ := hpermit permit hp
      exact .inr ⟨hcred, hepoch, hlt, fun r hr => hknows r (.inl ⟨permit, hp, hr⟩)⟩
    · exact .inl ⟨p, hu, hp⟩

theorem known_new {directory : BundleDirectory H} {placements : Tier.Projection H} :
    Known (Server.new directory placements) i := by
  have hnone : ∀ r, ¬(Server.new directory placements).Knows i r := by
    rintro r (hr | ⟨t, p, ht, -⟩)
    · cases hr
    · cases ht
  have hidle : ∀ t p, (Server.new directory placements).tasks t ≠ some ⟨i, p⟩ := by
    intro t p ht
    cases ht
  exact ⟨fun r _ hr => absurd hr (hnone r), fun r hr => absurd hr (hnone r),
    fun r hr => absurd hr (hnone r), fun t p _ ht => absurd ht (hidle t p),
    fun t p _ _ ht => absurd ht (hidle t p), fun t p _ _ _ ht => absurd ht (hidle t p),
    fun t p _ ht => absurd ht (hidle t p), fun t p _ _ ht => absurd ht (hidle t p)⟩

/-! ### A step of a handler -/

variable [Bundle.SequenceHash H] {t : Nat}

/-- What a handler may put back it could before; what it has written it wrote before, or it is a
new incarnation. -/
theorem Performs.carries (hp : Performs h i p h' next) (hn : next = some p') :
    (∀ permit, p'.permit = some permit → p.permit = some permit) ∧
      (∀ r, p'.leaving = some r → p.leaving = some r) ∧
      ∀ q, p'.written = some q → p.written = some q ∨ q = h.registry.lastIncarnation + 1 ∧
        h'.registry.lastIncarnation = h.registry.lastIncarnation + 1 := by
  cases hp
  case finalized =>
    split at hn <;> cases hn
    exact ⟨nofun, nofun, nofun⟩
  case notRemoved | notRevoked | finished =>
    obtain ⟨hpermit, hleaving, hwritten, -⟩ := edges_after hn
    rw [hpermit, hleaving, hwritten]
    exact ⟨nofun, nofun, nofun⟩
  case clearedPlacements =>
    obtain ⟨hpermit, hleaving, hwritten, -⟩ := edges_rest hn
    rw [hpermit, hleaving, hwritten]
    exact ⟨fun _ hq => hq, nofun, fun _ hq => .inl hq⟩
  all_goals cases hn
  case written | rewritten =>
    exact ⟨fun _ hq => hq, nofun, fun _ hq => .inr ⟨(Option.some.inj hq).symm, rfl⟩⟩
  case notStaged | notWritten =>
    obtain ⟨hpermit, hleaving, hwritten, -⟩ := edges_failedWrite
    rw [hpermit, hleaving, hwritten]
    exact ⟨fun _ hq => hq, nofun, nofun⟩
  case notRecorded | notBound | notCommitted =>
    obtain ⟨hpermit, hleaving, hwritten, -⟩ := edges_rollback rfl
    rw [hleaving, hwritten]
    exact ⟨fun _ hq => congrArg some (hpermit _ hq), nofun, nofun⟩
  all_goals
    refine ⟨?_, ?_, ?_⟩ <;> first | exact fun _ hq => hq | exact fun _ hq => .inl hq | exact nofun

/-- What a step of a handler makes of the state of the credential. -/
inductive Turns (p : Point H) (next : Option (Point H)) : Slot → Slot → Prop
  | same : Turns p next slot slot
  | records : Turns p next (some (.registering progress))
      (some (.registering { progress with attemptedIncarnation := attempted }))
  | commits (known : p.Knows r ∨ Commits p next r) (target : p.target = some r.incarnation)
      (new : r.incarnation ∉ slot.removals) (writes : p.writes = false) :
      Turns p next slot (some (.active r))
  | stays {current : CommittedRegistration} (same : current.incarnation = r.incarnation)
      (leaving : p.leaving = some r) :
      Turns p next (some (.unregistering current)) (some (.active r))
  | frees (vacant : slot'.Vacant) : Turns p next slot slot'
  | revokes (begins : next = some (.onUnregister (.finish q after))) :
      Turns p next slot (some (.revoking q))
  | ignored (ignored : Slot.Ignored q slot slot') : Turns p next slot slot'

variable {r : CommittedRegistration} {slot slot' : Slot}

theorem Performs.turns (hp : Performs h i p h' next) :
    Turns p next (h.credentials i) (h'.credentials i) := by
  cases hp
  all_goals try rw [credentials_setSlot]
  case recorded permit q _ _ | notRecorded permit q _ _ _ =>
    obtain hsame | ⟨progress, hslot, hrecord⟩ := recordRegistryWrite_cases
    · rw [hsame]
      exact .same
    · rw [hrecord, hslot]
      exact .records
  case committed hc =>
    obtain ⟨hnew, rfl⟩ := commitRegistration_ok hc
    exact .commits (.inr ⟨rfl, fun _ hn => by cases hn; rfl, _, rfl, .inl ⟨rfl, rfl⟩⟩) rfl hnew rfl
  case kept hab =>
    obtain ⟨previous, q, hprevious, hq, hnew, rfl⟩ := abortRegistration_restored hab
    have htarget := hq
    rw [hprevious] at hq
    cases hq
    exact .commits (.inl (.inl ⟨_, rfl, hprevious⟩)) htarget hnew rfl
  case restored hab =>
    obtain ⟨previous, q, hprevious, hq, hnew, rfl⟩ := abortRegistration_restored hab
    cases hq
    exact .commits (.inr ⟨rfl, fun _ hn => by cases hn; rfl, _, rfl,
      .inr ⟨_, hprevious, rfl, rfl⟩⟩) rfl hnew rfl
  case notKept hab | notRestored hab => exact .frees (.inl (abortRegistration_revoked hab))
  case closed reservation _ hc =>
    rw [failClosedRegistration_ok hc]
    cases reservation with
    | none => exact .frees (.inl rfl)
    | some q => exact .frees (.inr (.inr ⟨q, rfl⟩))
  case revoked hb =>
    rw [(beginRevocation_cleanup hb).2]
    exact .revokes rfl
  case notRevoked hb => exact .ignored (beginRevocation_ignore hb)
  case finished q _ =>
    obtain ⟨-, hfinish⟩ | ⟨-, hfinish⟩ := finishRevocation_cases (h.credentials i)
    · exact .frees (.inl hfinish)
    · rw [hfinish]
      exact .same
  case stayed registration =>
    obtain ⟨current, hslot, hinc, hstay⟩ | hstay := restoreUnregister_cases (h.credentials i)
    · rw [hstay, hslot]
      exact .stays hinc rfl
    · rw [hstay]
      exact .same
  all_goals exact .same

omit [DecidableEq H] [Bundle.SequenceHash H] in
theorem Turns.registration (ht : Turns p next slot slot') (hr : slot'.registration = some r) :
    slot.registration = some r ∨ p.Knows r ∨ Commits p next r := by
  cases ht with
  | same => exact .inl hr
  | records | revokes => cases hr
  | commits hknown =>
    cases hr
    exact .inr hknown
  | stays _ hleaving =>
    cases hr
    exact .inr (.inl (.inr hleaving))
  | frees hv => cases hv.registration.symm.trans hr
  | ignored hi => exact .inl (hi.registration hr)

theorem knows_advance (ht : h.tasks t = some ⟨i, p⟩)
    (hp : Performs h i p h' next) (hr : (h'.spawn t i next).Knows i r) :
    h.Knows i r ∨ (h'.credentials i).registration = some r ∧ Commits p next r := by
  obtain hslot | ⟨u, p', hu, hknows⟩ := hr
  · obtain hold | hold | hnew := hp.turns.registration hslot
    · exact .inl (.inl hold)
    · exact .inl (.inr ⟨t, p, ht, hold⟩)
    · exact .inr ⟨hslot, hnew⟩
  · obtain ⟨-, hn⟩ | ⟨-, hu⟩ := running_cases hp.proceeds.tasks hu
    · obtain ⟨hpermits, hleaves, -⟩ := hp.carries hn
      refine .inl (.inr ⟨t, p, ht, ?_⟩)
      obtain ⟨permit, hpermit, hprevious⟩ | hleaving := hknows
      · exact .inl ⟨permit, hpermits permit hpermit, hprevious⟩
      · exact .inr (hleaves r hleaving)
    · exact .inl (.inr ⟨u, p', hu, hknows⟩)

theorem Known.advance (hk : Known h i) (ht : h.tasks t = some ⟨i, p⟩)
    (hp : Performs h i p h' next) : Known (h'.spawn t i next) i := by
  have hinc : h.registry.lastIncarnation ≤ (h'.spawn t i next).registry.lastIncarnation :=
    hp.proceeds.incarnation
  -- what a handler has written: it is older, or the handler that moves has just written it
  have hwritten : ∀ u p' q, (h'.spawn t i next).tasks u = some ⟨i, p'⟩ → p'.written = some q →
      (∃ p0, h.tasks u = some ⟨i, p0⟩ ∧ p0.written = some q) ∨
        u = t ∧ q = h.registry.lastIncarnation + 1 ∧
          h'.registry.lastIncarnation = h.registry.lastIncarnation + 1 := by
    intro u p' q hu hq
    obtain ⟨rfl, hn⟩ | ⟨-, hu⟩ := running_cases hp.proceeds.tasks hu
    · obtain hold | hnew := (hp.carries hn).2.2 q hq
      · exact .inl ⟨p, ht, hold⟩
      · exact .inr ⟨rfl, hnew⟩
    · exact .inl ⟨p', hu, hq⟩
  have hpermit : ∀ u p' permit, (h'.spawn t i next).tasks u = some ⟨i, p'⟩ →
      p'.permit = some permit → ∃ p0, h.tasks u = some ⟨i, p0⟩ ∧ p0.permit = some permit := by
    intro u p' permit hu hpm
    obtain ⟨rfl, hn⟩ | ⟨-, hu⟩ := running_cases hp.proceeds.tasks hu
    · exact ⟨p, ht, (hp.carries hn).1 permit hpm⟩
    · exact ⟨p', hu, hpm⟩
  have hminted : (h'.spawn t i next).minted = h.minted := hp.proceeds.minted
  refine ⟨?_, ?_, ?_, ?_, ?_, ?_, ?_, ?_⟩
  · intro r r' hr hr' heq
    obtain hold | ⟨hslot, hnew⟩ := knows_advance ht hp hr
    · obtain hold' | ⟨-, hnew'⟩ := knows_advance ht hp hr'
      · exact hk.unique r r' hold hold' heq
      · exact absurd heq (hk.written_new t p _ r ht hnew'.written hold)
    · obtain hold' | ⟨hslot', -⟩ := knows_advance ht hp hr'
      · exact absurd heq.symm (hk.written_new t p _ r' ht hnew.written hold')
      · exact Option.some.inj (hslot.symm.trans hslot')
  · intro r hr
    obtain hold | ⟨-, hnew⟩ := knows_advance ht hp hr
    · exact (hk.incarnation_le r hold).trans hinc
    · exact (hk.written_le t p _ ht hnew.written).trans hinc
  · intro r hr
    rw [hminted]
    obtain hold | ⟨-, hnew⟩ := knows_advance ht hp hr
    · exact hk.credential_lt r hold
    obtain ⟨permit, hpm, ⟨hcred, hepoch⟩ | ⟨previous, hprevious, hcred, hepoch⟩⟩ := hnew.origin
    · rw [hcred, hepoch]
      exact hk.permit_lt t p permit ht hpm
    · rw [hcred, hepoch]
      exact hk.credential_lt previous (.inr ⟨t, p, ht, .inl ⟨permit, hpm, hprevious⟩⟩)
  · intro u p' q hu hq
    obtain ⟨p0, hu0, hq0⟩ | ⟨-, hq', hlast⟩ := hwritten u p' q hu hq
    · exact (hk.written_le u p0 q hu0 hq0).trans hinc
    · exact (hq'.trans hlast.symm).le
  · intro u p' q r hu hq hr heq
    obtain hold | ⟨-, hnew⟩ := knows_advance ht hp hr
    · obtain ⟨p0, hu0, hq0⟩ | ⟨-, hq', -⟩ := hwritten u p' q hu hq
      · exact hk.written_new u p0 q r hu0 hq0 hold heq
      have hle := hk.incarnation_le r hold
      rw [heq, hq'] at hle
      exact Nat.not_succ_le_self _ hle
    · obtain ⟨-, hn⟩ | ⟨hut, hu⟩ := running_cases hp.proceeds.tasks hu
      · cases (hnew.done p' hn).symm.trans hq
      · exact hut (hk.written_once u p' t p q hu hq ht (heq ▸ hnew.written))
  · intro u p' v p'' q hu hq hv hq'
    obtain ⟨p0, hu0, hq0⟩ | ⟨hut, hqn, -⟩ := hwritten u p' q hu hq
    · obtain ⟨p1, hv1, hq1⟩ | ⟨-, hqn, -⟩ := hwritten v p'' q hv hq'
      · exact hk.written_once u p0 v p1 q hu0 hq0 hv1 hq1
      have hle := hk.written_le u p0 q hu0 hq0
      rw [hqn] at hle
      exact absurd hle (Nat.not_succ_le_self _)
    · obtain ⟨p1, hv1, hq1⟩ | ⟨hvt, -, -⟩ := hwritten v p'' q hv hq'
      · have hle := hk.written_le v p1 q hv1 hq1
        rw [hqn] at hle
        exact absurd hle (Nat.not_succ_le_self _)
      · exact hut.trans hvt.symm
  · intro u p' permit hu hpm
    obtain ⟨p0, hu0, hpm0⟩ := hpermit u p' permit hu hpm
    rw [hminted]
    exact hk.permit_lt u p0 permit hu0 hpm0
  · intro u p' permit r hu hpm hr
    obtain ⟨p0, hu0, hpm0⟩ := hpermit u p' permit hu hpm
    exact hk.permit_new u p0 permit r hu0 hpm0 hr

/-! ### Every step -/

theorem known_step {a : Action H} (hk : Known h i) (ha : Complete a) (hs : h.step a = some h') :
    Known h' i := by
  obtain hapart | hown := step_cases ha hs
  · have hslot : h'.credentials i = h.credentials i := congrArg View.slot hapart.view
    refine hk.mono ?_ ?_ ?_ hapart.incarnation hapart.minted
    · intro r hr
      obtain hr | ⟨t, p, ht, hp⟩ := hr
      · exact .inl (hslot ▸ hr)
      · exact .inr ⟨t, p, (hapart.running t p).mp ht, hp⟩
    · intro t p q ht hq
      exact ⟨p, (hapart.running t p).mp ht, hq⟩
    · intro t p permit ht hp
      exact .inl ⟨p, (hapart.running t p).mp ht, hp⟩
  · cases hown with
    | @begin t presented participates permit hfree hgranted =>
      obtain ⟨hcred, hepoch, hfrom⟩ := beginRegistration_ok hgranted
      refine hk.spawn ?_ rfl le_rfl (Nat.le_succ _) ?_
      · intro r hr
        rw [show ({ h.setSlot i (started permit) with minted := h.minted + 1 } :
          Server H).credentials i = started permit from Function.update_self ..] at hr
        cases hr
      · rintro p ⟨⟩
        refine ⟨rfl, ?_, ?_⟩
        · rintro r (⟨_, ⟨⟩, hr⟩ | hleaving)
          swap
          · cases hleaving
          obtain ⟨r', hslot, hprevious⟩ | ⟨-, hprevious⟩ := hfrom
          · cases hprevious.symm.trans hr
            exact .inl (by rw [hslot]; rfl)
          · cases hprevious.symm.trans hr
        · rintro _ ⟨⟩
          exact ⟨hcred, hepoch, Nat.lt_succ_self _⟩
    | @leave t presented registration hfree hgranted =>
      have hslot := beginUnregister_ok hgranted
      have hknown : h.Knows i registration := .inl (by rw [hslot]; rfl)
      refine hk.spawn ?_ rfl le_rfl le_rfl ?_
      · intro r hr
        rw [credentials_setSlot] at hr
        cases hr
        exact hknown
      · rintro p ⟨⟩
        refine ⟨rfl, ?_, nofun⟩
        rintro r (⟨_, hp, -⟩ | hleaving)
        · cases hp
        · cases hleaving
          exact hknown
    | push =>
      refine hk.spawn (fun r hr => .inl hr) rfl le_rfl le_rfl ?_
      rintro p ⟨⟩
      exact ⟨rfl, fun r hr => (not_knows rfl rfl hr).elim, nofun⟩
    | advance hrunning _ hperforms => exact hk.advance hrunning hperforms
    | evict =>
      refine hk.mono ?_ ?_ ?_ proceeds_unregister.incarnation le_rfl
      · intro r hr
        exact hr
      · intro t p q ht hq
        exact ⟨p, ht, hq⟩
      · intro t p permit ht hp
        exact .inl ⟨p, ht, hp⟩
    | @deliver t q =>
      cases hb : (h.credentials i).beginRevocation q with
      | mk action slot =>
        have hslot : ∀ r, ((h.setSlot i slot).credentials i).registration = some r →
            h.Knows i r := by
          intro r hr
          rw [credentials_setSlot] at hr
          cases action with
          | cleanup =>
            rw [(beginRevocation_cleanup hb).2] at hr
            cases hr
          | ignore => exact .inl ((beginRevocation_ignore hb).registration hr)
        refine hk.spawn hslot rfl le_rfl le_rfl ?_
        intro p hp
        cases action <;> cases hp
        exact ⟨rfl, fun r hr => (not_knows rfl rfl hr).elim, nofun⟩

end Server

end Kvbm.Hub.Registration
