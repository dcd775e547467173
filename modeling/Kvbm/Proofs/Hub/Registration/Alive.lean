/-
A committed registration has its entry, or somebody is going to say that it is gone.

The registry drops an entry at any time.  Until the credentials hear of it there is a notice, or a
handler that is about to deliver one; and what is removed while a registration is under way is
remembered until it is committed or put back.
-/
import Kvbm.Proofs.Hub.Registration.Coherent

namespace Kvbm.Hub.Registration

open Hub.Bundle CommittedRegistration Point Slot

variable {H : Type}

variable {q : RegistryIncarnation} {p : Point H} {permit : RegistrationPermit} {slot slot' : Slot}

theorem Point.registers_of_target (hq : p.target = some q) : p.registers = true := by
  cases p with
  | remove | revoke | finishRevocation | removeUnregister | restoreUnregister | install => cases hq
  | onUnregister rest => cases rest <;> first | rfl | cases hq
  | unregisterPlacements rest => cases rest <;> first | rfl | cases hq
  | _ => rfl

theorem Slot.Ignored.removals (hi : Slot.Ignored q slot slot') (hh : slot.Holds permit) :
    slot'.removals = insert q slot.removals := by
  cases hi with
  | noted => rfl
  | early | freed =>
    obtain ⟨_, _, hslot⟩ := hh
    cases hslot
  | old _ hidle =>
    obtain ⟨_, _, hslot⟩ := hh
    exact absurd hslot (hidle _)

theorem Slot.Ignored.other {r : CommittedRegistration}
    (hi : Slot.Ignored q slot slot') (hr : slot'.registration = some r) : r.incarnation ≠ q := by
  cases hi with
  | early | freed | noted => cases hr
  | old hother => exact hother r hr

theorem Quiet.removals {v v' : View} (hq : Quiet v v')
    (hh : v.slot.Holds permit) : v.slot.removals ⊆ v'.slot.removals := by
  have hno : ∀ r, v.slot.registration ≠ some r := by simp [hh.registration]
  cases hq with
  | same => exact Finset.Subset.refl _
  | leaves | stays => exact absurd rfl (hno _)
  | revokes hr => exact absurd hr (hno _)
  | ignored hi =>
    rw [hi.removals hh]
    exact Finset.subset_insert _ _

/-- Where a register handler has something to commit or to put back, it holds the credential. -/
theorem Point.holds_of_target {v : View} (hf : ∀ permit, p.permit = some permit → permit.Fresh)
    (hq : p.target = some q) (hs : p.Stands v) : ∃ permit, v.slot.Holds permit := by
  have hbusy : p.released = false ∧ p.late = false := by
    cases p with
    | onUnregister rest => cases rest <;> first | exact ⟨rfl, rfl⟩ | cases hq
    | unregisterPlacements rest => cases rest <;> first | exact ⟨rfl, rfl⟩ | cases hq
    | finalize | restoreFinalize => cases hq
    | _ => exact ⟨rfl, rfl⟩
  obtain ⟨permit, hd⟩ | ⟨hreleased, -⟩ | ⟨hlate, -⟩ := hs.cases hf (registers_of_target hq)
  · exact ⟨permit, hd.holds⟩
  · cases hbusy.1.symm.trans hreleased
  · cases hbusy.2.symm.trans hlate

theorem Point.revokes_of_target (hq : p.target = some q) : p.revokes = none := by
  cases p <;> first | rfl | cases hq

namespace Server

variable [DecidableEq H] {h h' : Server H} {i : InstanceId} {p p' : Point H}
  {next : Option (Point H)} {t : Nat} {q : RegistryIncarnation}

/-- The entry is there, or its removal is still to be reported. -/
def Live (h : Server H) (i : InstanceId) (q : RegistryIncarnation) : Prop :=
  h.registry.entries i = some q ∨ (i, q) ∈ h.notices ∨
    ∃ t p, h.tasks t = some ⟨i, p⟩ ∧ p.revokes = some q

structure Alive (h : Server H) (i : InstanceId) : Prop where
  registered : ∀ r, (h.view i).slot.registration = some r → h.Live i r.incarnation
  target : ∀ t p q, h.tasks t = some ⟨i, p⟩ → p.target = some q →
    h.Live i q ∨ q ∈ (h.view i).slot.removals

theorem entries_unregister :
    (h.unregister i q).registry.entries i = h.registry.entries i ∨
      h.registry.entries i = some q := by
  simp only [unregister, Registry.unregister]
  split_ifs with hq
  · exact .inr hq
  · exact .inl rfl

theorem Live.spawn (hl : h.Live i q) (hentry : h'.registry.entries i = h.registry.entries i)
    (hnotices : (i, q) ∈ h.notices → (i, q) ∈ h'.notices) (htasks : h'.tasks = h.tasks)
    (hnot : ∀ p, h.tasks t = some ⟨i, p⟩ → p.revokes ≠ some q) : (h'.spawn t i next).Live i q := by
  obtain hl | hl | ⟨u, p, hu, hp⟩ := hl
  · exact .inl (hentry.trans hl)
  · exact .inr (.inl (hnotices hl))
  · have hut : u ≠ t := by
      rintro rfl
      exact hnot p hu hp
    exact .inr (.inr ⟨u, p, running_else htasks hut hu, hp⟩)

theorem free_revokes (hfree : h.tasks t = none) (p : Point H) (hp : h.tasks t = some ⟨i, p⟩) :
    p.revokes ≠ some q := by
  cases hfree.symm.trans hp

/-- Where the registry is about to be written, the credential is held. -/
theorem Coherent.holds_of_writes (hc : Coherent h i) (ht : h.tasks t = some ⟨i, p⟩)
    (hw : p.writes = true) : ∃ permit, (h.view i).slot.Holds permit := by
  cases p with
  | write => exact ⟨_, (hc.phased.stands t _ ht rfl).holds⟩
  | restoreWrite => exact ⟨_, (hc.phased.stands t _ ht rfl).2.choose_spec.holds⟩
  | _ => cases hw

theorem Coherent.holds_of_target {u : Nat} (hc : Coherent h i) (hu : h.tasks u = some ⟨i, p⟩)
    (hq : p.target = some q) : ∃ permit, (h.view i).slot.Holds permit :=
  Point.holds_of_target (fun permit hpermit r => hc.known.permit_new u p permit r hu hpermit) hq
    (hc.phased.stands u p hu (Point.registers_of_target hq))

theorem Alive.congr (ha : Alive h i) (hslot : (h'.view i).slot = (h.view i).slot)
    (hlive : ∀ q, h.Live i q → h'.Live i q)
    (hrunning : ∀ t p q, h'.tasks t = some ⟨i, p⟩ → p.target = some q → h.tasks t = some ⟨i, p⟩) :
    Alive h' i where
  registered r hr := hlive _ (ha.registered r (hslot ▸ hr))
  target t p q ht hq := by
    obtain hl | hin := ha.target t p q (hrunning t p q ht hq) hq
    · exact .inl (hlive q hl)
    · exact .inr (hslot ▸ hin)

/-! ### A step of a handler -/

variable [Bundle.SequenceHash H] {permit : RegistrationPermit}

/-- An entry is overwritten, stays, or goes and is reported next. -/
theorem Performs.entry (hp : Performs h i p h' next) (hq : h.registry.entries i = some q) :
    p.writes = true ∨ h'.registry.entries i = some q ∨ ∃ after, next = some (.revoke q after) := by
  cases hp
  case written | rewritten => exact .inl rfl
  case removed q' after =>
    obtain hsame | hgone := entries_unregister (h := h) (q := q')
    · exact .inr (.inl (hsame.trans hq))
    · cases hq.symm.trans hgone
      exact .inr (.inr ⟨after, rfl⟩)
  case left registration =>
    obtain hsame | hgone := entries_unregister (h := h) (i := i) (q := registration.incarnation)
    · exact .inr (.inl (hsame.trans hq))
    · cases hq.symm.trans hgone
      exact .inr (.inr ⟨.done, rfl⟩)
  all_goals exact .inr (.inl hq)

theorem Live.advance (hl : h.Live i q) (ht : h.tasks t = some ⟨i, p⟩)
    (hp : Performs h i p h' next) :
    (h'.spawn t i next).Live i q ∨ p.writes = true ∨ p.revokes = some q := by
  obtain hentry | hnotice | ⟨u, p', hu, hrev⟩ := hl
  · obtain hwrites | hentry | ⟨after, hn⟩ := hp.entry hentry
    · exact .inr (.inl hwrites)
    · exact .inl (.inl hentry)
    · exact .inl (.inr (.inr ⟨t, .revoke q after, running_at hn, rfl⟩))
  · refine .inl (.inr (.inl ?_))
    show (i, q) ∈ h'.notices
    rw [hp.proceeds.notices]
    exact hnotice
  · by_cases hut : u = t
    · subst hut
      cases ht.symm.trans hu
      exact .inr (.inr hrev)
    · exact .inl (.inr (.inr ⟨u, p', running_else hp.proceeds.tasks hut hu, hrev⟩))

/-- What a register handler may commit or put back it had before, or has just written. -/
theorem Performs.target (hp : Performs h i p h' next) (hn : next = some p')
    (hq : p'.target = some q) :
    p.target = some q ∧ p.writes = false ∧ (h'.view i).slot.removals = (h.view i).slot.removals ∨
      p.writes = true ∧ (h'.registry.entries i = some q ∨ p.target = some q ∧ h' = h) := by
  cases hp
  case finalized =>
    split at hn <;> cases hn
    cases hq
  case notRemoved | notRevoked | finished => cases (edges_after hn).2.2.2.symm.trans hq
  case clearedPlacements => exact .inl ⟨(edges_rest hn).2.2.2.symm.trans hq, rfl, rfl⟩
  all_goals cases hn
  case staged | bound | dropped | leftFeature | keptFeature | redropped | unstaged | restaged
    | rebound | cleared => exact .inl ⟨hq, rfl, rfl⟩
  case notStaged => exact .inl ⟨edges_failedWrite.2.2.2.symm.trans hq, rfl, rfl⟩
  case written | rewritten =>
    refine .inr ⟨rfl, .inl ?_⟩
    rw [← hq]
    exact Function.update_self ..
  case notWritten => exact .inr ⟨rfl, .inr ⟨edges_failedWrite.2.2.2.symm.trans hq, rfl⟩⟩
  case recorded permit q' _ _ =>
    refine .inl ⟨hq, rfl, ?_⟩
    rw [view_setSlot_self]
    show removals ((h.credentials i).recordRegistryWrite i permit q').2 = removals (h.credentials i)
    obtain hsame | ⟨_, hslot, hrecord⟩ := recordRegistryWrite_cases
    · rw [hsame]
    · rw [hrecord, hslot]
      rfl
  case notRecorded | notBound | notCommitted => cases (edges_rollback rfl).2.2.2.symm.trans hq
  all_goals cases hq

theorem Performs.reports (hp : Performs h i p h' next) (hq : p.revokes = some q) :
    (∃ r, (h.view i).slot.registration = some r) ∧ (h'.view i).slot = some (.revoking q) ∨
      Slot.Ignored q (h.view i).slot (h'.view i).slot := by
  cases hp
  case revoked hb =>
    cases hq
    obtain ⟨⟨r, hr, -⟩, rfl⟩ := beginRevocation_cleanup hb
    exact .inl ⟨⟨r, hr⟩, credentials_setSlot⟩
  case notRevoked hb =>
    cases hq
    rw [view_setSlot_self]
    exact .inr (beginRevocation_ignore hb)
  all_goals cases hq

/-- A registration that is committed after a step was so before, or is what the handler was to
commit or to put back. -/
theorem Performs.registered {r : CommittedRegistration} (hk : Known h i)
    (ht : h.tasks t = some ⟨i, p⟩) (hp : Performs h i p h' next)
    (hr : (h'.view i).slot.registration = some r) :
    (h.view i).slot.registration = some r ∧ p.revokes ≠ some r.incarnation ∨
      p.target = some r.incarnation ∧ r.incarnation ∉ (h.view i).slot.removals ∧
        p.writes = false ∧ p.revokes = none := by
  have hother : p.revokes ≠ some r.incarnation := by
    intro hq
    obtain ⟨-, hrevoking⟩ | hi := hp.reports hq
    · rw [hrevoking] at hr
      cases hr
    · exact hi.other hr rfl
  have hturns : Turns p next (h.view i).slot (h'.view i).slot := hp.turns
  generalize hslot : (h.view i).slot = slot, (h'.view i).slot = slot' at hturns hr ⊢
  cases hturns with
  | same => exact .inl ⟨hr, hother⟩
  | records | revokes => cases hr
  | commits _ htarget hnew hwrites =>
    cases hr
    exact .inr ⟨htarget, hnew, hwrites, revokes_of_target htarget⟩
  | stays hinc hleaving =>
    cases hr
    have hcurrent : h.credentials i = _ := hslot
    obtain rfl := hk.unique _ r (.inl (by rw [hcurrent]; rfl)) (.inr ⟨t, p, ht, .inr hleaving⟩) hinc
    exact .inl ⟨rfl, hother⟩
  | frees hv => cases hv.registration.symm.trans hr
  | ignored hi => exact .inl ⟨hi.registration hr, hother⟩

/-- A removal that is reported while the credential is held is remembered. -/
theorem Performs.remembered (hp : Performs h i p h' next) (hh : (h.view i).slot.Holds permit)
    (hq : p.revokes = some q) : q ∈ (h'.view i).slot.removals := by
  obtain ⟨⟨r, hr⟩, -⟩ | hi := hp.reports hq
  · cases hh.registration.symm.trans hr
  · rw [hi.removals hh]
    exact Finset.mem_insert_self _ _

theorem Alive.advance (hc : Coherent h i) (ha : Alive h i) (ht : h.tasks t = some ⟨i, p⟩)
    (hp : Performs h i p h' next) : Alive (h'.spawn t i next) i := by
  refine ⟨?_, ?_⟩
  · intro r hr
    obtain ⟨hold, hother⟩ | ⟨htarget, hnew, hwrites, hrevokes⟩ := hp.registered hc.known ht hr
    · obtain hlive | hw | hrev := (ha.registered r hold).advance ht hp
      · exact hlive
      · obtain ⟨permit, hh⟩ := hc.holds_of_writes ht hw
        cases hh.registration.symm.trans hold
      · exact absurd hrev hother
    · obtain hlive | hin := ha.target t p _ ht htarget
      · obtain hlive | hw | hrev := hlive.advance ht hp
        · exact hlive
        · cases hwrites.symm.trans hw
        · cases hrevokes.symm.trans hrev
      · exact absurd hin hnew
  · intro u p' q hu hq
    obtain ⟨-, hn⟩ | ⟨hut, hu⟩ := running_cases hp.proceeds.tasks hu
    · obtain ⟨htarget, hwrites, hsame⟩ | ⟨-, hentry | ⟨htarget, rfl⟩⟩ := hp.target hn hq
      · obtain hlive | hin := ha.target t p q ht htarget
        · obtain hlive | hw | hrev := hlive.advance ht hp
          · exact .inl hlive
          · cases hwrites.symm.trans hw
          · cases (revokes_of_target htarget).symm.trans hrev
        · refine .inr ?_
          show q ∈ (h'.view i).slot.removals
          rw [hsame]
          exact hin
      · exact .inl (.inl hentry)
      · obtain hlive | hin := ha.target t p q ht htarget
        · refine .inl (hlive.spawn rfl id rfl fun p'' hp'' => ?_)
          cases ht.symm.trans hp''
          simp [revokes_of_target htarget]
        · exact .inr hin
    · -- another handler is registering, so this one is not
      have hreg' := registers_of_target hq
      have hreg : p.registers = false :=
        Bool.eq_false_iff.mpr fun hreg => hut (hc.phased.alone u p' t p hu hreg' ht hreg)
      obtain ⟨permit, hh⟩ := hc.holds_of_target hu hq
      have hclean : p.cleans = none := by
        refine hc.tidy.none_cleans (fun q' hq' => ?_) ht
        obtain ⟨_, _, hslot⟩ := hh
        cases hslot.symm.trans hq'
      obtain hlive | hin := ha.target u p' q hu hq
      · obtain hlive | hw | hrev := hlive.advance ht hp
        · exact .inl hlive
        · cases p with
          | write | restoreWrite => cases hreg
          | _ => cases hw
        · exact .inr (hp.remembered hh hrev)
      · exact .inr ((hp.quiet hc.known ht hreg hclean).removals hh hin)

/-! ### Every step -/

theorem alive_step {a : Action H} (hc : Coherent h i) (ha : Alive h i) (hok : Complete a)
    (hs : h.step a = some h') : Alive h' i := by
  obtain hapart | hown := step_cases hok hs
  · refine ha.congr (congrArg View.slot hapart.view) ?_ fun t p q ht _ => (hapart.running t p).mp ht
    rintro q (hl | hl | ⟨t, p, ht, hp⟩)
    · exact .inl (hapart.entry.trans hl)
    · exact .inr (.inl ((hapart.noticed q).mpr hl))
    · exact .inr (.inr ⟨t, p, (hapart.running t p).mpr ht, hp⟩)
  cases hown with
  | @begin t presented participates permit hfree hgranted =>
    obtain ⟨-, -, hfrom⟩ := beginRegistration_ok hgranted
    have hslot : (({ h.setSlot i (started permit) with minted := h.minted + 1 }.spawn t i
        (some (.stage permit participates))).view i).slot = started permit :=
      credentials_setSlot
    refine ⟨?_, ?_⟩
    · intro r hr
      rw [hslot] at hr
      cases hr
    · intro u p q hu hq
      obtain ⟨-, ⟨⟩⟩ | ⟨-, hu⟩ := running_cases rfl hu
      · obtain ⟨r, hactive, hprevious⟩ | ⟨-, hprevious⟩ := hfrom
        · refine .inl (Live.spawn ?_ rfl id rfl (free_revokes hfree))
          cases (congrArg (·.map incarnation) hprevious).symm.trans hq
          exact ha.registered r (by rw [show (h.view i).slot = _ from hactive]; rfl)
        · cases (congrArg (·.map incarnation) hprevious).symm.trans hq
      · -- a handler that is registering holds the credential, which was not granted then
        exfalso
        obtain ⟨permit', _, _, hh⟩ := hc.holds_of_target hu hq
        obtain ⟨r, hactive, -⟩ | ⟨hnone | ⟨_, hremoved⟩, -⟩ := hfrom
        · cases hh.symm.trans hactive
        · cases hh.symm.trans hnone
        · cases hh.symm.trans hremoved
  | @leave t presented r hfree hgranted =>
    have hactive : (h.view i).slot = some (.active r) := beginUnregister_ok hgranted
    have hslot : (((h.setSlot i (some (.unregistering r))).spawn t i
        (some (.removeUnregister r))).view i).slot = some (.unregistering r) :=
      credentials_setSlot
    refine ⟨?_, ?_⟩
    · intro r' hr
      rw [hslot] at hr
      cases hr
      exact (ha.registered r (by rw [hactive]; rfl)).spawn rfl id rfl (free_revokes hfree)
    · intro u p q hu hq
      obtain ⟨-, ⟨⟩⟩ | ⟨-, hu⟩ := running_cases rfl hu
      · cases hq
      · obtain ⟨permit', _, _, hh⟩ := hc.holds_of_target hu hq
        cases hh.symm.trans hactive
  | push hfree =>
    refine ha.congr rfl (fun q hl => hl.spawn rfl id rfl (free_revokes hfree)) ?_
    intro u p q hu hq
    obtain ⟨-, ⟨⟩⟩ | ⟨-, hu⟩ := running_cases rfl hu
    · cases hq
    · exact hu
  | advance hrunning _ hp => exact ha.advance hc hrunning hp
  | @evict q hentry =>
    refine ha.congr rfl ?_ fun t p q ht _ => ht
    rintro q' (hl | hl | hl)
    · cases hentry.symm.trans hl
      exact .inr (.inl (Finset.mem_insert_self _ _))
    · exact .inr (.inl (Finset.mem_insert_of_mem hl))
    · exact .inr (.inr hl)
  | @deliver t q hfree =>
    have hlive : ∀ q', q' ≠ q → h.Live i q' → ∀ next : Option (Point H),
        ({ h.setSlot i ((h.credentials i).beginRevocation q).2 with
          notices := h.notices.erase (i, q) }.spawn t i next).Live i q' := by
      intro q' hne hl next
      refine hl.spawn rfl (fun hin => ?_) rfl (free_revokes hfree)
      exact Finset.mem_erase.mpr ⟨by simpa using hne, hin⟩
    cases hb : (h.credentials i).beginRevocation q with
    | mk action slot =>
      rw [hb] at hlive
      have hslot : ∀ next : Option (Point H), (({ h.setSlot i slot with
          notices := h.notices.erase (i, q) }.spawn t i next).view i).slot = slot :=
        fun _ => credentials_setSlot
      cases action with
      | cleanup =>
        obtain ⟨⟨r, hr, -⟩, hrevoking⟩ := beginRevocation_cleanup hb
        refine ⟨?_, ?_⟩
        · intro r' hr'
          rw [hslot, hrevoking] at hr'
          cases hr'
        · intro u p q' hu hq
          obtain ⟨-, ⟨⟩⟩ | ⟨-, hu⟩ := running_cases rfl hu
          · cases hq
          · obtain ⟨permit, hh⟩ := hc.holds_of_target hu hq
            cases hh.registration.symm.trans hr
      | ignore =>
        have hi := beginRevocation_ignore hb
        refine ⟨?_, ?_⟩
        · intro r hr
          rw [hslot] at hr
          exact hlive _ (hi.other hr) (ha.registered r (hi.registration hr)) _
        · intro u p q' hu hq
          obtain ⟨-, ⟨⟩⟩ | ⟨-, hu⟩ := running_cases rfl hu
          obtain ⟨permit, hh⟩ := hc.holds_of_target hu hq
          rw [hslot, hi.removals hh]
          by_cases hne : q' = q
          · subst hne
            exact .inr (Finset.mem_insert_self _ _)
          obtain hl | hin := ha.target u p q' hu hq
          · exact .inl (hlive q' hne hl _)
          · exact .inr (Finset.mem_insert_of_mem hin)

end Server

end Kvbm.Hub.Registration
