/-
Handlers that run beside a register handler.

The unregister handlers and the callbacks of removed entries run at the same time as a register
handler.  What they do to the credential and to the directory leaves it in its phase.
-/
import Kvbm.Proofs.Hub.Registration.Phases

namespace Kvbm.Hub.Registration

open Hub.Bundle Slot

variable {H : Type}

/-! ### What the other handlers do -/

/-- What an unregister handler, or a removal that comes through, does to the credential. -/
inductive Quiet : View → View → Prop
  | same {v : View} : Quiet v v
  | leaves {r : CommittedRegistration} {s : Standing} :
      Quiet ⟨some (.active r), s⟩ ⟨some (.unregistering r), s⟩
  | stays {r : CommittedRegistration} {s : Standing} :
      Quiet ⟨some (.unregistering r), s⟩ ⟨some (.active r), s⟩
  | revokes {slot : Slot} {r : CommittedRegistration} {s : Standing}
      (registration : slot.registration = some r) :
      Quiet ⟨slot, s⟩ ⟨some (.revoking r.incarnation), s⟩
  | ignored {q : RegistryIncarnation} {slot slot' : Slot} {s : Standing}
      (ignored : Slot.Ignored q slot slot') : Quiet ⟨slot, s⟩ ⟨slot', s⟩

/-- The same, and the clean-up after a removal. -/
inductive Interferes : View → View → Prop
  | quiet {v v' : View} (quiet : Quiet v v') : Interferes v v'
  | clears {q : RegistryIncarnation} {s : Standing} :
      Interferes ⟨some (.revoking q), s⟩ ⟨some (.revoking q), (none, none)⟩
  | finishes {q : RegistryIncarnation} :
      Interferes ⟨some (.revoking q), (none, none)⟩ ⟨none, (none, none)⟩

namespace Interferes

variable {v v' : View} {permit : RegistrationPermit} {participates : Bool} (he : Interferes v v')

include he

/-- Where nothing is registered or being revoked, removals are all that comes through. -/
theorem idle {P : Slot → Prop} (hv : P v.slot) (hreg : ∀ slot, P slot → slot.registration = none)
    (hq : ∀ q, ¬P (some (.revoking q)))
    (hignored : ∀ q slot slot', Slot.Ignored q slot slot' → P slot → P slot') :
    P v'.slot ∧ v'.standing = v.standing := by
  cases he with
  | quiet hquiet =>
    cases hquiet with
    | same => exact ⟨hv, rfl⟩
    | leaves | stays => cases hreg _ hv
    | revokes hr => cases (hreg _ hv).symm.trans hr
    | ignored hi => exact ⟨hignored _ _ _ hi hv, rfl⟩
  | clears | finishes => exact absurd hv (hq _)

theorem holds (hv : v.slot.Holds permit) : v'.slot.Holds permit ∧ v'.standing = v.standing := by
  refine he.idle (P := fun slot => slot.Holds permit) hv ?_ ?_ ?_
  · exact fun _ hh => hh.registration
  · rintro q ⟨_, _, hslot⟩
    cases hslot
  · exact fun _ _ _ hi => hi.holds

theorem vacant (hv : v.slot.Vacant) : v'.slot.Vacant ∧ v'.standing = v.standing := by
  refine he.idle (P := Slot.Vacant) hv ?_ ?_ ?_
  · exact fun _ hv => hv.registration
  · rintro q (hslot | ⟨_, hslot⟩ | ⟨_, hslot⟩) <;> cases hslot
  · exact fun _ _ _ hi => hi.vacant

theorem begun (hv : Begun permit v) : Begun permit v' :=
  ⟨(he.holds hv.holds).1, (he.holds hv.holds).2.trans hv.standing⟩

theorem staged {bound : Option RegistryIncarnation} (hv : Staged permit participates bound v) :
    Staged permit participates bound v' :=
  ⟨(he.holds hv.holds).1, (he.holds hv.holds).2.trans hv.standing⟩

theorem doomed (hv : Doomed permit v) : Doomed permit v' := by
  obtain ⟨hholds, hstanding⟩ := he.holds hv.holds
  exact ⟨hholds, hstanding ▸ hv.withheld, hstanding ▸ hv.exclusive⟩

theorem registration {r : CommittedRegistration} (hv : v.slot.registration = some r) :
    v'.standing = v.standing ∧
      (v'.slot.registration = some r ∨ ∃ q, v'.slot = some (.revoking q)) := by
  cases he with
  | quiet hq =>
    cases hq with
    | same => exact ⟨rfl, .inl hv⟩
    | leaves => exact ⟨rfl, .inl hv⟩
    | stays => exact ⟨rfl, .inl hv⟩
    | revokes => exact ⟨rfl, .inr ⟨_, rfl⟩⟩
    | ignored hi =>
      cases hi with
      | early | freed | noted => cases hv
      | old => exact ⟨rfl, .inl hv⟩
  | clears | finishes => cases hv

/-- A revocation goes on, or is done and has cleared the directory. -/
theorem revoking {q : RegistryIncarnation} (hv : v.slot = some (.revoking q)) :
    v'.slot = some (.revoking q) ∧ (v'.standing = v.standing ∨ v'.standing = (none, none)) ∨
      v'.slot = none ∧ v.standing = (none, none) ∧ v'.standing = (none, none) := by
  cases he with
  | quiet hq =>
    cases hq with
    | same => exact .inl ⟨hv, .inl rfl⟩
    | leaves => cases hv
    | stays => cases hv
    | revokes hr =>
      cases hv
      cases hr
    | ignored hi =>
      cases hi with
      | early | freed | noted => cases hv
      | old => exact .inl ⟨hv, .inl rfl⟩
  | clears => exact .inl ⟨hv, .inr rfl⟩
  | finishes => exact .inr ⟨rfl, rfl, rfl⟩

end Interferes

/-! ### Every phase is stable -/

section Stable

variable {v v' : View} {permit : RegistrationPermit} {participates : Bool} {p : Point H}

theorem Settled.vacant_or (hv : Settled v) :
    (v.slot.Vacant ∧ v.standing = (none, none)) ∨
      (∃ r, v.slot.registration = some r ∧ v.standing = (r.authority, none)) ∨
      ∃ q, v.slot = some (.revoking q) ∧ v.standing.2 = none := by
  obtain ⟨slot, standing⟩ := v
  cases slot with
  | none => exact .inl ⟨.inl rfl, hv⟩
  | some state =>
    cases state with
    | removed q => exact .inl ⟨.inr (.inl ⟨q, rfl⟩), hv⟩
    | reserved q => exact .inl ⟨.inr (.inr ⟨q, rfl⟩), hv⟩
    | active r => exact .inr (.inl ⟨r, rfl, hv⟩)
    | registering => exact hv.elim
    | unregistering r => exact .inr (.inl ⟨r, rfl, hv⟩)
    | revoking q => exact .inr (.inr ⟨q, rfl, hv⟩)

variable {q : RegistryIncarnation} {rest : Rest}

theorem Settled.of_revoking (hslot : v.slot = some (.revoking q))
    (hs : v.standing.2 = none) : Settled v := by
  rw [Settled, hslot]
  exact hs

theorem Settled.stable (he : Interferes v v') (hv : Settled v) : Settled v' := by
  obtain ⟨hslot, hs⟩ | ⟨r, hr, hs⟩ | ⟨q, hslot, hs⟩ := hv.vacant_or
  · obtain ⟨hslot', hs'⟩ := he.vacant hslot
    exact .of_vacant hslot' (hs'.trans hs)
  · obtain ⟨hs', hr' | ⟨q, hslot⟩⟩ := he.registration hr
    · exact .of_registration hr' (hs'.trans hs)
    · exact .of_revoking hslot (by rw [hs', hs])
  · obtain ⟨hslot', hs' | hs'⟩ | ⟨hslot', -, hs'⟩ := he.revoking hslot
    · exact .of_revoking hslot' (hs' ▸ hs)
    · exact .of_revoking hslot' (by rw [hs'])
    · exact .of_vacant (.inl hslot') hs'

theorem Committed.stable (he : Interferes v v')
    (hv : Committed permit participates q v) : Committed permit participates q v' := by
  cases hv with
  | active hr heq hs =>
    obtain ⟨hs', hr' | ⟨q', hslot⟩⟩ := he.registration hr
    · exact .active hr' heq (hs'.trans hs)
    · exact .revoking hslot (.inl (hs'.trans hs))
  | revoking hslot hs =>
    obtain ⟨hslot', hs' | hs'⟩ | ⟨hslot', -, hs'⟩ := he.revoking hslot
    · exact .revoking hslot' (hs' ▸ hs)
    · exact .revoking hslot' (.inr hs')
    · exact .gone (.inl hslot') hs'
  | gone hslot hs => exact .gone (he.vacant hslot).1 ((he.vacant hslot).2.trans hs)

theorem After.Stands.stable {after : After} (hreg : after.registers = true) (he : Interferes v v')
    (hs : after.Stands v) : after.Stands v' := by
  cases after with
  | done => cases hreg
  | reserve | retreat => exact he.doomed hs

theorem Rest.Stands.stable (hreg : rest.registers = true) (he : Interferes v v')
    (hs : rest.Stands v) : rest.Stands v' := by
  cases rest with
  | done | remove => exact ⟨(he.vacant hs.1).1, (he.vacant hs.1).2 ▸ hs.2⟩
  | dropped =>
    refine ⟨Settled.stable he hs.1, fun r hr => ?_⟩
    cases he with
    | quiet hq =>
      cases hq with
      | same | leaves | stays => exact hs.2 r hr
      | revokes => cases hr
      | ignored hi => exact hs.2 r (hi.registration hr)
    | clears | finishes => cases hr
  | finish => exact After.Stands.stable hreg he hs
  | resume => exact ⟨he.begun hs.1, hs.2⟩

theorem Rest.StandsAfter.stable (hreg : rest.registers = true)
    (he : Interferes v v') (hs : rest.StandsAfter v) : rest.StandsAfter v' := by
  cases rest with
  | done | dropped | remove => exact Settled.stable he hs
  | finish => exact After.Stands.stable hreg he hs
  | resume => exact he.begun hs

/-- **A register handler stays in its phase, whatever the other handlers do.** -/
theorem Point.Stands.stable (hreg : p.registers = true) (he : Interferes v v')
    (hs : p.Stands v) : p.Stands v' := by
  cases p with
  | stage | restoreFeatures | restoreBind | restorePlacements | abortRestored => exact he.begun hs
  | write | record | bind | dropPlacements | commit => exact he.staged hs
  | finalize => exact Committed.stable he hs
  | unstage | restoreWrite | restoreStage => exact ⟨hs.1, hs.2.imp fun _ => he.staged⟩
  | abortUnchanged permit =>
    simp only [Point.Stands] at hs ⊢
    by_cases hprevious : permit.previous = none
    · rw [if_pos hprevious] at hs ⊢
      exact he.doomed hs
    · rw [if_neg hprevious] at hs ⊢
      exact he.begun hs
  | restoreFinalize => exact Settled.stable he hs
  | reserve | failClosed => exact he.doomed hs
  | remove | revoke | finishRevocation => exact After.Stands.stable hreg he hs
  | onUnregister => exact Rest.Stands.stable hreg he hs
  | unregisterPlacements => exact Rest.StandsAfter.stable hreg he hs
  | removeUnregister | restoreUnregister | install => cases hreg

end Stable

/-! ### The clean-up after a removal -/

/-- The incarnation after whose removal the handler cleans up. -/
def Point.cleans : Point H → Option RegistryIncarnation
  | onUnregister (.finish q _) | unregisterPlacements (.finish q _) | finishRevocation q _ => some q
  | _ => none

/-- The clean-up has cleared the directory. -/
def Point.cleansed : Point H → Bool
  | unregisterPlacements (.finish _ _) | finishRevocation _ _ => true
  | _ => false

/-- The handler is going to take the registration out, or to put it back. -/
def Point.Leaves (r : CommittedRegistration) : Point H → Prop
  | removeUnregister r' | restoreUnregister r' => r' = r
  | revoke q .done => q = r.incarnation
  | _ => False

/-- How things stand for a handler that cleans up. -/
structure Cleaning (p : Point H) (q : RegistryIncarnation) (v : View) : Prop where
  slot : v.slot = some (.revoking q)
  cleared : p.cleansed = true → v.standing = (none, none)

namespace Server

variable {p p' : Point H} {next : Option (Point H)} {r : CommittedRegistration}
  {q : RegistryIncarnation} {slot slot' : Slot}

/-- A revocation is begun by the handler that cleans up after it. -/
theorem Turns.revoking (ht : Turns p next slot slot') (hq : slot' = some (.revoking q)) :
    slot = some (.revoking q) ∨ ∃ after, next = some (.onUnregister (.finish q after)) := by
  cases ht with
  | same => exact .inl hq
  | records | commits | stays => cases hq
  | frees hv => obtain h | ⟨_, h⟩ | ⟨_, h⟩ := hv <;> cases h.symm.trans hq
  | revokes hnext =>
    cases hq
    exact .inr ⟨_, hnext⟩
  | ignored hi =>
    cases hi with
    | early | freed | noted => cases hq
    | old => exact .inl hq

theorem Turns.unregistering (ht : Turns p next slot slot') (hr : slot' = some (.unregistering r)) :
    slot = some (.unregistering r) := by
  cases ht with
  | same => exact hr
  | records | commits | stays | revokes => cases hr
  | frees hv => obtain h | ⟨_, h⟩ | ⟨_, h⟩ := hv <;> cases h.symm.trans hr
  | ignored hi =>
    cases hi with
    | early | freed | noted => cases hr
    | old => exact hr

/-! ### Steps of the other handlers -/

variable [DecidableEq H] [Bundle.SequenceHash H] {h h' : Server H} {i : InstanceId}

/-- An unregister handler and a callback interfere quietly, but for the clean-up. -/
theorem Performs.quiet (hk : Known h i) {t : Nat} (ht : h.tasks t = some ⟨i, p⟩)
    (hreg : p.registers = false) (hc : p.cleans = none) (hp : Performs h i p h' next) :
    Quiet (h.view i) (h'.view i) := by
  cases hp
  case removed | notRemoved | left | notLeft | installed | notInstalled | clearedPlacements =>
    exact .same
  case revoked hb =>
    obtain ⟨⟨r, hr, rfl⟩, rfl⟩ := beginRevocation_cleanup hb
    rw [view_setSlot_self]
    exact .revokes hr
  case notRevoked hb =>
    rw [view_setSlot_self]
    exact .ignored (beginRevocation_ignore hb)
  case stayed registration =>
    rw [view_setSlot_self]
    obtain ⟨current, hslot, hinc, hstay⟩ | hstay := restoreUnregister_cases (h.credentials i)
    · have heq : current = registration :=
        hk.unique current registration (.inl (by rw [hslot]; rfl)) (.inr ⟨t, _, ht, .inr rfl⟩) hinc
      subst heq
      rw [hstay, show h.view i = ⟨some (.unregistering current), (h.view i).standing⟩ from
        View.ext hslot rfl]
      exact .stays
    · rw [hstay]
      exact .same
  case cleared rest => cases rest <;> first | cases hreg | cases hc
  case finished => cases hc
  all_goals cases hreg

/-- A handler that cleans up clears the directory, and then gives the credential back. -/
theorem Performs.cleaning (hc : p.cleans = some q)
    (hs : Cleaning p q (h.view i)) (hp : Performs h i p h' next) :
    (Interferes (h.view i) (h'.view i) ∧ ∃ p', next = some p' ∧ p'.cleans = some q ∧
      Cleaning p' q (h'.view i)) ∨
      (Interferes (h.view i) (h'.view i) ∧ (h'.view i).slot = none ∧
        ∀ p', next = some p' → p'.cleans = none) := by
  have hview : h.view i = ⟨some (.revoking q), (h.view i).standing⟩ := View.ext hs.slot rfl
  cases hp
  case cleared rest =>
    cases rest <;> cases hc
    rw [view_onUnregister, if_pos rfl, hview]
    exact .inl ⟨.clears, _, rfl, rfl, rfl, fun _ => rfl⟩
  case clearedPlacements rest =>
    cases rest <;> cases hc
    exact .inl ⟨.quiet .same, _, rfl, rfl, hs.slot, fun _ => hs.cleared rfl⟩
  case finished after =>
    cases hc
    obtain ⟨-, hfinish⟩ | ⟨hne, -⟩ := finishRevocation_cases (h.credentials i)
    · rw [view_setSlot_self, hfinish, hview, hs.cleared rfl]
      refine .inr ⟨.finishes, rfl, fun p' hn => ?_⟩
      cases after <;> cases hn <;> rfl
    · exact absurd hs.slot hne
  all_goals cases hc

variable (hp : Performs h i p h' next)

include hp

theorem Performs.begins (hc : p.cleans = none) (hn : next = some p') (hc' : p'.cleans = some q) :
    Cleaning p' q (h'.view i) ∧ ∃ r, (h.view i).slot.registration = some r := by
  cases hp
  case revoked hb =>
    cases hn
    cases hc'
    obtain ⟨⟨r, hr, -⟩, rfl⟩ := beginRevocation_cleanup hb
    rw [view_setSlot_self]
    exact ⟨⟨rfl, fun hf => by cases hf⟩, r, hr⟩
  case finalized =>
    split at hn <;> cases hn
    cases hc'
  case notRemoved after | notRevoked after _ | finished after =>
    cases after <;> cases hn <;> cases hc'
  case cleared rest =>
    cases hn
    cases rest with
    | finish => cases hc
    | done | dropped | remove | resume => cases hc'
  case clearedPlacements rest =>
    cases rest with
    | finish => cases hc
    | done | dropped => cases hn
    | remove | resume =>
      cases hn
      cases hc'
  all_goals cases hn
  case notStaged permit _ _ _ | notWritten permit _ =>
    unfold RegistrationPermit.failedWrite at hc'
    split at hc' <;> cases hc'
  case notRecorded permit _ _ _ _ | notBound permit _ _ | notCommitted permit _ _ =>
    unfold RegistrationPermit.rollback at hc'
    split at hc' <;> cases hc'
  all_goals cases hc'

/-- A registration that is on its way out stays so as long as its handler is at it. -/
theorem Performs.leaves (hl : p.Leaves r) (hs : (h.view i).slot = some (.unregistering r))
    (hs' : (h'.view i).slot = some (.unregistering r)) : ∃ p', next = some p' ∧ p'.Leaves r := by
  have hr : (h.credentials i).registration = some r := by
    rw [show h.credentials i = some (.unregistering r) from hs]
    rfl
  cases hp
  case left | notLeft =>
    cases hl
    exact ⟨_, rfl, rfl⟩
  case stayed registration =>
    cases hl
    rw [view_setSlot_self, show h.credentials i = some (.unregistering r) from hs] at hs'
    simp [restoreUnregister] at hs'
  case revoked hb =>
    rw [view_setSlot_self, (beginRevocation_cleanup hb).2] at hs'
    cases hs'
  case notRevoked q slot after hb =>
    cases after with
    | done =>
      have hi := beginRevocation_ignore hb
      rw [show h.credentials i = some (.unregistering r) from hs] at hi
      cases hi with
      | old hother => exact absurd hl.symm (hother r rfl)
    | reserve | retreat => cases hl
  all_goals cases hl

/-- A register handler never comes out of another handler. -/
theorem Performs.registers (hn : next = some p') (hreg : p'.registers = true) :
    p.registers = true := by
  cases hp
  case removed | revoked | cleared => cases hn; exact hreg
  case notRemoved after | notRevoked after _ | finished after => cases after <;> cases hn <;> rfl
  case clearedPlacements rest => cases rest <;> cases hn <;> first | exact hreg | rfl
  case left | notLeft => cases hn; cases hreg
  case stayed | installed | notInstalled => cases hn
  all_goals rfl

end Server

end Kvbm.Hub.Registration
