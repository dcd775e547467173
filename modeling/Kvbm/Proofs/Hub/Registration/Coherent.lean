/-
Credentials and directory stay coherent.

A register handler has the credential to itself until it is done, as long as no other registration
of the instance is granted in between.  It goes from phase to phase; where no register handler is at
work, the directory has exactly what the credential is good for.
-/
import Kvbm.Proofs.Hub.Registration.Interference

namespace Kvbm.Hub.Registration

open Hub.Bundle

variable {H : Type}

variable {q : RegistryIncarnation} {p : Point H} {v : View}

theorem Point.late_of_revoking
    (hf : ∀ permit, p.permit = some permit → permit.Fresh) (hreg : p.registers = true)
    (hs : p.Stands v) (hq : v.slot = some (.revoking q)) : p.late = true := by
  obtain ⟨permit, hd⟩ | ⟨-, hvacant, -⟩ | ⟨hlate, -⟩ := hs.cases hf hreg
  · obtain ⟨_, _, hslot⟩ := hd.holds
    cases hq.symm.trans hslot
  · obtain hslot | ⟨_, hslot⟩ | ⟨_, hslot⟩ := hvacant <;> cases hq.symm.trans hslot
  · exact hlate

theorem Point.settled_of_stands (hreg : p.registers = false) (hs : p.Stands v) : Settled v := by
  have hafter : ∀ after : After, after.registers = false → after.Stands v → Settled v := by
    intro after hreg hs
    cases after with
    | done => exact hs
    | reserve | retreat => cases hreg
  cases p
  case remove after | revoke after | finishRevocation after => exact hafter after hreg hs
  case onUnregister rest | unregisterPlacements rest =>
    cases rest with
    | finish _ after => exact hafter after hreg hs
    | done | remove | dropped | resume => cases hreg
  case removeUnregister | restoreUnregister | install => exact hs
  all_goals cases hreg

theorem Quiet.revoking {v v' : View} (hq : Quiet v v')
    (hslot : v.slot = some (.revoking q)) : v' = v := by
  cases hq with
  | same => rfl
  | leaves | stays => cases hslot
  | revokes hr =>
    cases hslot
    cases hr
  | ignored hi =>
    cases hi with
    | early | freed | noted => cases hslot
    | old => rfl

namespace Server

variable [DecidableEq H] {h h' : Server H} {i : InstanceId} {p p' : Point H}
  {next : Option (Point H)} {t : Nat}

/-! ### The invariants -/

/-- A register handler is alone, and in its phase. -/
structure Phased (h : Server H) (i : InstanceId) : Prop where
  alone : ∀ t p u p', h.tasks t = some ⟨i, p⟩ → p.registers = true →
    h.tasks u = some ⟨i, p'⟩ → p'.registers = true → t = u
  stands : ∀ t p, h.tasks t = some ⟨i, p⟩ → p.registers = true → p.Stands (h.view i)
  settled : (∀ t p, h.tasks t = some ⟨i, p⟩ → p.registers = false) → Settled (h.view i)

/-- A credential is revoked as long as one handler cleans up after it, and on its way out as long
as a handler is at it. -/
structure Tidy (h : Server H) (i : InstanceId) : Prop where
  cleaning : ∀ t p q, h.tasks t = some ⟨i, p⟩ → p.cleans = some q → Cleaning p q (h.view i)
  once : ∀ t p u p' q q', h.tasks t = some ⟨i, p⟩ → p.cleans = some q →
    h.tasks u = some ⟨i, p'⟩ → p'.cleans = some q' → t = u
  revoking : ∀ q, (h.view i).slot = some (.revoking q) →
    ∃ t p, h.tasks t = some ⟨i, p⟩ ∧ p.cleans = some q
  leaving : ∀ r, (h.view i).slot = some (.unregistering r) →
    ∃ t p, h.tasks t = some ⟨i, p⟩ ∧ p.Leaves r

/-- A handler that does not register starts, moves or ends. -/
theorem Phased.interfere (hc : Phased h i) (htasks : h'.tasks = h.tasks)
    (hwas : ∀ p, h.tasks t = some ⟨i, p⟩ → p.registers = false)
    (hnext : ∀ p, next = some p → p.registers = false)
    (he : Interferes (h.view i) (h'.view i)) : Phased (h'.spawn t i next) i := by
  have hother : ∀ u p, (h'.spawn t i next).tasks u = some ⟨i, p⟩ → p.registers = true →
      u ≠ t ∧ h.tasks u = some ⟨i, p⟩ := by
    intro u p hu hreg
    obtain ⟨-, hn⟩ | hold := running_cases htasks hu
    · cases (hnext p hn).symm.trans hreg
    · exact hold
  refine ⟨?_, ?_, ?_⟩
  · intro u p v p' hu hreg hv hreg'
    exact hc.alone u p v p' (hother u p hu hreg).2 hreg (hother v p' hv hreg').2 hreg'
  · intro u p hu hreg
    exact Point.Stands.stable hreg he (hc.stands u p (hother u p hu hreg).2 hreg)
  · intro hnone
    refine Settled.stable he (hc.settled fun u p hu => ?_)
    by_cases hut : u = t
    · exact hwas p (hut ▸ hu)
    · exact hnone u p (running_else htasks hut hu)

theorem Tidy.spawn (hc : Tidy h i) (htasks : h'.tasks = h.tasks)
    (hnew : ∀ p q, next = some p → p.cleans = some q → Cleaning p q (h'.view i) ∧
      ∀ u p' q', u ≠ t → h.tasks u = some ⟨i, p'⟩ → p'.cleans ≠ some q')
    (hold : ∀ u p q, u ≠ t → h.tasks u = some ⟨i, p⟩ → p.cleans = some q → Cleaning p q (h'.view i))
    (hrevoking : ∀ q, (h'.view i).slot = some (.revoking q) →
      (∃ p, next = some p ∧ p.cleans = some q) ∨
        ∃ u p, u ≠ t ∧ h.tasks u = some ⟨i, p⟩ ∧ p.cleans = some q)
    (hleaving : ∀ r, (h'.view i).slot = some (.unregistering r) →
      (∃ p, next = some p ∧ p.Leaves r) ∨ ∃ u p, u ≠ t ∧ h.tasks u = some ⟨i, p⟩ ∧ p.Leaves r) :
    Tidy (h'.spawn t i next) i := by
  refine ⟨?_, ?_, ?_, ?_⟩
  · intro u p q hu hq
    obtain ⟨-, hn⟩ | ⟨hut, hu⟩ := running_cases htasks hu
    · exact (hnew p q hn hq).1
    · exact hold u p q hut hu hq
  · intro u p v p' q q' hu hq hv hq'
    obtain ⟨hut, hn⟩ | ⟨hut, hu⟩ := running_cases htasks hu
    · obtain ⟨hvt, -⟩ | ⟨hvt, hv⟩ := running_cases htasks hv
      · exact hut.trans hvt.symm
      · exact absurd hq' ((hnew p q hn hq).2 v p' q' hvt hv)
    · obtain ⟨-, hn⟩ | ⟨-, hv⟩ := running_cases htasks hv
      · exact absurd hq ((hnew p' q' hn hq').2 u p q hut hu)
      · exact hc.once u p v p' q q' hu hq hv hq'
  · intro q hq
    obtain ⟨p, hn, hp⟩ | ⟨u, p, hut, hu, hp⟩ := hrevoking q hq
    · exact ⟨t, p, running_at hn, hp⟩
    · exact ⟨u, p, running_else htasks hut hu, hp⟩
  · intro r hr
    obtain ⟨p, hn, hp⟩ | ⟨u, p, hut, hu, hp⟩ := hleaving r hr
    · exact ⟨t, p, running_at hn, hp⟩
    · exact ⟨u, p, running_else htasks hut hu, hp⟩

structure Coherent (h : Server H) (i : InstanceId) : Prop where
  known : Known h i
  phased : Phased h i
  tidy : Tidy h i

theorem Coherent.congr (hc : Coherent h i)
    (hrunning : ∀ t p, h'.tasks t = some ⟨i, p⟩ ↔ h.tasks t = some ⟨i, p⟩)
    (hview : h'.view i = h.view i) : Phased h' i ∧ Tidy h' i := by
  obtain ⟨-, ⟨halone, hstands, hsettled⟩, hcleaning, honce, hrevoking, hleaving⟩ := hc
  simp only [← hrunning, ← hview] at halone hstands hsettled hcleaning honce hrevoking hleaving
  exact ⟨⟨halone, hstands, hsettled⟩, hcleaning, honce, hrevoking, hleaving⟩

/-- A handler starts while no revocation is begun. -/
theorem Tidy.quiet (hc : Tidy h i) (htasks : h'.tasks = h.tasks) (hfree : h.tasks t = none)
    (hnext : ∀ p, next = some p → p.cleans = none)
    (hq : ∀ q, (h.view i).slot = some (.revoking q) → h'.view i = h.view i)
    (hrevoking : ∀ q, (h'.view i).slot = some (.revoking q) → (h.view i).slot = some (.revoking q))
    (hleaving : ∀ r, (h'.view i).slot = some (.unregistering r) →
      (∃ p, next = some p ∧ p.Leaves r) ∨ (h.view i).slot = some (.unregistering r)) :
    Tidy (h'.spawn t i next) i := by
  have hne : ∀ u p, h.tasks u = some ⟨i, p⟩ → u ≠ t := by
    rintro u p hu rfl
    cases hfree.symm.trans hu
  refine hc.spawn htasks ?_ ?_ ?_ ?_
  · intro p q hn hq
    cases (hnext p hn).symm.trans hq
  · intro u p q hut hu hpq
    have hcleaning := hc.cleaning u p q hu hpq
    rw [hq q hcleaning.slot]
    exact hcleaning
  · intro q hq
    obtain ⟨u, p, hu, hp⟩ := hc.revoking q (hrevoking q hq)
    exact .inr ⟨u, p, hne u p hu, hu, hp⟩
  · intro r hr
    obtain hnew | hold := hleaving r hr
    · exact .inl hnew
    · obtain ⟨u, p, hu, hp⟩ := hc.leaving r hold
      exact .inr ⟨u, p, hne u p hu, hu, hp⟩

theorem Coherent.start (hc : Coherent h i) (htasks : h'.tasks = h.tasks) (hfree : h.tasks t = none)
    (hnext : ∀ p, next = some p → p.registers = false ∧ p.cleans = none)
    (hquiet : Quiet (h.view i) (h'.view i))
    (hrevoking : ∀ q, (h'.view i).slot = some (.revoking q) → (h.view i).slot = some (.revoking q))
    (hleaving : ∀ r, (h'.view i).slot = some (.unregistering r) →
      (∃ p, next = some p ∧ p.Leaves r) ∨ (h.view i).slot = some (.unregistering r)) :
    Phased (h'.spawn t i next) i ∧ Tidy (h'.spawn t i next) i := by
  refine ⟨hc.phased.interfere htasks ?_ (fun p hn => (hnext p hn).1) (.quiet hquiet),
    hc.tidy.quiet htasks hfree (fun p hn => (hnext p hn).2) (fun _ => hquiet.revoking) hrevoking
      hleaving⟩
  intro p hp
  cases hfree.symm.trans hp

/-- While a registration is granted or the credential is taken out, nothing is cleaned up. -/
theorem Tidy.none_cleans (hc : Tidy h i) (hne : ∀ q, (h.view i).slot ≠ some (.revoking q))
    {u : Nat} (hu : h.tasks u = some ⟨i, p⟩) : p.cleans = none := by
  cases hp : p.cleans with
  | none => rfl
  | some q => exact absurd (hc.cleaning u p q hu hp).slot (hne q)

theorem coherent_begin {permit : RegistrationPermit} {presented : Option MutationCredential}
    {participates : Bool} (hc : Coherent h i)
    (hgranted : (h.credentials i).beginRegistration i presented h.minted h.minted = .ok permit)
    (hfree : h.tasks t = none)
    (hcalm : ∀ u p, h.tasks u = some ⟨i, p⟩ → p.registers = false)
    (hview : (h'.view i) = ⟨Slot.started permit, (h.view i).standing⟩)
    (htasks : h'.tasks = h.tasks) :
    Phased (h'.spawn t i (some (.stage permit participates))) i ∧
      Tidy (h'.spawn t i (some (.stage permit participates))) i := by
  obtain ⟨-, -, hfrom⟩ := Slot.beginRegistration_ok hgranted
  have hsettled := hc.phased.settled hcalm
  have hstanding : (h.view i).standing = (permit.before, none) := by
    unfold Settled at hsettled
    obtain ⟨r, hslot, hprevious⟩ | ⟨hslot | ⟨q, hslot⟩, hprevious⟩ := hfrom
    · rw [show (h.view i).slot = some (.active r) from hslot] at hsettled
      rw [RegistrationPermit.before, hprevious]
      exact hsettled
    · rw [show (h.view i).slot = none from hslot] at hsettled
      rw [RegistrationPermit.before, hprevious]
      exact hsettled
    · rw [show (h.view i).slot = some (.removed q) from hslot] at hsettled
      rw [RegistrationPermit.before, hprevious]
      exact hsettled
  have hbegun : Begun permit (h'.view i) := by
    rw [hview]
    exact ⟨Slot.started_holds, hstanding⟩
  have hnew : ∀ u p, (h'.spawn t i (some (.stage permit participates))).tasks u = some ⟨i, p⟩ →
      p.registers = true → u = t ∧ p = .stage permit participates := by
    intro u p hu hreg
    obtain ⟨hut, hn⟩ | ⟨-, hu⟩ := running_cases htasks hu
    · exact ⟨hut, (Option.some.inj hn).symm⟩
    · cases (hcalm u p hu).symm.trans hreg
  have hne : ∀ q, (h.view i).slot ≠ some (.revoking q) := by
    intro q hq
    obtain ⟨r, hslot, -⟩ | ⟨hslot | ⟨q, hslot⟩, -⟩ := hfrom <;> cases hslot.symm.trans hq
  refine ⟨⟨?_, ?_, ?_⟩, hc.tidy.quiet htasks hfree ?_ ?_ ?_ ?_⟩
  · intro u p v p' hu hreg hv hreg'
    exact (hnew u p hu hreg).1.trans (hnew v p' hv hreg').1.symm
  · intro u p hu hreg
    rw [(hnew u p hu hreg).2]
    exact hbegun
  · intro hnone
    cases hnone t (.stage permit participates) (running_at rfl)
  · rintro p ⟨⟩
    rfl
  · intro q hq
    exact absurd hq (hne q)
  · intro q hq
    rw [hview] at hq
    cases hq
  · intro r hr
    rw [hview] at hr
    cases hr

theorem coherent_new {directory : BundleDirectory H} {placements : Tier.Projection H}
    (hd : directory.standing i = (none, none)) : Coherent (Server.new directory placements) i := by
  have hidle : ∀ t p, (Server.new directory placements).tasks t ≠ some ⟨i, p⟩ := by
    intro t p ht
    cases ht
  refine ⟨known_new, ⟨?_, ?_, ?_⟩, ⟨?_, ?_, ?_, ?_⟩⟩
  · exact fun t p _ _ ht => absurd ht (hidle t p)
  · exact fun t p ht => absurd ht (hidle t p)
  · exact fun _ => .of_vacant (.inl rfl) hd
  · exact fun t p _ ht => absurd ht (hidle t p)
  · exact fun t p _ _ _ _ ht => absurd ht (hidle t p)
  · intro q hq
    cases hq
  · intro r hr
    cases hr

/-! ### A step of a handler -/

variable [Bundle.SequenceHash H]

theorem Performs.late (hp : Performs h i p h' next) (hl : p.late = true) :
    (h'.view i).slot = (h.view i).slot ∧
      ((h.view i).standing = (none, none) → (h'.view i).standing = (none, none)) := by
  cases hp
  case finalized | refinalized =>
    rw [view_onRegisterAny, if_pos rfl]
    refine ⟨rfl, fun hs => ?_⟩
    rw [hs]
    rfl
  case cleared =>
    rw [view_onUnregister, if_pos rfl]
    exact ⟨rfl, fun _ => rfl⟩
  case clearedPlacements => exact ⟨rfl, id⟩
  all_goals cases hl

theorem Phased.advance (hc : Phased h i) (ht : h.tasks t = some ⟨i, p⟩)
    (hf : ∀ permit, p.permit = some permit → permit.Fresh) (hreg : p.registers = true)
    (hp : Performs h i p h' next) : Phased (h'.spawn t i next) i := by
  have hsame : ∀ u p', (h'.spawn t i next).tasks u = some ⟨i, p'⟩ → p'.registers = true →
      u = t ∧ next = some p' := by
    intro u p' hu hreg'
    obtain hnew | ⟨hut, hu⟩ := running_cases hp.proceeds.tasks hu
    · exact hnew
    · exact absurd (hc.alone u p' t p hu hreg' ht hreg) hut
  have hstands := hp.stands hf hreg (hc.stands t p ht hreg)
  refine ⟨?_, ?_, ?_⟩
  · intro u p' v p'' hu hu' hv hv'
    exact (hsame u p' hu hu').1.trans (hsame v p'' hv hv').1.symm
  · intro u p' hu hreg'
    rw [(hsame u p' hu hreg').2] at hstands
    exact hstands
  · intro hnone
    cases hn : next with
    | none =>
      rw [hn] at hstands
      exact hstands
    | some p' =>
      rw [hn] at hstands
      exact Point.settled_of_stands (hnone t p' (running_at hn)) hstands

/-- A revocation that is under way is not disturbed by a handler that does not clean up. -/
theorem Performs.keeps_revoking {q : RegistryIncarnation} (hk : Known h i) (hc : Phased h i)
    (ht : h.tasks t = some ⟨i, p⟩) (hclean : p.cleans = none) (hp : Performs h i p h' next)
    (hq : (h.view i).slot = some (.revoking q)) :
    (h'.view i).slot = some (.revoking q) ∧
      ((h.view i).standing = (none, none) → (h'.view i).standing = (none, none)) := by
  cases hreg : p.registers with
  | false =>
    rw [(hp.quiet hk ht hreg hclean).revoking hq]
    exact ⟨hq, id⟩
  | true =>
    obtain ⟨hslot, hcleared⟩ := hp.late (Point.late_of_revoking
      (fun permit hpermit r => hk.permit_new t p permit r ht hpermit) hreg
      (hc.stands t p ht hreg) hq)
    exact ⟨hslot.trans hq, hcleared⟩

theorem Tidy.advance (hk : Known h i) (hph : Phased h i) (hc : Tidy h i)
    (ht : h.tasks t = some ⟨i, p⟩) (hp : Performs h i p h' next) : Tidy (h'.spawn t i next) i := by
  cases hclean : p.cleans with
  | some q0 =>
    have hcleaning := hc.cleaning t p q0 ht hclean
    -- no other handler cleans up
    have halone : ∀ u p' q', u ≠ t → h.tasks u = some ⟨i, p'⟩ → p'.cleans ≠ some q' :=
      fun u p' q' hut hu hq' => hut (hc.once u p' t p q' q0 hu hq' ht hclean)
    have hrevoked := hp.cleaning hclean hcleaning
    refine hc.spawn hp.proceeds.tasks ?_ ?_ ?_ ?_
    · intro p' q' hn hq'
      obtain ⟨-, p'', hn', hq'', hc'⟩ | ⟨-, -, hnone⟩ := hrevoked
      · cases hn.symm.trans hn'
        cases hq'.symm.trans hq''
        exact ⟨hc', halone⟩
      · cases (hnone p' hn).symm.trans hq'
    · intro u p' q' hut hu hq'
      exact absurd hq' (halone u p' q' hut hu)
    · intro q hq
      obtain ⟨-, p', hn', hq', hc'⟩ | ⟨-, hnone, -⟩ := hrevoked
      · cases hc'.slot.symm.trans hq
        exact .inl ⟨p', hn', hq'⟩
      · cases hnone.symm.trans hq
    · intro r hr
      cases hcleaning.slot.symm.trans (hp.turns.unregistering hr)
  | none =>
    have hnot : ∀ u p' q', h.tasks u = some ⟨i, p'⟩ → p'.cleans = some q' → u ≠ t := by
      intro u p' q' hu hq' hut
      subst hut
      cases ht.symm.trans hu
      cases hclean.symm.trans hq'
    refine hc.spawn hp.proceeds.tasks ?_ ?_ ?_ ?_
    · intro p' q hn hq
      obtain ⟨hcleaning, r, hr⟩ := hp.begins hclean hn hq
      refine ⟨hcleaning, fun u p'' q' hut hu hq' => ?_⟩
      rw [(hc.cleaning u p'' q' hu hq').slot] at hr
      cases hr
    · intro u p' q hut hu hq
      have hcleaning := hc.cleaning u p' q hu hq
      obtain ⟨hslot, hcleared⟩ := hp.keeps_revoking hk hph ht hclean hcleaning.slot
      exact ⟨hslot, fun hd => hcleared (hcleaning.cleared hd)⟩
    · intro q hq
      obtain hold | ⟨after, hn⟩ := hp.turns.revoking hq
      · obtain ⟨u, p', hu, hq'⟩ := hc.revoking q hold
        exact .inr ⟨u, p', hnot u p' q hu hq', hu, hq'⟩
      · exact .inl ⟨_, hn, rfl⟩
    · intro r hr
      have hold := hp.turns.unregistering hr
      obtain ⟨u, p', hu, hl⟩ := hc.leaving r hold
      by_cases hut : u = t
      · subst hut
        cases ht.symm.trans hu
        exact .inl (hp.leaves hl hold hr)
      · exact .inr ⟨u, p', hut, hu, hl⟩

/-! ### Every step -/

/-- A registration is granted only while no other register handler of the instance is at work. -/
def Separate (h : Server H) : Action H → Prop
  | .register _ owner presented _ => ∀ permit,
      (h.credentials owner).beginRegistration owner presented h.minted h.minted = .ok permit →
        ∀ t p, h.tasks t = some ⟨owner, p⟩ → p.registers = false
  | _ => True

/-- **Every step keeps the three components coherent.** -/
theorem coherent_step {a : Action H} (hc : Coherent h i) (hok : Complete a ∧ Separate h a)
    (hs : h.step a = some h') : Coherent h' i := by
  suffices hrest : Phased h' i ∧ Tidy h' i from ⟨known_step hc.known hok.1 hs, hrest.1, hrest.2⟩
  obtain hapart | hown := step_cases hok.1 hs
  · exact hc.congr hapart.running hapart.view
  cases hown with
  | begin hfree hgranted =>
    refine coherent_begin hc hgranted hfree (hok.2 _ hgranted) ?_ rfl
    exact view_setSlot_self
  | @leave t presented r hfree hgranted =>
    have hslot : (h.view i).slot = some (.active r) := Slot.beginUnregister_ok hgranted
    have hquiet : Quiet (h.view i) ((h.setSlot i (some (.unregistering r))).view i) := by
      rw [view_setSlot_self, show h.view i = ⟨some (.active r), (h.view i).standing⟩ from
        View.ext hslot rfl]
      exact .leaves
    refine hc.start rfl hfree ?_ hquiet ?_ ?_
    · rintro p ⟨⟩
      exact ⟨rfl, rfl⟩
    · intro q hq
      rw [view_setSlot_self] at hq
      cases hq
    · intro r' hr
      rw [view_setSlot_self] at hr
      cases hr
      exact .inl ⟨_, rfl, rfl⟩
  | @push t snapshot credential epoch hfree =>
    refine hc.start rfl hfree ?_ .same (fun _ => id) fun _ => .inr
    rintro p ⟨⟩
    exact ⟨rfl, rfl⟩
  | @advance t ok p after next hrunning _ hp =>
    refine ⟨?_, hc.tidy.advance hc.known hc.phased hrunning hp⟩
    cases hreg : p.registers with
    | true =>
      exact hc.phased.advance hrunning
        (fun permit hpermit r => hc.known.permit_new t p permit r hrunning hpermit) hreg hp
    | false =>
      refine hc.phased.interfere hp.proceeds.tasks ?_ ?_ ?_
      · intro p' hp'
        cases hrunning.symm.trans hp'
        exact hreg
      · intro p' hn
        refine Bool.eq_false_iff.mpr fun hreg' => ?_
        cases hreg.symm.trans (hp.registers hn hreg')
      · cases hclean : p.cleans with
        | none => exact .quiet (hp.quiet hc.known hrunning hreg hclean)
        | some q =>
          obtain ⟨he, -⟩ | ⟨he, -⟩ := hp.cleaning hclean (hc.tidy.cleaning t p q hrunning hclean)
          · exact he
          · exact he
  | evict => exact hc.congr (fun _ _ => .rfl) rfl
  | @deliver t q hfree =>
    cases hb : (h.credentials i).beginRevocation q with
    | mk action slot =>
      cases action with
      | cleanup =>
        obtain ⟨⟨r, hr, rfl⟩, rfl⟩ := Slot.beginRevocation_cleanup hb
        have hne : ∀ q, (h.view i).slot ≠ some (.revoking q) := by
          intro q hq
          rw [show h.credentials i = some (.revoking q) from hq] at hr
          cases hr
        have hquiet : Quiet (h.view i) ((h.setSlot i (some (.revoking r.incarnation))).view i) := by
          rw [view_setSlot_self]
          exact .revokes hr
        refine ⟨hc.phased.interfere rfl ?_ ?_ (.quiet hquiet), hc.tidy.spawn rfl ?_ ?_ ?_ ?_⟩
        · intro p hp
          cases hfree.symm.trans hp
        · rintro p ⟨⟩
          rfl
        · intro p q hn hq
          cases hn
          cases hq
          refine ⟨⟨congrArg View.slot view_setSlot_self, fun hf => by cases hf⟩, ?_⟩
          intro u p' q' hut hu hq'
          cases (hc.tidy.none_cleans hne hu).symm.trans hq'
        · intro u p q hut hu hq
          cases (hc.tidy.none_cleans hne hu).symm.trans hq
        · intro q hq
          have hslot : (h.setSlot i (some (.revoking r.incarnation))).credentials i =
              some (.revoking q) := hq
          rw [credentials_setSlot] at hslot
          cases hslot
          exact .inl ⟨_, rfl, rfl⟩
        · intro r' hr'
          have hslot : (h.setSlot i (some (.revoking r.incarnation))).credentials i =
              some (.unregistering r') := hr'
          rw [credentials_setSlot] at hslot
          cases hslot
      | ignore =>
        have hi := Slot.beginRevocation_ignore hb
        have hview : (h.setSlot i slot).view i = ⟨slot, (h.view i).standing⟩ := view_setSlot_self
        have hquiet : Quiet (h.view i) ((h.setSlot i slot).view i) := by
          rw [hview]
          exact .ignored hi
        have hturns : Turns (.finishRevocation q .done : Point H) none (h.view i).slot
            ((h.setSlot i slot).view i).slot := by
          rw [hview]
          exact .ignored hi
        refine hc.start rfl hfree ?_ hquiet ?_ fun r hr => .inr (hturns.unregistering hr)
        · intro p hn
          cases hn
        · intro q hq
          obtain hold | ⟨_, hn⟩ := hturns.revoking hq
          · exact hold
          · cases hn

end Server

end Kvbm.Hub.Registration
