/-
Runs of the hub in which registrations do not overlap.

A register handler that gives up releases the credential before it has cleared the directory.  If
another registration of the instance is granted in between, the first handler clears away what the
second has staged.  As long as that does not happen, the registry, the credentials and the directory
agree whenever the handlers of an instance are done, whatever else runs at the same time.
-/
import Kvbm.Proofs.Hub.Registration.Agree

namespace Kvbm.Hub.Registration

open Lib Hub.Bundle

variable {H : Type} [DecidableEq H] [Bundle.SequenceHash H]

namespace Server

variable {h h' : Server H} {i : InstanceId} {p : Point H} {t : Nat} {permit : RegistrationPermit}

/-! ### The advertisements of an owner whose registration is rolled back -/

/-- The handler has the permit, or has put the registration back and nobody has taken it out. -/
def Undoes (h : Server H) (i : InstanceId) (permit : RegistrationPermit) (p : Point H) : Prop :=
  p.permit = some permit ∨ (∃ q, p = .restoreFinalize q) ∧ (h.credentials i).registration ≠ none

/-- The handler is at work, and the owner itself has no call accepted. -/
def During (t : Nat) (i : InstanceId) (permit : RegistrationPermit) (h : Server H)
    (a : Action H) : Prop :=
  (∃ p, h.tasks t = some ⟨i, p⟩ ∧ h.Undoes i permit p) ∧
    (∀ request, a = .publish request → ¬h.directory.Touches i (.publish request)) ∧
    ∀ request, a = .invalidate request → ¬h.directory.Touches i (.invalidate request)

omit [DecidableEq H] [Bundle.SequenceHash H] in
theorem registers_of_permit (hp : p.permit = some permit) :
    p.registers = true ∧ p.released = false ∧ p.late = false := by
  cases p with
  | onUnregister rest => cases rest <;> first | exact ⟨rfl, rfl, rfl⟩ | cases hp
  | unregisterPlacements rest => cases rest <;> first | exact ⟨rfl, rfl, rfl⟩ | cases hp
  | remove | revoke | finishRevocation | removeUnregister | restoreUnregister | install => cases hp
  | finalize | restoreFinalize => cases hp
  | _ => exact ⟨rfl, rfl, rfl⟩

/-- Until a rollback has ended, no call of a handler takes the owner's advertisements. -/
theorem Coherent.spared {u : Nat} {j : InstanceId} {p' : Point H} {b : Bundle.Action H}
    (hc : Coherent h i) (ht : h.tasks t = some ⟨i, p⟩) (hat : h.Undoes i permit p)
    (hbefore : permit.before ≠ none) (hu : h.tasks u = some ⟨j, p'⟩) (hb : p'.asks j = some b) :
    ¬h.directory.Touches i b := by
  intro htouch
  obtain rfl := touches_asks hb htouch
  have hreg : p.registers = true := by
    obtain hpermit | ⟨⟨q, rfl⟩, -⟩ := hat
    · exact (registers_of_permit hpermit).1
    · rfl
  by_cases hut : u = t
  · subst hut
    cases ht.symm.trans hu
    obtain hpermit | ⟨⟨q, rfl⟩, -⟩ := hat
    · exact hc.untouched ht hpermit hbefore hb htouch
    -- nothing is pending when the registration has been put back
    cases hb
    obtain ⟨-, pending, hpending, -⟩ := htouch
    have hsettled : Settled (h.view i) := hc.phased.stands u _ ht rfl
    cases hsettled.pending.symm.trans hpending
  have hidle : p'.registers = false :=
    Bool.eq_false_iff.mpr fun hreg' => hut (hc.phased.alone u p' t p hu hreg' ht hreg)
  -- what is left is a handler that cleans up, and then the credential is being revoked
  have hclean : ∃ q, p'.cleans = some q := by
    cases p' with
    | onUnregister rest =>
      cases rest with
      | finish q => exact ⟨q, rfl⟩
      | done | dropped | remove | resume => cases hidle
    | stage | unstage | restoreStage | bind | restoreBind | finalize | restoreFinalize =>
      cases hidle
    | _ => cases hb
  obtain ⟨q, hq⟩ := hclean
  have hslot := (hc.tidy.cleaning u p' q hu hq).slot
  obtain hpermit | ⟨-, hr⟩ := hat
  swap
  · exact hr (by rw [show h.credentials i = _ from hslot]; rfl)
  obtain ⟨-, hreleased, hlate⟩ := registers_of_permit hpermit
  obtain ⟨permit', hd⟩ | ⟨h', -⟩ | ⟨h', -⟩ :=
    (hc.phased.stands t p ht hreg).cases (hc.fresh ht) hreg
  · obtain ⟨_, _, hslot'⟩ := hd.holds
    cases hslot.symm.trans hslot'
  · cases hreleased.symm.trans h'
  · cases hlate.symm.trans h'

theorem keeps_during {a : Action H} (hc : Coherent h i) (hd : h.directory.state.Sound)
    (hbefore : permit.before ≠ none) (hduring : During t i permit h a) (hs : h.step a = some h') :
    h.directory.state.Keeps i h.directory.clock h'.directory.state := by
  obtain ⟨⟨p, ht, hat⟩, hpublish, hinvalidate⟩ := hduring
  obtain hsame | ⟨u, _, j, p', b, -, hu, hb, hstep⟩ | ⟨b, hstep, hkind⟩ := directory_step hs
  · rw [hsame]
    exact .of_eq rfl
  · rw [hstep]
    exact BundleDirectory.keeps_step hd b (hc.spared ht hat hbefore hu hb)
  · rw [hstep]
    refine BundleDirectory.keeps_step hd b ?_
    obtain ⟨now, rfl⟩ | ⟨request, rfl⟩ | ⟨request, rfl, ha⟩ | ⟨request, rfl, ha⟩ := hkind
    · exact id
    · exact id
    · exact hpublish request ha
    · exact hinvalidate request ha

/-- **A registration that is not committed leaves the owner's advertisements**, but for those that
expire. -/
theorem kept_during {h1 : Server H} (hc : Coherent h1 i) (hd : h1.directory.state.Sound)
    (hbefore : permit.before ≠ none)
    (hr : ReachableWhile (fun s a => (Complete a ∧ Separate s a) ∧ During t i permit s a) (· = h1)
      step h) :
    h1.directory.state.Keeps i h.directory.clock h.directory.state := by
  have hinv : Coherent h i ∧ h.directory.state.Sound ∧
      h1.directory.state.Keeps i h.directory.clock h.directory.state := by
    refine hr.invariant (P := fun s => Coherent s i ∧ s.directory.state.Sound ∧
      h1.directory.state.Keeps i s.directory.clock s.directory.state) ?_ ?_
    · rintro _ rfl
      exact ⟨hc, hd, .of_eq rfl⟩
    · rintro s a s' ⟨hcs, hds, hkeeps⟩ ⟨hok, hduring⟩ hs
      refine ⟨coherent_step hcs hok hs, directory_sound hds hs, ?_⟩
      have hkept := hkeeps.trans (keeps_during hcs hds hbefore hduring hs) le_rfl
      exact hkept.trans (.of_eq rfl) (clock_step hs)
  exact hinv.2.2

/-! ### The steps of a rollback -/

/-- Runs from `h` with `n` steps of a handler, none of which fails, up to its abort. -/
inductive Onward (t : Nat) (h : Server H) : Nat → Server H → Prop
  | start : Onward t h 0 h
  | own (run : Onward t h n s) (step : s.step (.advance t true) = some s')
      (going : ∀ task permit, s.tasks t = some task → task.point.rollsBack ≠ some (permit, 0)) :
      Onward t h (n + 1) s'
  | other (run : Onward t h n s) (step : s.step a = some s') (ok : Complete a ∧ Separate s a)
      (other : ∀ ok, a ≠ .advance t ok) : Onward t h n s'

/-- **A rollback none of whose steps fails reaches its abort**, whatever runs beside it. -/
theorem Onward.reaches {n k : Nat} (hrun : Onward t h n h') (hc : Coherent h i)
    (ht : h.tasks t = some ⟨i, p⟩) (hp : p.rollsBack = some (permit, k))
    (hprevious : permit.previous ≠ none) : Coherent h' i ∧
      ∃ p' m, h'.tasks t = some ⟨i, p'⟩ ∧ p'.rollsBack = some (permit, m) ∧ m + n ≤ k := by
  induction hrun with
  | start => exact ⟨hc, p, k, ht, hp, le_rfl⟩
  | own _ hs hgoing ih =>
    obtain ⟨hcs, p', m, ht', hp', hle⟩ := ih
    have hm : 0 < m := by
      refine Nat.pos_of_ne_zero ?_
      rintro rfl
      exact hgoing _ _ ht' hp'
    obtain ⟨p'', m', ht'', hp'', hlt⟩ := hcs.rollsBack ht' hp' hprevious hm hs
    exact ⟨coherent_step (a := .advance t true) hcs ⟨trivial, trivial⟩ hs, p'', m', ht'', hp'',
      by omega⟩
  | other _ hs hok hother ih =>
    obtain ⟨hcs, p', m, ht', hp', hle⟩ := ih
    exact ⟨coherent_step hcs hok hs, p', m, tasks_other hok.1 hother ht' hs, hp', hle⟩

/-! ### The three components agree -/

/-- A hub that has just started. -/
def Initial (h : Server H) : Prop :=
  ∃ leaseTtlMs advertisementTtlMs advertisementsPerOwner advertisementsGlobal
    absentRetirementsPerOwner absentRetirementsGlobal clock limits,
    h = Server.new (.withLimits leaseTtlMs advertisementTtlMs advertisementsPerOwner
      advertisementsGlobal absentRetirementsPerOwner absentRetirementsGlobal clock) (.new ∅ limits)

/-- What the registry, the credentials and the directory have in common for an instance. -/
structure Agrees (h : Server H) (i : InstanceId) : Prop where
  /-- What a handler is to give back has been given back when none is at work. -/
  rest : h.Idle i → (∀ progress, h.credentials i ≠ some (.registering progress)) ∧
    (∀ r, h.credentials i ≠ some (.unregistering r)) ∧ ∀ q, h.credentials i ≠ some (.revoking q)
  /-- A registration has its entry or a notice about it, and its authority in the directory. -/
  active : h.Idle i → ∀ r, h.credentials i = some (.active r) →
    (h.registry.entries i = some r.incarnation ∨ (i, r.incarnation) ∈ h.notices) ∧
      h.directory.state.ownerCredentials i = r.authority ∧
      h.directory.state.pendingOwnerRegistrations i = none
  /-- The report of an old removal changes nothing of a newer registration, and no entry. -/
  callback : ∀ a h' q, h.step a = some h' → h.Serves i q a →
    h'.registry.entries i = h.registry.entries i ∧
      (∀ r, (h.credentials i).registration = some r → r.incarnation ≠ q → h'.view i = h.view i) ∧
      ∀ permit, (h.credentials i).Holds permit →
        (h'.credentials i).Holds permit ∧ h'.directory.standing i = h.directory.standing i
  /-- While a transition is pending the owner publishes nothing and is not returned. -/
  pending : ∀ transition, h.directory.state.pendingOwnerRegistrations i = some transition →
    (∀ request : BundlePublishRequest H, request.advertisement.owner = i →
      ∃ e, (h.directory.publish request).1 = .error e) ∧
    ∀ (δ : Type) (_ : LinearOrder δ) (display : InstanceId → δ) leaseId request hit,
      h.directory.answer display leaseId request = .hit hit → hit.advertisement.owner ≠ i
  /-- While a registration is under way nothing goes under its credential or its epoch. -/
  withheld : ∀ progress, h.credentials i = some (.registering progress) →
    (∀ request : BundlePublishRequest H, request.advertisement.owner = i →
      request.credential = progress.credential → ∃ e, (h.directory.publish request).1 = .error e) ∧
    ∀ (δ : Type) (_ : LinearOrder δ) (display : InstanceId → δ) leaseId request hit,
      h.directory.answer display leaseId request = .hit hit → hit.advertisement.owner = i →
        hit.advertisement.registrationEpoch ≠ some progress.registrationEpoch
  /-- A rollback none of whose steps fails reaches its abort. -/
  reaches : ∀ t p permit k n h', h.tasks t = some ⟨i, p⟩ → p.rollsBack = some (permit, k) →
    permit.previous ≠ none → Onward t h n h' →
      ∃ p' m, h'.tasks t = some ⟨i, p'⟩ ∧ p'.rollsBack = some (permit, m) ∧ m + n ≤ k
  /-- It gives back exactly the credential and the authority that were there, unless the entry
  they go with is reported removed. -/
  rollback : ∀ t h' p permit entry, h.step (.advance t true) = some h' →
    h.tasks t = some ⟨i, p⟩ → p.aborts = some (permit, entry) →
    h'.credentials i = (h.credentials i).givenBack permit entry ∧
      ∀ previous, permit.previous = some previous →
        h'.directory.state.ownerCredentials i = previous.authority ∧
          h'.directory.state.pendingOwnerRegistrations i = none
  /-- From its permit to its end it leaves the advertisements of an owner that had an authority,
  but for those that expire and for what the owner itself does. -/
  advertisements : ∀ t p permit h', h.tasks t = some ⟨i, p⟩ → p.permit = some permit →
    permit.before ≠ none →
    ReachableWhile (fun s a => (Complete a ∧ Separate s a) ∧ During t i permit s a) (· = h)
      step h' → h.directory.state.Keeps i h'.directory.clock h'.directory.state

theorem Coherent.agrees (hc : Coherent h i) (ha : Alive h i) (hd : h.directory.state.Sound) :
    Agrees h i where
  rest hidle := hc.rest hidle
  active hidle r hr := by
    obtain ⟨hentry, hstanding⟩ := hc.active ha hidle hr
    exact ⟨hentry, congrArg Prod.fst hstanding, congrArg Prod.snd hstanding⟩
  callback _ _ _ hs hserves := hc.serves hs hserves
  pending transition htransition := by
    have hnone : (h.directory.standing i).1 = none := by
      obtain hpending | hauthority := hc.exclusive
      · cases htransition.symm.trans hpending
      · exact hauthority
    refine ⟨fun request howner => publish_refused fun a ha => ?_, ?_⟩
    · rw [howner] at ha
      cases hnone.symm.trans ha
    · rintro δ _ display leaseId request hit hhit rfl
      obtain ⟨a, hauthority, -⟩ := hit_granted hd hhit
      cases hnone.symm.trans hauthority
  withheld progress hslot := by
    have hwithheld := hc.withheld hslot
    refine ⟨fun request howner hcredential => publish_refused fun a ha => ?_, ?_⟩
    · rw [howner] at ha
      rw [hcredential]
      exact (hwithheld a ha).1
    · rintro δ _ display leaseId request hit hhit rfl hepoch
      obtain ⟨a, hauthority, hhitepoch⟩ := hit_granted hd hhit
      rw [hepoch] at hhitepoch
      exact (hwithheld a hauthority).2 (Option.some.inj hhitepoch).symm
  reaches _ _ _ _ _ _ ht hp hprevious hrun := (hrun.reaches hc ht hp hprevious).2
  rollback _ _ _ _ _ hs ht hp := by
    obtain ⟨hslot, hstanding⟩ := hc.aborted hs ht hp
    exact ⟨hslot, fun previous hprevious => Prod.mk_inj.mp (hstanding previous hprevious)⟩
  advertisements _ _ _ _ _ _ hbefore hr := kept_during hc hd hbefore hr

theorem coherent_of_reachable
    (hr : ReachableWhile (fun h a => Complete a ∧ Separate h a) Initial step h) :
    Coherent h i ∧ Alive h i ∧ h.directory.state.Sound := by
  refine hr.invariant (P := fun h => Coherent h i ∧ Alive h i ∧ h.directory.state.Sound) ?_ ?_
  · rintro _ ⟨_, _, _, _, _, _, _, _, rfl⟩
    refine ⟨coherent_new rfl, ⟨?_, ?_⟩, BundleDirectoryState.sound_new⟩
    · intro r hr
      cases hr
    · intro t p q ht
      cases ht
  · rintro s a s' ⟨hc, ha, hd⟩ hok hs
    exact ⟨coherent_step hc hok hs, alive_step hc ha hok.1 hs, directory_sound hd hs⟩

/-- **No instance is stuck on its way out**: it has a handler, and for a revocation just one. -/
theorem leaving_handled
    (hr : ReachableWhile (fun h a => Complete a ∧ Separate h a) Initial step h) :
    (∀ q, (h.view i).slot = some (.revoking q) →
      ∃! t, ∃ p, h.tasks t = some ⟨i, p⟩ ∧ p.cleans = some q) ∧
    ∀ r, (h.view i).slot = some (.unregistering r) →
      ∃ t p, h.tasks t = some ⟨i, p⟩ ∧ p.Leaves r := by
  obtain ⟨⟨-, -, ht⟩, -, -⟩ := coherent_of_reachable hr
  refine ⟨fun q hq => ?_, ht.leaving⟩
  obtain ⟨t, p, hp, hclean⟩ := ht.revoking q hq
  refine ⟨t, ⟨p, hp, hclean⟩, ?_⟩
  rintro u ⟨p', hp', hclean'⟩
  exact ht.once u p' t p q q hp' hclean' hp hclean

end Server

/-! ### Small runs -/

open BundleDirectory (PlainBlock)

/-- A hub that has just started. -/
def started : Server PlainBlock := .new (.withLimits 30 500 4 8 4 8 100) (.new ∅ .default)

theorem started_initial : Server.Initial started := ⟨30, 500, 4, 8, 4, 8, 100, .default, rfl⟩

/-- Instance `1` is about to be registered. -/
def granted : Server PlainBlock := (started.step (.register 0 1 none true)).getD started

/-- The registration goes through. -/
def registered : Server PlainBlock :=
  (runList Server.step granted (List.replicate 7 (.advance 0 true))).getD granted

theorem registered_reachable :
    ReachableWhile (fun h a => Server.Complete a ∧ Server.Separate h a) Server.Initial Server.step
      registered := by
  have hgranted : ReachableWhile (fun h a => Server.Complete a ∧ Server.Separate h a)
      Server.Initial Server.step granted := by
    have hstep : started.step (.register 0 1 none true) = some granted := rfl
    refine .step (.init started_initial) (And.intro ?_ ?_) hstep
    · trivial
    · intro permit _ t p ht
      cases ht
  have hrun : runList Server.step granted (List.replicate 7 (.advance 0 true)) =
    some registered := rfl
  refine hgranted.runList ?_ hrun
  intro a ha s
  rw [List.eq_of_mem_replicate ha]
  exact ⟨trivial, trivial⟩

theorem leaving_handled_unregister : ∃ h, registered.step (.unregister 1 1 (some 0)) = some h ∧
    ∃ t p, h.tasks t = some ⟨1, p⟩ ∧ p.Leaves ⟨0, 0, true, 1⟩ :=
  ⟨_, rfl, (Server.leaving_handled (.step (a := .unregister 1 1 (some 0)) registered_reachable
    ⟨trivial, trivial⟩ rfl)).2 _ rfl⟩

/-- The first registration of instance `1`, without the indexer, fails when its features are set
up.  Its handler takes the entry out and releases the credential; before it clears the directory a
second registration is granted and staged. -/
def overlapping : List (Action PlainBlock) :=
  [.register 0 1 none false, .advance 0 true, .advance 0 true, .advance 0 true, .advance 0 false,
    .advance 0 true, .advance 0 true, .advance 0 true, .advance 0 true, .register 1 1 none true,
    .advance 1 true, .advance 0 true, .advance 0 true, .advance 1 true, .advance 1 true,
    .advance 1 true, .advance 1 true, .advance 1 true, .advance 1 true]

end Kvbm.Hub.Registration
