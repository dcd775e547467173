/-
Rebinding.

A plan owns the slot it has reserved, which is mutable and belongs to no guard.  A commit
that finds its source unchanged files the destination in the place of the source and
resets the source; every other outcome gives the destination back or leaves the plan as
it is.
-/
import Kvbm.Proofs.Store.Moves
import Kvbm.Proofs.Store.Tenure

namespace Kvbm

open Lib LawfulIndex BlockStore List Option

namespace BlockStore

variable {ι : Type} [InactiveIndex ι] [LawfulIndex ι]
variable {s s' : BlockStore ι} {out : List BlockId} {src dst : BlockId} {h : SequenceHash}
variable {handle : BlockRegistrationHandle}

/-! ### One slot in the place of another -/

variable (ht : s.Tidy (dst :: out))

include ht

theorem Tidy.below_replace {p : Place} (hp : s.Lists src p) : ∀ j ∈ src :: out, j < s.capacity :=
  forall_mem_cons.mpr ⟨ht.lists_lt hp, ht.below_tail⟩

theorem Tidy.replaceInactive {ix : ι} (hst : s.state dst = .inactive h handle)
    (hmem : (h, src) ∈ s.entries) (hwf : view.Wf ix)
    (hentries : view.entries ix = insert (h, dst) (s.entries.erase (h, src)))
    (hfits : ∀ m, view.Fits s.inactive m → view.Fits ix m) :
    { s with inactive := ix }.Tidy (src :: out) := by
  refine { ht with
    index := hwf
    fits := hfits _ ht.fits
    below := ht.below_replace (p := .inactive h) hmem
    filed := ht.filed.replace (q := .inactive h) hmem (place_eq.mpr ⟨handle, hst⟩) ?_
    exclusive := ?_ }
  · intro j p
    cases p with
    | inactive g =>
      show (g, j) ∈ view.entries ix ↔ _
      rw [hentries]
      simp [Lists, or_comm, and_comm]
    | _ => simp [Lists]
  · intro g a b hg hb
    have hb : (g, b) ∈ view.entries ix := hb
    rw [hentries, Finset.mem_insert, Finset.mem_erase] at hb
    rcases hb with hb | hb
    · cases hb
      exact ht.exclusive hg hmem
    · exact ht.exclusive hg hb.2

theorem Tidy.replaceActive {i : InnerId} (hst : s.state dst = .primary h handle i)
    (hact : s.activeByHash h = some src) :
    { s with activeByHash := Function.update s.activeByHash h (some dst) }.Tidy (src :: out) := by
  refine { ht with
    below := ht.below_replace (p := .active h) hact
    filed := ht.filed.replace (q := .active h) hact (place_eq.mpr ⟨handle, i, hst⟩) ?_
    exclusive := ?_ }
  · intro j p
    cases p with
    | active g =>
      by_cases hg : g = h
      · subst hg
        simp [Lists, hact, eq_comm]
      · simp [Lists, hg]
    | _ => simp [Lists, entries]
  · intro g a b hg
    by_cases hgh : g = h
    · subst hgh
      exact ht.exclusive hact
    · exact ht.exclusive (a := a) (by simpa [hgh] using hg)

end BlockStore

namespace World

section Moving

variable {ι : Type} {s : BlockStore ι} {plan : RebindPlan}

theorem finishMove_state {j : BlockId} :
    (finishMove s plan).state j = if j = plan.src then .reset else s.state j := by
  simp only [finishMove, resetSlot, pushResetId_state]
  exact state_setSlot

/-- Moves that lose no registration, though one may go to another slot. -/
structure Shifts (w w' : World ι) : Prop where
  moves : Moves w w'
  keeps : ∀ {id r}, w.store.reg id = some r →
    w'.store.reg id = some r ∨ ∃ dst, w.store.reg dst = none ∧ w'.store.reg dst = some r

theorem Shifts.refl (w : World ι) : w.Shifts w := ⟨.refl, .inl⟩

theorem Shifts.quiet {w : World ι} {s : BlockStore ι} {plans : List RebindPlan}
    (ho : w.store.SameOwned s) (hreg : s.reg = w.store.reg) (hc : s.slotCount = w.store.slotCount)
    (hplans : ∀ p ∈ plans, p ∈ w.plans ∨ ∃ id b, w.store.reg id = some (b, p.seqHash, p.handle)) :
    w.Shifts { w with store := s, plans := plans } := by
  have hquiet : Moves w { w with store := s } := .single (.quiet ho hreg hc.ge)
  have haside : Move { w with store := s } { w with store := s, plans := plans } := by
    refine .aside fun p hp => ?_
    rcases hplans p hp with hp | ⟨id, b, hid⟩
    · exact .inl hp
    · exact .inr ⟨id, b, hreg ▸ hid⟩
  exact ⟨hquiet.tail haside, fun hr => .inl (hreg ▸ hr)⟩

theorem Shifts.cleared {w : World ι} {s : BlockStore ι} {plans : List RebindPlan} {dst : BlockId}
    (hc : w.store.Cleared [dst] s) (howner : w.store.owner dst = none)
    (hreg : w.store.reg dst = none)
    (hplans : ∀ p ∈ plans, p ∈ w.plans ∨ ∃ id b, w.store.reg id = some (b, p.seqHash, p.handle)) :
    w.Shifts { w with store := s, plans := plans } := by
  refine .quiet (hc.sameOwned (by simpa using howner)) (funext fun j => ?_)
    (slotCount_congr hc.config) hplans
  by_cases hj : j = dst
  · rw [hj, (hc.gone dst (mem_singleton_self _)).reg, hreg]
  · exact hc.reg_eq (by simpa using hj)

end Moving

variable {ι : Type} [InactiveIndex ι] [LawfulIndex ι]
variable {w w' : World ι} {plan : RebindPlan} {r : Except RebindPrepareError RebindPlan}
  {i : InnerId} {src : BlockId}

section

variable (ht : w.store.Tidy [])

include ht

theorem reserve_spec {h : SequenceHash} {handle : BlockRegistrationHandle} {source : Option InnerId}
    {b : Bool} (hreg : w.store.reg src = some (b, h, handle))
    (hr : w.reserve src h handle source = some (r, w')) : w.Shifts w' ∧ w'.store.Tidy [] := by
  unfold reserve at hr
  split at hr
  · cases hr
    exact ⟨.refl w, ht⟩
  next dst s1 hpop =>
    obtain ⟨s2, halloc, hr⟩ := map_eq_some_iff.mp hr
    obtain ⟨hfree, rfl⟩ := popFree_spec hpop
    cases hr
    have hst := (ht.mem_free.mp hfree).2.1
    have hc : w.store.Cleared [dst] s2 := by
      have hcl := allocateMutableSlot_cleared halloc
      exact ⟨hcl.config, hcl.active, hcl.held, hcl.kept, hcl.reset, hcl.gone⟩
    refine ⟨.cleared hc (Blank.owner (.inl hst)) (Blank.reg (.inl hst)) fun p hp => ?_,
      (ht.takeFree hfree).allocateMutableSlot halloc⟩
    rcases mem_cons.mp hp with rfl | hp
    · exact .inr ⟨src, b, hreg⟩
    · exact .inl hp

theorem prepareRebind_spec (hr : w.prepareRebind src = some (r, w')) :
    w.Shifts w' ∧ w'.store.Tidy [] := by
  unfold prepareRebind at hr
  split_ifs at hr
  · cases hr
    exact ⟨.refl w, ht⟩
  split at hr
  · next hst => exact reserve_spec ht (reg_inactive hst) hr
  · cases hr
    exact ⟨.refl w, ht⟩

theorem prepareLiveRebind_spec (hr : w.prepareLiveRebind i = some (r, w')) :
    w.Shifts w' ∧ w'.store.Tidy [] := by
  simp only [prepareLiveRebind] at hr
  split_ifs at hr
  · cases hr
    exact ⟨.refl w, ht⟩
  split at hr
  · next hst =>
      split_ifs at hr
      · exact reserve_spec ht (reg_primary hst) hr
      · cases hr
        exact ⟨.refl w, ht⟩
  · next hst =>
      split_ifs at hr
      · exact reserve_spec ht (reg_duplicate hst) hr
      · cases hr
        exact ⟨.refl w, ht⟩
  · cases hr
    exact ⟨.refl w, ht⟩

/-! ### Giving a destination back -/

theorem giveUp_spec (hst : w.store.state plan.dst = .mutable) :
    w.Shifts (w.giveUp plan) ∧ (w.giveUp plan).store.Tidy [] := by
  obtain ⟨hout, hreg, howner, -⟩ := ht.guard_out (.inl hst)
  exact ⟨.cleared resetSlot_cleared howner hreg fun p hp => .inl (mem_of_mem_erase hp),
    (hout.setFlag _ _).resetSlot⟩

end

/-! ### Moving a block -/

/-- The block at the source is now at the destination. -/
structure Relocated (s : BlockStore ι) (plan : RebindPlan) (s' : BlockStore ι) : Prop where
  tidy : s'.Tidy []
  dst : s'.state plan.dst = s.state plan.src
  src : s'.state plan.src = .reset
  other : ∀ j, j ≠ plan.src → j ≠ plan.dst → s'.state j = s.state j
  count : s'.slotCount = s.slotCount

theorem relocated_finishMove {s s' : BlockStore ι} (ht : s'.Tidy [plan.src])
    (hc : s'.config = s.config) (hne : plan.dst ≠ plan.src)
    (hdst : s'.state plan.dst = s.state plan.src)
    (hother : ∀ j, j ≠ plan.dst → s'.state j = s.state j) :
    Relocated s plan (finishMove s' plan) := by
  refine ⟨((ht.setFlag _ _).setFlag _ _).resetSlot, ?_, ?_, fun j hj hj' => ?_,
    slotCount_congr (pushResetId_config.trans hc)⟩
  · rw [finishMove_state, if_neg hne, hdst]
  · rw [finishMove_state, if_pos rfl]
  · rw [finishMove_state, if_neg hj, hother j hj']

theorem Relocated.keeps {s s' : BlockStore ι} (hm : Relocated s plan s')
    (hreg : s.reg plan.dst = none) {id : BlockId}
    {r : Bool × SequenceHash × BlockRegistrationHandle} (hr : s.reg id = some r) :
    s'.reg id = some r ∨ ∃ dst, s.reg dst = none ∧ s'.reg dst = some r := by
  by_cases hsrc : id = plan.src
  · refine .inr ⟨plan.dst, hreg, ?_⟩
    rw [BlockStore.reg, hm.dst, ← hsrc]
    exact hr
  have hdst : id ≠ plan.dst := by
    intro hc
    rw [hc, hreg] at hr
    cases hr
  exact .inl ((congrArg SlotState.reg (hm.other id hsrc hdst)).trans hr)

omit [InactiveIndex ι] [LawfulIndex ι] in
theorem inactiveIdentity_eq (hok : w.Ok) (hplan : plan ∈ w.plans)
    (hid : w.inactiveIdentity plan = true) :
    w.store.state plan.src = .inactive plan.seqHash plan.handle := by
  unfold inactiveIdentity at hid
  split at hid
  · next h handle hst =>
      simp only [Bool.and_eq_true, decide_eq_true_eq] at hid
      obtain ⟨⟨rfl, -⟩, hid⟩ := hid
      -- a handle is its number, and the hash it was made for
      have hname : handle.seqHash = plan.handle.seqHash :=
        (hok.names (reg_inactive hst)).trans (hok.plans plan hplan).symm
      have heq : handle = plan.handle := by
        cases handle
        cases hph : plan.handle
        simp_all
      rw [hst, heq]
  · cases hid

variable {r : RebindOutcome}

theorem moveInactive_spec (hok : w.Ok) (ht : w.store.Tidy []) (hplan : plan ∈ w.plans)
    (hdst : w.store.state plan.dst = .mutable) (hid : w.inactiveIdentity plan = true)
    (hr : w.moveInactive plan = some (r, w')) : w.Shifts w' ∧ w'.store.Tidy [] := by
  have hst := inactiveIdentity_eq hok hplan hid
  obtain ⟨hout, hreg, howner, hlt⟩ := ht.guard_out (.inl hdst)
  have hne : plan.src ≠ plan.dst := by
    intro hc
    rw [hc, hdst] at hst
    cases hst
  have hmem : (plan.seqHash, plan.src) ∈ w.store.entries :=
    ht.mem_entries.mpr ⟨not_mem_nil, plan.handle, hst⟩
  obtain ⟨ix, hrebind, hwf, hentries, hfits, -⟩ := rebind_spec ht.index hmem
    fun g => hout.not_listed (.inactive g)
  simp only [moveInactive] at hr
  rw [hrebind] at hr
  obtain ⟨s, hs, hr⟩ := map_eq_some_iff.mp hr
  cases hr
  have hs := setInactiveTenureState_spec hs
  have hmoved : Relocated w.store plan (finishMove s plan) := by
    refine relocated_finishMove ?_ ?_ (Ne.symm hne) ?_ fun j hj => ?_
    · rw [hs]
      exact (hout.setSlot mem_cons_self _).replaceInactive state_setSlot_self hmem hwf hentries
        hfits
    · rw [hs]
      rfl
    · rw [hs, hst]
      exact state_setSlot_self
    · rw [hs, state_setSlot, if_neg hj]
      rfl
  have howned : w.store.SameOwned (finishMove s plan) := by
    intro j hj
    by_cases hjs : j = plan.src
    · subst hjs
      rw [owner_inactive hst, BlockStore.owner, hmoved.src] at hj
      simp [SlotState.owner] at hj
    by_cases hjd : j = plan.dst
    · subst hjd
      rw [howner, BlockStore.owner, hmoved.dst, hst] at hj
      simp [SlotState.owner] at hj
    · exact hmoved.other j hjs hjd
  have hshift : Move w { w with store := finishMove s plan } := by
    refine .shift hne hreg hlt howned (congrArg SlotState.reg hmoved.dst) ?_
      (fun j hj hj' => congrArg SlotState.reg (hmoved.other j hj hj')) hmoved.count
    rw [BlockStore.reg, hmoved.src]
    rfl
  have haside : Move { w with store := finishMove s plan }
      { w with store := finishMove s plan, plans := w.plans.erase plan } :=
    .aside fun p hp => .inl (mem_of_mem_erase hp)
  exact ⟨⟨.tail (.single hshift) haside, fun hr => hmoved.keeps hreg hr⟩, hmoved.tidy⟩

omit [InactiveIndex ι] [LawfulIndex ι] in
theorem activeSource_eq (hs : w.activeSource plan = some i) :
    ∃ handle, w.store.state plan.src = .primary plan.seqHash handle i ∨
      w.store.state plan.src = .duplicate plan.seqHash handle i := by
  simp only [activeSource] at hs
  split at hs
  · next h handle j hst =>
      split_ifs at hs with hsame
      cases hs
      exact ⟨handle, .inl (hsame.1 ▸ hst)⟩
  · next h handle j hst =>
      split_ifs at hs with hsame
      cases hs
      exact ⟨handle, .inr (hsame.1 ▸ hst)⟩
  · cases hs

/-- The map of active hashes follows a primary. -/
theorem moveLive_relocated (ht : w.store.Tidy []) (hdst : w.store.state plan.dst = .mutable)
    (hs : w.activeSource plan = some i) : Relocated w.store plan (w.moveLive plan i).store := by
  obtain ⟨handle, hst⟩ := activeSource_eq hs
  obtain ⟨hout, -, -, -⟩ := ht.guard_out (.inl hdst)
  have hne : plan.dst ≠ plan.src := by
    intro hc
    rw [← hc, hdst] at hst
    rcases hst with hst | hst <;> cases hst
  have hself : (w.store.setState plan.dst (w.store.state plan.src)).state plan.dst =
    w.store.state plan.src := state_setState_self
  -- the slots are the same whether the map is written or not
  have hslots : ∀ {s : BlockStore ι}, s.Tidy [plan.src] → s.config = w.store.config →
      s.state = (w.store.setState plan.dst (w.store.state plan.src)).state →
      Relocated w.store plan (finishMove s plan) := fun hs hc hstate =>
    relocated_finishMove hs hc hne (hstate ▸ hself) fun j hj => hstate ▸ state_setState_ne hj
  simp only [moveLive]
  rcases hst with hst | hst
  · have hact : w.store.activeByHash plan.seqHash = some plan.src :=
      ht.active_iff.mpr ⟨not_mem_nil, handle, i, hst⟩
    rw [hst] at hself hslots ⊢
    exact hslots ((hout.setState mem_cons_self _).replaceActive hself hact) rfl rfl
  · rw [hst] at hself hslots ⊢
    have hmid : (w.store.setState plan.dst (.duplicate plan.seqHash handle i)).Tidy [] := by
      refine (hout.setState mem_cons_self _).putPlain ?_
      simp [BlockStore.place]
    refine hslots (hmid.takePlain not_mem_nil ?_ ?_) rfl rfl
    · exact ht.lt_capacity (by simp [hst])
    · refine (place_setSlot_ne (Ne.symm hne)).trans ?_
      simp [BlockStore.place, hst]

theorem moveLive_spec (ht : w.store.Tidy []) (hdst : w.store.state plan.dst = .mutable)
    (hs : w.activeSource plan = some i) (hpos : 0 < w.strong i) :
    w.Shifts (w.moveLive plan i) ∧ (w.moveLive plan i).store.Tidy [] := by
  have hmoved := moveLive_relocated ht hdst hs
  obtain ⟨-, hreg, howner, hlt⟩ := ht.guard_out (.inl hdst)
  obtain ⟨handle, hst⟩ := activeSource_eq hs
  have hsrc : w.store.owner plan.src = some i := hst.elim owner_primary owner_duplicate
  have hne : plan.src ≠ plan.dst := by
    intro hc
    rw [hc, howner] at hsrc
    cases hsrc
  have hadd : Move w (w.addGuard i) := .add hpos
  have hmove : Move (w.addGuard i)
      { (w.addGuard i).setBlockId i plan.dst with store := (w.moveLive plan i).store } :=
    .move hne hsrc howner hreg hlt hmoved.dst hmoved.src hmoved.other hmoved.count
  have haside : Move
      { (w.addGuard i).setBlockId i plan.dst with store := (w.moveLive plan i).store }
      (w.moveLive plan i) := .aside fun p hp => .inl (mem_of_mem_erase hp)
  exact ⟨⟨.tail (.tail (.single hadd) hmove) haside, fun hr => hmoved.keeps hreg hr⟩, hmoved.tidy⟩

theorem commit_spec (hok : w.Ok) (ht : w.store.Tidy []) (hplan : plan ∈ w.plans)
    (hr : w.commit plan = some (r, w')) : w.Shifts w' ∧ w'.store.Tidy [] := by
  unfold commit at hr
  split_ifs at hr with hdst hfence hid hbusy
  all_goals have hdst : w.store.state plan.dst = .mutable := by simpa using hdst
  · cases hr
    exact giveUp_spec ht hdst
  · exact moveInactive_spec hok ht hplan hdst hid hr
  · cases hr
    exact ⟨.refl w, ht⟩
  · cases hr
    exact giveUp_spec ht hdst

/-- **A commit moves the block or leaves it alone.** -/
theorem commitLive_spec (hok : w.Ok) (ht : w.store.Tidy []) (hplan : plan ∈ w.plans)
    (hr : w.commitLive plan = some (r, w')) : w.Shifts w' ∧ w'.store.Tidy [] := by
  unfold commitLive at hr
  split_ifs at hr with hdst hfence hid
  all_goals have hdst : w.store.state plan.dst = .mutable := by simpa using hdst
  · cases hr
    exact giveUp_spec ht hdst
  · exact moveInactive_spec hok ht hplan hdst hid hr
  · split at hr
    · cases hr
      exact giveUp_spec ht hdst
    next i hsource =>
      split_ifs at hr with hpos
      · cases hr
        exact moveLive_spec ht hdst hsource hpos
      · cases hr
        exact ⟨.refl w, ht⟩

end World

end Kvbm
