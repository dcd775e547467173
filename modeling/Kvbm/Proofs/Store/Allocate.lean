/-
Allocations and evictions keep the store in order.

For each method that allocates: which pairs it evicted, that it reported them and no
others, and that the store is tidy after it.
-/
import Kvbm.Proofs.Store.Clear

namespace Kvbm.BlockStore

open Lib LawfulIndex List Option

variable {ι : Type} [InactiveIndex ι] [LawfulIndex ι]
variable {s s' : BlockStore ι} {out : List BlockId}

/-! ### What is reported -/

/-- The handles of the slots of the pairs. -/
def Reported (s : BlockStore ι) (pairs : List Entry) (handles : List BlockRegistrationHandle) :
    Prop :=
  pairs.map (fun e => s.takeInactiveHandle e.2) = handles.map some

/-- The hashes of the pairs and the handles of their slots have been added to the report. -/
def Reports (s : BlockStore ι) (ev : Eviction) (pairs : List Entry) (ev' : Eviction) : Prop :=
  ∃ handles, s.Reported pairs handles ∧ ev'.evicted = ev.evicted ++ pairs.map Prod.fst ∧
    ev'.handles = ev.handles ++ handles

namespace Reports

omit [InactiveIndex ι] [LawfulIndex ι]

variable {ev ev' ev'' : Eviction} {pairs pairs' : List Entry}

theorem refl (ev : Eviction) : s.Reports ev [] ev := ⟨[], rfl, by simp, by simp⟩

/-- Slots that have not changed have the same handles. -/
theorem trans (hr : s.Reports ev pairs ev') (hr' : s'.Reports ev' pairs' ev'')
    (hst : ∀ e ∈ pairs', s'.state e.2 = s.state e.2) : s.Reports ev (pairs ++ pairs') ev'' := by
  obtain ⟨handles, hrep, hev, hhandles⟩ := hr
  obtain ⟨handles', hrep', hev', hhandles'⟩ := hr'
  have hsame : s.Reported pairs' handles' := by
    refine .trans (map_congr_left fun e he => ?_) hrep'
    unfold takeInactiveHandle
    rw [hst e he]
  refine ⟨handles ++ handles', ?_, ?_, ?_⟩
  · exact (map_append ..).trans ((congrArg₂ _ hrep hsame).trans (map_append ..).symm)
  · rw [hev', hev, map_append, append_assoc]
  · rw [hhandles', hhandles, append_assoc]

end Reports

/-! ### The reset pool -/

theorem allocateResetBlocksLocked_spec {n : Nat} :
    ∀ {s s' : BlockStore ι} {ids : List BlockId}, s.Tidy [] →
      allocateResetBlocksLocked n s = some (ids, s') → s.Evicted [] s' := by
  induction n with
  | zero =>
    intro s s' ids ht hr
    cases hr
    exact .refl ht
  | succ n ih =>
    intro s s' ids ht hr
    unfold allocateResetBlocksLocked at hr
    obtain ⟨⟨id, s1⟩, hpop, hr⟩ := bind_eq_some_iff.mp hr
    obtain ⟨s2, hmut, hr⟩ := bind_eq_some_iff.mp hr
    obtain ⟨⟨rest, s3⟩, hrest, hr⟩ := bind_eq_some_iff.mp hr
    cases hr
    obtain ⟨hfree, rfl⟩ := popFree_spec hpop
    have hst := (ht.mem_free.mp hfree).2.1
    have hpopped : s.Cleared [] { s with free := s.free.erase id } :=
      (Cleared.refl s).of_slots rfl rfl rfl rfl rfl
    have hcleared := hpopped.trans (allocateMutableSlot_cleared hmut)
    have hone : s.Evicted [] s2 := by
      refine ⟨(ht.takeFree hfree).allocateMutableSlot hmut,
        hcleared.drop_reset (by simp) (by simpa using hst), nodup_nil, by simp, ?_⟩
      exact (entries_congr (allocateMutableSlot_inactive hmut)).trans (by simp [entries])
    exact hone.trans (ih hone.tidy hrest)

variable {n : Nat}

theorem allocateResetBlocksAtomic_spec {r : Option (List BlockId)} (ht : s.Tidy [])
    (hr : s.allocateResetBlocksAtomic n = some (r, s')) : s.Evicted [] s' := by
  unfold allocateResetBlocksAtomic at hr
  split at hr
  · cases hr
    exact .refl ht
  split at hr
  · cases hr
    exact .refl ht
  obtain ⟨⟨ids, s1⟩, hids, hr⟩ := map_eq_some_iff.mp hr
  cases hr
  exact allocateResetBlocksLocked_spec ht hids

/-! ### Slots taken from the index -/

/-- The pairs have been taken from the index and their slots have not been changed yet. -/
structure Loose (s : BlockStore ι) (l : List Entry) (out : List BlockId) : Prop where
  tidy : s.Tidy (l.map Prod.snd ++ out)
  inactive : ∀ e ∈ l, ∃ handle, s.state e.2 = .inactive e.1 handle

namespace Loose

variable {e : Entry} {l : List Entry}

variable (hl : s.Loose (e :: l) out)

include hl

theorem head_not_mem : e.2 ∉ l.map Prod.snd ++ out := (nodup_cons.mp hl.tidy.filed.nodup).1

/-- The slots of the others are not the first one. -/
theorem state_eq (hst : ∀ id, id ≠ e.2 → s.state id ≠ .reset → s'.state id = s.state id) :
    ∀ e' ∈ l, s'.state e'.2 = s.state e'.2 := by
  intro e' he'
  obtain ⟨handle, hs⟩ := hl.inactive e' (mem_cons_of_mem _ he')
  refine hst e'.2 (fun hc => hl.head_not_mem ?_) (by simp [hs])
  exact mem_append_left _ (hc ▸ mem_map_of_mem he')

/-- Clearing the first slot leaves the others loose. -/
theorem tail (ht : s'.Tidy (l.map Prod.snd ++ out))
    (hst : ∀ id, id ≠ e.2 → s.state id ≠ .reset → s'.state id = s.state id) : s'.Loose l out := by
  refine ⟨ht, fun e' he' => ?_⟩
  rw [hl.state_eq hst e' he']
  exact hl.inactive e' (mem_cons_of_mem _ he')

end Loose

variable {l : List Entry}

theorem loose_of_taken (ht : s.Tidy out) {ix : ι}
    (hk : view.Taken s.inactive l ix) : { s with inactive := ix }.Loose l out :=
  ⟨ht.takeIndex hk, fun e he => (ht.mem_entries.mp (hk.mem e he)).2⟩

variable {ev ev' : Eviction} {e : Entry}

theorem evict_spec
    (hl : s.Loose (e :: l) out) (hr : s.evict s.effectiveCeiling e ev = some (ev', s')) :
    s'.Loose l out ∧ (∀ e' ∈ l, s'.state e'.2 = s.state e'.2) ∧ s.Cleared [e.2] s' ∧
      s'.inactive = s.inactive ∧ s.Reports ev [e] ev' := by
  unfold evict at hr
  obtain ⟨handle, hh, hr⟩ := bind_eq_some_iff.mp hr
  have hrep : s.Reported [e] [handle] := congrArg (fun x => [x]) hh
  have hkeep : ∀ {s1 : BlockStore ι}, s.Cleared [e.2] s1 →
      ∀ id, id ≠ e.2 → s.state id ≠ .reset → s1.state id = s.state id :=
    fun hc id hid hst => hc.kept_state (by simpa using hid) hst
  split at hr
  · obtain ⟨s1, hmut, hr⟩ := bind_eq_some_iff.mp hr
    cases hr
    have hc := allocateMutableSlot_cleared hmut
    exact ⟨hl.tail (hl.tidy.allocateMutableSlot hmut) (hkeep hc), hl.state_eq (hkeep hc), hc,
      allocateMutableSlot_inactive hmut, [handle], hrep, rfl, rfl⟩
  · cases hr
    have hc : s.Cleared [e.2] ((s.setFlag e.2 s.defaultResetOnRelease).resetSlot e.2) :=
      resetSlot_cleared
    exact ⟨hl.tail (Tidy.resetSlot (hl.tidy.setFlag _ _)) (hkeep hc), hl.state_eq (hkeep hc), hc,
      pushResetId_inactive, [handle], hrep, rfl, rfl⟩

/-! ### Whole evictions -/

/-- The method took `s` to `s'`, and to what it reported it added exactly what it evicted. -/
def Evicts (s : BlockStore ι) (ev ev' : Eviction) (s' : BlockStore ι) : Prop :=
  ∃ pairs, s.Evicted pairs s' ∧ s.Reports ev pairs ev'

namespace Evicts

variable {s'' : BlockStore ι} {ev ev' ev'' : Eviction}

theorem refl (ht : s.Tidy []) (ev : Eviction) : s.Evicts ev ev s := ⟨[], .refl ht, .refl ev⟩

theorem tidy (he : s.Evicts ev ev' s') : s'.Tidy [] := by
  obtain ⟨pairs, he, -⟩ := he
  exact he.tidy

theorem config (he : s.Evicts ev ev' s') : s'.config = s.config := by
  obtain ⟨pairs, he, -⟩ := he
  exact he.cleared.config

theorem trans (ht : s.Tidy []) (he : s.Evicts ev ev' s') (he' : s'.Evicts ev' ev'' s'') :
    s.Evicts ev ev'' s'' := by
  obtain ⟨pairs, he, hrep⟩ := he
  obtain ⟨pairs', he', hrep'⟩ := he'
  exact ⟨pairs ++ pairs', he.trans he', hrep.trans hrep' fun e hp => he.state_eq ht (he'.mem e hp)⟩

end Evicts

/-! ### Exact reclaim -/

/-- One victim goes from the index to the reset pool. -/
theorem reclaim_evicts (ht : s.Tidy []) {h : SequenceHash} {id : BlockId} {ix : ι}
    {handle : BlockRegistrationHandle} (ev : Eviction) (hmem : (h, id) ∈ s.entries)
    (hk : view.Taken s.inactive [(h, id)] ix) (hh : s.takeInactiveHandle id = some handle) :
    s.Evicts ev ⟨ev.blocks, ev.evicted ++ [h], ev.handles ++ [handle]⟩
      ((({ s with inactive := ix }.setState id .reset).setFlag id
        s.defaultResetOnRelease).pushResetId id) := by
  have hc : s.Cleared [id] ((s.setState id .reset).setFlag id s.defaultResetOnRelease) :=
    .write (.inl rfl)
  refine ⟨[(h, id)], ⟨?_, ?_, by simp, by simpa using hmem, ?_⟩,
    [handle], congrArg (fun x => [x]) hh, rfl, rfl⟩
  · exact (Tidy.setFlag ((ht.takeIndex hk).setState mem_cons_self _) _ _).pushResetId
      state_setState_self
  · exact pushResetId_cleared (hc.of_slots rfl rfl rfl rfl rfl)
  · exact (entries_congr pushResetId_inactive).trans hk.rest

theorem reclaimVictims_spec {victims : List ExactInactiveVictim} :
    ∀ {s s' : BlockStore ι} {ev ev' : Eviction}, s.Tidy [] →
      reclaimVictims victims s ev = some (ev', s') → s.Evicts ev ev' s' := by
  induction victims with
  | nil =>
    intro s s' ev ev' ht hr
    cases hr
    exact .refl ht ev
  | cons v victims ih =>
    intro s s' ev ev' ht hr
    unfold reclaimVictims at hr
    by_cases hmem : (v.seqHash, v.blockId) ∈ s.entries
    · obtain ⟨ix, hix, hk⟩ := take_spec ht.index hmem
      simp only [hix, bind_some, if_true] at hr
      obtain ⟨handle, hh, hr⟩ := bind_eq_some_iff.mp hr
      have hone := reclaim_evicts ht ev hmem hk hh
      exact hone.trans ht (ih hone.tidy hr)
    · rw [take_absent ht.index hmem] at hr
      cases hr

theorem allocateExactReclaim_spec {count expected : Nat} {victims : List ExactInactiveVictim}
    {r : Except ExactAllocationError Eviction} (ht : s.Tidy [])
    (hr : s.allocateExactReclaim count expected victims = some (r, s')) :
    (∃ e, r = .error e ∧ s' = s) ∨ ∃ ev, r = .ok ev ∧ s.Evicts ⟨[], [], []⟩ ev s' := by
  unfold allocateExactReclaim at hr
  iterate 5
    split at hr
    · cases hr
      exact .inl ⟨_, rfl, rfl⟩
  obtain ⟨pre, -, hr⟩ := bind_eq_some_iff.mp hr
  cases pre with
  | error =>
    cases hr
    exact .inl ⟨_, rfl, rfl⟩
  | ok =>
    obtain ⟨⟨ev, s1⟩, hrec, hr⟩ := bind_eq_some_iff.mp hr
    obtain ⟨⟨blocks, s2⟩, hblocks, hr⟩ := map_eq_some_iff.mp hr
    cases hr
    have hone := reclaimVictims_spec ht hrec
    refine .inr ⟨_, rfl, hone.trans ht ?_⟩
    exact ⟨[], allocateResetBlocksLocked_spec hone.tidy hblocks, [], rfl, by simp, by simp⟩

/-! ### Allocation from both pools -/

theorem popFreeMany_spec :
    ∀ {s s' : BlockStore ι} {ids out : List BlockId}, s.Tidy out →
      popFreeMany n s = some (ids, s') →
      s'.Tidy (ids ++ out) ∧ s' = { s with free := s'.free } ∧ ∀ id ∈ ids, s.state id = .reset := by
  induction n with
  | zero =>
    intro s s' ids out ht hr
    cases hr
    exact ⟨ht, rfl, by simp⟩
  | succ n ih =>
    intro s s' ids out ht hr
    unfold popFreeMany at hr
    obtain ⟨⟨id, s1⟩, hpop, hr⟩ := bind_eq_some_iff.mp hr
    obtain ⟨⟨rest, s2⟩, hrest, hr⟩ := bind_eq_some_iff.mp hr
    cases hr
    obtain ⟨hfree, rfl⟩ := popFree_spec hpop
    obtain ⟨ht', heq, hreset⟩ := ih (ht.takeFree hfree) hrest
    refine ⟨ht'.perm perm_middle, heq, ?_⟩
    intro j hj
    rcases mem_cons.mp hj with rfl | hj
    · exact (ht.mem_free.mp hfree).2.1
    · exact hreset j hj

theorem allocateMutableSlots_spec (ids : List BlockId) :
    ∀ {s s' : BlockStore ι}, s.Tidy (ids ++ out) → allocateMutableSlots ids s = some s' →
      s'.Tidy out ∧ s.Cleared ids s' ∧ s'.inactive = s.inactive := by
  induction ids with
  | nil =>
    intro s s' ht hr
    cases hr
    exact ⟨ht, .refl s, rfl⟩
  | cons id ids ih =>
    intro s s' ht hr
    obtain ⟨s1, hmut, hr⟩ := bind_eq_some_iff.mp hr
    obtain ⟨ht', hc, hix⟩ := ih (ht.allocateMutableSlot hmut) hr
    exact ⟨ht', (allocateMutableSlot_cleared hmut).trans hc,
      hix.trans (allocateMutableSlot_inactive hmut)⟩

/-- **The loop ends**: each turn takes at least one entry from the index. -/
theorem takeVictims_spec (ceiling needed : Nat) {ix0 : ι} (fuel : Nat) :
    ∀ {ix : ι} {taken : List Entry} (usable : List Entry), view.Taken ix0 taken ix →
      (view.entries ix).card < fuel →
      ∃ taken' usable' ix', takeVictims ceiling needed fuel ix taken usable =
        some ((taken', usable'), ix') ∧ view.Taken ix0 taken' ix' := by
  induction fuel with
  | zero => exact fun _ _ hf => absurd hf (Nat.not_lt_zero _)
  | succ fuel ih =>
    intro ix taken usable hk hf
    unfold takeVictims
    split
    · next hneed =>
        obtain ⟨l, ix1, hl, hk1, hlen⟩ := allocate_spec (needed - usable.length) hk.wf
        simp only [hl, bind_some]
        by_cases hempty : l.isEmpty
        · obtain rfl := isEmpty_iff.mp hempty
          exact ⟨taken, usable, ix1, by simp, by simpa using hk.trans hk1⟩
        rw [if_neg hempty]
        refine ih _ (hk.trans hk1) ?_
        have hcard := hk1.card
        have hpos : l.length ≠ 0 := fun h => hempty (isEmpty_iff.mpr (length_eq_zero_iff.mp h))
        omega
    · exact ⟨taken, usable, ix, rfl, hk⟩

/-- The hashes of loose pairs are nowhere else. -/
structure Fresh (s : BlockStore ι) (l : List Entry) : Prop where
  nodup : (l.map Prod.fst).Nodup
  active : ∀ e ∈ l, s.activeByHash e.1 = none
  entries : ∀ e ∈ l, ∀ b, (e.1, b) ∉ s.entries

theorem fresh_of_taken (ht : s.Tidy out) {ix : ι}
    (hk : view.Taken s.inactive l ix) : { s with inactive := ix }.Fresh l := by
  have huniq : ∀ {h : SequenceHash} {a b : BlockId}, (h, a) ∈ s.entries → (h, b) ∈ s.entries →
      a = b := LawfulIndex.hash_unique ht.index
  refine ⟨?_, fun e he => ?_, fun e he b hb => ?_⟩
  · refine hk.nodup.map_on fun e he e' he' hfst => Prod.ext hfst ?_
    exact huniq (hk.mem e he) (hfst ▸ hk.mem e' he')
  · show s.activeByHash e.1 = none
    cases hact : s.activeByHash e.1 with
    | none => rfl
    | some => exact absurd (hk.mem e he) (ht.exclusive hact)
  · obtain ⟨hb, hnot⟩ := hk.mem_rest.mp hb
    rw [huniq hb (hk.mem e he)] at hnot
    exact hnot he

theorem Loose.insert_head {ix : ι} (hl : s.Loose (e :: l) out)
    (hf : s.Fresh (e :: l)) (hins : InactiveIndex.insert s.inactive e.1 e.2 = some ix) :
    { s with inactive := ix }.Loose l out ∧ { s with inactive := ix }.Fresh l ∧
      view.entries ix = insert e s.entries := by
  obtain ⟨handle, hst⟩ := hl.inactive e mem_cons_self
  have hent := hf.entries e mem_cons_self
  obtain ⟨-, hentries, -⟩ := hl.tidy.insert_entries hent hins
  have htidy := hl.tidy.putInactive hst (hf.active e mem_cons_self) hent hins
  obtain ⟨hnew, hnodup⟩ := nodup_cons.mp hf.nodup
  refine ⟨⟨htidy, fun e' he' => hl.inactive e' (mem_cons_of_mem _ he')⟩, ⟨hnodup,
    fun e' he' => hf.active e' (mem_cons_of_mem _ he'), fun e' he' b hb => ?_⟩, hentries⟩
  have hb : (e'.1, b) ∈ view.entries ix := hb
  rw [hentries, Finset.mem_insert] at hb
  rcases hb with hb | hb
  · exact hnew (mem_map.mpr ⟨e', he', (Prod.mk.inj hb).1⟩)
  · exact hf.entries e' (mem_cons_of_mem _ he') b hb

theorem insertAll_spec :
    ∀ {s : BlockStore ι} {ix : ι}, s.Loose l out → s.Fresh l → insertAll l s.inactive = some ix →
      { s with inactive := ix }.Tidy out ∧ view.entries ix = s.entries ∪ l.toFinset := by
  induction l with
  | nil =>
    intro s ix hl hf hr
    cases hr
    exact ⟨hl.tidy, by simp [entries]⟩
  | cons e l ih =>
    intro s ix hl hf hr
    obtain ⟨ix1, hins, hr⟩ := bind_eq_some_iff.mp hr
    obtain ⟨hl1, hf1, hentries⟩ := hl.insert_head hf hins
    obtain ⟨ht', hentries'⟩ := ih hl1 hf1 hr
    have hentries' : view.entries ix = view.entries ix1 ∪ l.toFinset := hentries'
    refine ⟨ht', ?_⟩
    rw [hentries', hentries]
    simp [Finset.insert_union]

theorem Fresh.congr (hf : s.Fresh l) (ha : s'.activeByHash = s.activeByHash)
    (hix : s'.inactive = s.inactive) : s'.Fresh l := by
  refine ⟨hf.nodup, fun e he => ?_, fun e he b hb => ?_⟩
  · rw [ha]
    exact hf.active e he
  · rw [entries_congr hix] at hb
    exact hf.entries e he b hb

theorem Fresh.tail (hf : s.Fresh (e :: l)) : s.Fresh l :=
  ⟨(nodup_cons.mp hf.nodup).2, fun e' he' => hf.active e' (mem_cons_of_mem _ he'),
    fun e' he' => hf.entries e' (mem_cons_of_mem _ he')⟩

/-- Of the loose pairs some are evicted, and the others are back in the index. -/
theorem commitVictims_spec {used : List BlockId} :
    ∀ {s s' : BlockStore ι} {ev ev' : Eviction}, s.Loose l [] → s.Fresh l →
      commitVictims s.effectiveCeiling used l s ev = some (ev', s') →
      ∃ pairs, pairs.Sublist l ∧ s'.Tidy [] ∧ s.Cleared (pairs.map Prod.snd) s' ∧
        s'.entries = s.entries ∪ (l.toFinset \ pairs.toFinset) ∧ s.Reports ev pairs ev' := by
  induction l with
  | nil =>
    intro s s' ev ev' hl hf hr
    cases hr
    exact ⟨[], .slnil, hl.tidy, .refl s, by simp, .refl ev⟩
  | cons e l ih =>
    intro s s' ev ev' hl hf hr
    have hel : e ∉ l := fun h =>
      hl.head_not_mem (mem_append_left _ (mem_map_of_mem h))
    unfold commitVictims at hr
    split at hr
    · obtain ⟨ix, hins, hr⟩ := bind_eq_some_iff.mp hr
      obtain ⟨hl1, hf1, hentries⟩ := hl.insert_head hf hins
      obtain ⟨pairs, hsub, ht', hc, hent, hrep⟩ := ih hl1 hf1 hr
      refine ⟨pairs, hsub.cons e, ht', ?_, ?_, hrep⟩
      · exact ⟨hc.config, hc.active, hc.held, hc.kept, hc.reset, hc.gone⟩
      · have hent : s'.entries = view.entries ix ∪ (l.toFinset \ pairs.toFinset) := hent
        have hep : e ∉ pairs.toFinset := fun h => hel (hsub.subset (mem_toFinset.mp h))
        rw [hent, hentries, toFinset_cons, Finset.insert_sdiff_of_notMem _ hep,
          Finset.insert_union, Finset.union_insert]
    · obtain ⟨⟨ev1, s1⟩, hone, hr⟩ := bind_eq_some_iff.mp hr
      obtain ⟨hl1, hsame, hc1, hix, hrep1⟩ := evict_spec hl hone
      rw [← effectiveCeiling_congr hc1.config] at hr
      obtain ⟨pairs, hsub, ht', hc, hent, hrep⟩ := ih hl1 (hf.tail.congr hc1.active hix) hr
      refine ⟨e :: pairs, hsub.cons_cons e, ht', hc1.trans hc, ?_,
        hrep1.trans hrep fun e' he' => hsame e' (hsub.subset he')⟩
      rw [hent, entries_congr hix, toFinset_cons, toFinset_cons, Finset.insert_sdiff_insert,
        Finset.sdiff_insert_of_notMem (by simpa using hel)]

theorem foldl_pushResetId_spec {ids : List BlockId} :
    ∀ {s : BlockStore ι}, s.Tidy (ids ++ out) → (∀ id ∈ ids, s.state id = .reset) →
      (ids.foldl BlockStore.pushResetId s).Tidy out ∧
        s.Cleared [] (ids.foldl BlockStore.pushResetId s) ∧
        (ids.foldl BlockStore.pushResetId s).inactive = s.inactive := by
  induction ids with
  | nil => exact fun ht _ => ⟨ht, .refl _, rfl⟩
  | cons id ids ih =>
    intro s ht hst
    have hc : s.Cleared [] (s.pushResetId id) := pushResetId_cleared (.refl s)
    obtain ⟨ht', hc', hix⟩ := ih (ht.pushResetId (hst id mem_cons_self)) fun j hj =>
      pushResetId_state.trans (hst j (mem_cons_of_mem _ hj))
    exact ⟨ht', hc.trans hc', hix.trans pushResetId_inactive⟩

section Both

variable {n : Nat} {ids : List BlockId} {s1 : BlockStore ι} {taken : List Entry} {ix : ι}

/-- Blocks popped from the reset pool change no slot. -/
theorem popFreeMany_cleared (ht : s.Tidy []) (hpop : popFreeMany n s = some (ids, s1)) :
    s1.Tidy ids ∧ s.Cleared [] s1 ∧ s1.state = s.state ∧ s1.inactive = s.inactive ∧
      ∀ id ∈ ids, s.state id = .reset := by
  obtain ⟨ht1, heq, hreset⟩ := popFreeMany_spec ht hpop
  rw [append_nil] at ht1
  refine ⟨ht1, ?_, ?_, ?_, hreset⟩
  · rw [heq]
    exact (Cleared.refl s).of_slots rfl rfl rfl rfl rfl
  · rw [heq]
    rfl
  · rw [heq]

/-- When there is not enough, everything goes back. -/
theorem allocateAtomic_rollback {ix' : ι} (ht : s.Tidy []) (hpop : popFreeMany n s = some (ids, s1))
    (hk : view.Taken s1.inactive taken ix) (hins : insertAll taken ix = some ix') :
    s.Evicted [] (ids.reverse.foldl BlockStore.pushResetId { s1 with inactive := ix' }) := by
  obtain ⟨ht1, hc1, hstate1, hix1, hreset⟩ := popFreeMany_cleared ht hpop
  obtain ⟨ht3, hentries⟩ := insertAll_spec (loose_of_taken ht1 hk) (fresh_of_taken ht1 hk) hins
  have hperm : ids.Perm (ids.reverse ++ []) := by simp
  obtain ⟨ht4, hc4, hix4⟩ := foldl_pushResetId_spec (ht3.perm hperm) fun id hid => by
    show s1.state id = .reset
    rw [hstate1]
    exact hreset id (mem_reverse.mp hid)
  have hc3 : s.Cleared [] { s1 with inactive := ix' } := hc1.of_slots rfl rfl rfl rfl rfl
  refine ⟨ht4, hc3.trans hc4, nodup_nil, by simp, ?_⟩
  have hentries : view.entries ix' = view.entries ix ∪ taken.toFinset := hentries
  have hsub : taken.toFinset ⊆ view.entries s1.inactive := fun e he =>
    hk.mem e (mem_toFinset.mp he)
  calc _ = view.entries ix' := entries_congr hix4
    _ = view.entries s1.inactive := by
      rw [hentries, hk.rest, Finset.sdiff_union_of_subset hsub]
    _ = _ := by simp [hix1, entries]

/-- When there is enough, the slots are handed out. -/
theorem allocateAtomic_commit {s3 : BlockStore ι} {used : List BlockId} {ev ev' : Eviction}
    (ht : s.Tidy []) (hpop : popFreeMany n s = some (ids, s1))
    (hk : view.Taken s1.inactive taken ix)
    (hmut : allocateMutableSlots ids { s1 with inactive := ix } = some s3)
    (hcommit : commitVictims s.effectiveCeiling used taken s3 ev = some (ev', s')) :
    s.Evicts ev ev' s' := by
  obtain ⟨ht1, hc1, hstate1, hix1, hreset⟩ := popFreeMany_cleared ht hpop
  have hl := loose_of_taken ht1 hk
  obtain ⟨ht3, hc3, hix3⟩ := allocateMutableSlots_spec ids (hl.tidy.perm perm_append_comm) hmut
  have hsame : ∀ e ∈ taken, s3.state e.2 = s.state e.2 := by
    intro e he
    obtain ⟨handle, hst⟩ := hl.inactive e he
    have hst : s.state e.2 = .inactive e.1 handle := by rw [← hstate1]; exact hst
    refine (hc3.kept_state (fun hid => ?_) ?_).trans (congrFun hstate1 e.2)
    · rw [hreset e.2 hid] at hst
      cases hst
    · show s1.state e.2 ≠ .reset
      rw [hstate1, hst]
      simp
  have hl3 : s3.Loose taken [] := by
    refine ⟨by simpa using ht3, fun e he => ?_⟩
    rw [hsame e he, ← hstate1]
    exact hl.inactive e he
  have hc2 : s.Cleared [] { s1 with inactive := ix } := hc1.of_slots rfl rfl rfl rfl rfl
  have hceil := effectiveCeiling_congr (hc3.config.trans hc2.config)
  rw [← hceil] at hcommit
  obtain ⟨pairs, hsub, ht', hc, hent, hrep⟩ :=
    commitVictims_spec hl3 ((fresh_of_taken ht1 hk).congr hc3.active hix3) hcommit
  have hmem : ∀ e ∈ pairs, e ∈ s.entries := fun e he => by
    rw [← entries_congr hix1]
    exact hk.mem e (hsub.subset he)
  refine ⟨pairs, ⟨ht', ?_, hk.nodup.sublist hsub, hmem, ?_⟩,
    (Reports.refl ev).trans hrep fun e he => hsame e (hsub.subset he)⟩
  · refine ((hc2.trans hc3).trans hc).drop_reset (fun id hid => mem_append_right _ hid) ?_
    intro id hid
    rcases mem_append.mp hid with hid | hid
    · exact .inr (hreset id (by simpa using hid))
    · exact .inl hid
  · have hpairs : pairs.toFinset ⊆ taken.toFinset := fun e he =>
      mem_toFinset.mpr (hsub.subset (mem_toFinset.mp he))
    have htaken : taken.toFinset ⊆ s.entries := fun e he => by
      rw [← entries_congr hix1]
      exact hk.mem e (mem_toFinset.mp he)
    have hrest : s3.entries = s.entries \ taken.toFinset := by
      rw [entries_congr hix3, ← entries_congr hix1]
      exact hk.rest
    rw [hent, hrest]
    exact Finset.sdiff_union_sdiff_cancel htaken hpairs

end Both

omit [LawfulIndex ι] in
/-- To evict pairs is to commit them with all of them in use. -/
theorem commitVictims_eq_evictAll (ceiling : Nat) {used : List BlockId} :
    ∀ (s : BlockStore ι) (ev : Eviction), (∀ e ∈ l, e.2 ∈ used) →
      commitVictims ceiling used l s ev = evictAll ceiling l s ev := by
  induction l with
  | nil => exact fun _ _ _ => rfl
  | cons e l ih =>
    intro s ev hused
    obtain ⟨he, hl⟩ := forall_mem_cons.mp hused
    unfold commitVictims evictAll
    rw [if_neg fun hc => hc.2 he]
    exact congrArg _ (funext fun r => ih r.2 r.1 hl)

theorem evictAll_evicts (ht : s.Tidy []) {ix : ι} (hk : view.Taken s.inactive l ix)
    (hr : evictAll s.effectiveCeiling l { s with inactive := ix } ev = some (ev', s')) :
    s.Evicts ev ev' s' := by
  rw [← commitVictims_eq_evictAll _ _ _ fun e he => mem_map_of_mem he] at hr
  exact allocateAtomic_commit (n := 0) ht rfl hk rfl hr

theorem tailLoop_spec (ids : List BlockId) :
    ∀ {s s' : BlockStore ι} {ev ev' : Eviction}, s.Tidy [] →
      tailLoop s.effectiveCeiling ids s ev = some (ev', s') → s.Evicts ev ev' s' := by
  induction ids with
  | nil =>
    intro s s' ev ev' ht hr
    cases hr
    exact .refl ht ev
  | cons id ids ih =>
    intro s s' ev ev' ht hr
    unfold tailLoop at hr
    split at hr
    · next h _ _ =>
        obtain ⟨l, ix, hl, hk, -⟩ := takeWithDescendants_spec h id ht.index
        rw [hl, bind_some] at hr
        obtain ⟨⟨ev1, s1⟩, hev, hr⟩ := bind_eq_some_iff.mp hr
        have hone := evictAll_evicts ht hk hev
        rw [← effectiveCeiling_congr hone.config] at hr
        exact hone.trans ht (ih hone.tidy hr)
    · exact ih ht hr

/-- **Allocation from both pools keeps the store in order**, and reports what it evicts. -/
theorem allocateAtomic_spec {count : Nat} {r : Option Eviction} (ht : s.Tidy [])
    (hr : s.allocateAtomic count = some (r, s')) :
    (r = none ∧ s.Evicted [] s') ∨ ∃ ev blocks, r = some ev ∧ s.Evicts ⟨blocks, [], []⟩ ev s' := by
  unfold allocateAtomic at hr
  split at hr
  · cases hr
    exact .inr ⟨_, [], rfl, .refl ht _⟩
  split at hr
  · cases hr
    exact .inl ⟨rfl, .refl ht⟩
  obtain ⟨⟨ids, s1⟩, hpop, hr⟩ := bind_eq_some_iff.mp hr
  have hwf := (popFreeMany_cleared ht hpop).1.index
  have hlen := LawfulIndex.len_eq hwf
  obtain ⟨taken, usable, ix, hloop, hk⟩ := takeVictims_spec s.effectiveCeiling
    (count - min count s.free.card) (InactiveIndex.len s1.inactive + 2) []
    (IndexView.Taken.refl hwf) (by omega)
  simp only [hloop, bind_some] at hr
  split at hr
  · obtain ⟨ix', hins, hr⟩ := map_eq_some_iff.mp hr
    cases hr
    exact .inl ⟨rfl, allocateAtomic_rollback ht hpop hk hins⟩
  · obtain ⟨s3, hmut, hr⟩ := bind_eq_some_iff.mp hr
    obtain ⟨⟨ev, s4⟩, hcommit, hr⟩ := map_eq_some_iff.mp hr
    cases hr
    exact .inr ⟨ev, ids, rfl, allocateAtomic_commit ht hpop hk hmut hcommit⟩

end Kvbm.BlockStore
