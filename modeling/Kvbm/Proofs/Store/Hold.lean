/-
Lineage holds keep the store in order.

Holding moves slots from the index to the map of held hashes; giving back moves each of
them to the index again, unless a newer copy of its hash has been registered meanwhile:
then the held copy is given up, and the hash stays with the newer one.
-/
import Kvbm.Proofs.Store.Registered

namespace Kvbm.BlockStore

open Function List Option

open Lib LawfulIndex

variable {ι : Type} [InactiveIndex ι] [LawfulIndex ι]
variable {s s' : BlockStore ι} {out : List BlockId} {id : BlockId} {h : SequenceHash}

/-- The hash has a primary or an inactive block. -/
def Registered (s : BlockStore ι) (h : SequenceHash) : Prop :=
  s.activeByHash h ≠ none ∨ ∃ id, (h, id) ∈ s.entries

/-- What no step of a hold changes. -/
structure HoldFrame (s s' : BlockStore ι) : Prop where
  config : s'.config = s.config
  active : s'.activeByHash = s.activeByHash
  owned : s.SameOwned s'

omit [InactiveIndex ι] [LawfulIndex ι] in
theorem HoldFrame.refl (s : BlockStore ι) : s.HoldFrame s := ⟨rfl, rfl, .refl s⟩

omit [InactiveIndex ι] [LawfulIndex ι] in
theorem HoldFrame.trans {s'' : BlockStore ι} (hf : s.HoldFrame s') (hf' : s'.HoldFrame s'') :
    s.HoldFrame s'' :=
  ⟨hf'.config.trans hf.config, hf'.active.trans hf.active, hf.owned.trans hf'.owned⟩

/-! ### Holding -/

theorem holdBlocks_spec {l : List Entry} :
    ∀ {s s' : BlockStore ι}, s.Loose l out → holdBlocks l s = some s' →
      s'.Tidy out ∧ s.HoldFrame s' ∧ s'.reg = s.reg := by
  induction l with
  | nil =>
    intro s s' hl hr
    cases hr
    exact ⟨hl.tidy, .refl s, rfl⟩
  | cons e l ih =>
    intro s s' hl hr
    obtain ⟨h, id⟩ := e
    obtain ⟨handle, hst⟩ := hl.inactive (h, id) mem_cons_self
    simp only [holdBlocks, hst] at hr
    split at hr
    · next hfree =>
        have hset := hl.tidy.setState mem_cons_self (.held h handle)
        have hput := hset.putHeld state_setState_self hfree.2
        have hstate : ∀ j, j ≠ id → (s.setState id (.held h handle)).state j = s.state j :=
          fun j hj => state_setState_ne hj
        have hl1 := hl.tail hput fun j hj _ => hstate j hj
        obtain ⟨ht', hf, hreg⟩ := ih hl1 hr
        have hframe : s.HoldFrame
            ({ s with heldByHash := update s.heldByHash h (some id) }.setState id
              (.held h handle)) := by
          refine ⟨rfl, rfl, .write id ?_ ?_ hstate⟩
          · simp [owner, hst, SlotState.owner]
          · show ((s.setState id (.held h handle)).state id).owner = none
            rw [state_setState_self]
            rfl
        refine ⟨ht', hframe.trans hf, hreg.trans ?_⟩
        funext j
        show ((s.setState id (.held h handle)).state j).reg = (s.state j).reg
        by_cases hj : j = id
        · subst hj
          rw [state_setState_self, hst]
          rfl
        · rw [hstate j hj]
    · cases hr

/-- **A hold takes blocks out of the index and of nothing else.** -/
theorem tryHold_spec {candidate : InactiveCandidate} {expected : Option (List Entry)}
    {r : Option (List Entry)} (ht : s.Tidy [])
    (hr : s.tryHoldInactiveLineageIfCurrent candidate expected = some (r, s')) :
    s'.Tidy [] ∧ s.HoldFrame s' ∧ s'.reg = s.reg := by
  unfold tryHoldInactiveLineageIfCurrent at hr
  cases hcur : s.currentInactiveLineage candidate with
  | none =>
    rw [hcur] at hr
    cases hr
    exact ⟨ht, .refl s, rfl⟩
  | some source =>
    have hsource : InactiveIndex.completeLineage s.inactive candidate.seqHash
        candidate.blockId = some source := by
      simp only [currentInactiveLineage] at hcur
      split_ifs at hcur
      split at hcur
      · cases hcur
      next l hl =>
        split_ifs at hcur
        cases hcur
        exact hl
    simp only [hcur] at hr
    split at hr
    · cases hr
      exact ⟨ht, .refl s, rfl⟩
    obtain ⟨res, ix, hres, hsame, -, hsome⟩ :=
      takeCompleteLineage_spec candidate.seqHash candidate.blockId ht.index
    rw [hsource] at hsame
    subst hsame
    simp only [hres, bind_some, isNone_some, Bool.false_eq_true, if_false] at hr
    obtain ⟨s1, hhold, hr⟩ := map_eq_some_iff.mp hr
    cases hr
    have hl := loose_of_taken ht (hsome source rfl).1
    obtain ⟨ht', hf, hreg⟩ := holdBlocks_spec hl hhold
    exact ⟨ht', ⟨hf.config, hf.active, hf.owned⟩, hreg⟩

/-! ### Giving back -/

variable {handle : BlockRegistrationHandle}

omit [InactiveIndex ι] [LawfulIndex ι] in
theorem takeExactHeldHandle_eq :
    s.takeExactHeldHandle h id = some handle ↔ s.state id = .held h handle := by
  unfold takeExactHeldHandle
  split
  · next g x hst =>
      split_ifs with hg
      · subst hg
        simp [hst]
      · simp [hst, hg]
  · next hst => exact iff_of_false (by simp) fun hc => hst _ _ hc

/-- A held slot goes to the reset pool. -/
def discardHeld (s : BlockStore ι) (h : SequenceHash) (id : BlockId) : BlockStore ι :=
  ((({ s with heldByHash := update s.heldByHash h none }.setState id .reset).setFlag id
    s.defaultResetOnRelease).pushResetId id)

omit [InactiveIndex ι] [LawfulIndex ι] in
theorem discardHeld_state {j : BlockId} :
    (s.discardHeld h id).state j = if j = id then .reset else s.state j := by
  unfold discardHeld
  rw [pushResetId_state]
  exact state_setSlot

theorem discardHeld_spec (ht : s.Tidy []) (hst : s.state id = .held h handle) :
    (s.discardHeld h id).Tidy [] ∧ s.HoldFrame (s.discardHeld h id) ∧
      s.Deregisters [id] (s.discardHeld h id) ∧ s.HandlesOf [id] [handle] ∧
      (s.discardHeld h id).entries = s.entries ∧
      (s.discardHeld h id).heldByHash = update s.heldByHash h none := by
  have hheld : s.heldByHash h = some id := ht.held_iff.mpr ⟨not_mem_nil, handle, hst⟩
  have hc : s.Cleared [id] ((s.setState id .reset).setFlag id s.defaultResetOnRelease) :=
    .write (.inl rfl)
  have hfields : (s.discardHeld h id).config = s.config ∧
      (s.discardHeld h id).activeByHash = s.activeByHash ∧
      (s.discardHeld h id).heldByHash = update s.heldByHash h none ∧
      (s.discardHeld h id).inactive = s.inactive := by
    unfold discardHeld pushResetId
    split <;> exact ⟨rfl, rfl, rfl, rfl⟩
  obtain ⟨hcfg, hact, hheld', hix⟩ := hfields
  refine ⟨?_, ⟨hcfg, hact, ?_⟩, ⟨nodup_singleton id, ?_, ?_⟩, ?_, entries_congr hix, hheld'⟩
  · exact (Tidy.setFlag ((ht.takeHeld hheld).setState mem_cons_self _) _ _).pushResetId
      state_setState_self
  · refine .write id (by simp [owner, hst, SlotState.owner]) ?_ fun j hj => ?_
    · simp [owner, discardHeld_state, SlotState.owner]
    · rw [discardHeld_state, if_neg hj]
  · intro j hj
    rw [mem_singleton.mp hj]
    simp [reg, hst, discardHeld_state, SlotState.reg]
  · intro j hj
    rw [reg, discardHeld_state, if_neg (by simpa using hj)]
    rfl
  · simp [HandlesOf, reg, hst, SlotState.reg]

/-- No newer copy: the hash is neither active nor in the index. -/
theorem hasNewerRegisteredCopy_eq (ht : s.Tidy []) (hst : s.state id = .held h handle) :
    s.hasNewerRegisteredCopy h id = true ↔ s.Registered h := by
  unfold hasNewerRegisteredCopy Registered
  rw [Bool.or_eq_true, LawfulIndex.has_iff ht.index]
  refine or_congr ?_ Iff.rfl
  cases hact : s.activeByHash h with
  | none => simp
  | some a =>
    obtain ⟨handle', i, hprim⟩ := (ht.active_iff.mp hact).2
    have hne : a ≠ id := by
      rintro rfl
      rw [hst] at hprim
      cases hprim
    simp [hne]

/-- What giving back does: some held slots are given up because of a newer copy. -/
structure Restored (s : BlockStore ι) (discarded : List BlockRegistrationHandle)
    (s' : BlockStore ι) : Prop where
  tidy : s'.Tidy []
  frame : s.HoldFrame s'
  lost : ∃ ids, s.Deregisters ids s' ∧ s.HandlesOf ids discarded ∧
    ∀ id ∈ ids, ∃ h handle, s.state id = .held h handle ∧ s'.Registered h
  registered : ∀ h, s.Registered h → s'.Registered h
  held : ∀ id h handle, s'.state id = .held h handle → s.state id = .held h handle

namespace Restored

theorem refl (ht : s.Tidy []) : s.Restored [] s :=
  ⟨ht, .refl s, ⟨[], .refl s, rfl, by simp⟩, fun _ hr => hr, fun _ _ _ hh => hh⟩

theorem trans {s'' : BlockStore ι} {l l' : List BlockRegistrationHandle}
    (hr : s.Restored l s') (hr' : s'.Restored l' s'') : s.Restored (l ++ l') s'' := by
  obtain ⟨ids, hd, hh, hlost⟩ := hr.lost
  obtain ⟨ids', hd', hh', hlost'⟩ := hr'.lost
  refine ⟨hr'.tidy, hr.frame.trans hr'.frame, ⟨ids ++ ids', hd.trans hd',
    hd.handlesOf_append hd' hh hh', ?_⟩, fun h hreg => hr'.registered h (hr.registered h hreg),
    fun id h handle hst => hr.held id h handle (hr'.held id h handle hst)⟩
  intro id hid
  rcases mem_append.mp hid with hid | hid
  · obtain ⟨h, handle, hst, hreg⟩ := hlost id hid
    exact ⟨h, handle, hst, hr'.registered h hreg⟩
  · obtain ⟨h, handle, hst, hreg⟩ := hlost' id hid
    exact ⟨h, handle, hr.held id h handle hst, hreg⟩

end Restored

/-- A held copy is given up because of a newer one. -/
theorem discardHeld_restored (ht : s.Tidy []) (hst : s.state id = .held h handle)
    (hnew : s.Registered h) : s.Restored [handle] (s.discardHeld h id) := by
  obtain ⟨ht', hf, hd, hh, hentries, -⟩ := discardHeld_spec ht hst
  have hreg : ∀ g, s.Registered g → (s.discardHeld h id).Registered g := by
    intro g hg
    unfold Registered
    rw [hf.active, hentries]
    exact hg
  refine ⟨ht', hf, ⟨[id], hd, hh, fun j hj => ?_⟩, hreg, fun j g x hj => ?_⟩
  · rw [mem_singleton.mp hj]
    exact ⟨h, handle, hst, hreg h hnew⟩
  · rw [discardHeld_state] at hj
    split_ifs at hj
    exact hj

theorem returnHeld_restored {ix : ι} (ht : s.Tidy []) (hst : s.state id = .held h handle)
    (hold : ¬ s.Registered h) (hins : InactiveIndex.insert s.inactive h id = some ix) :
    s.Restored [] { s.setState id (.inactive h handle) with
      heldByHash := update s.heldByHash h none, inactive := ix } := by
  have hheld : s.heldByHash h = some id := ht.held_iff.mpr ⟨not_mem_nil, handle, hst⟩
  have hact : s.activeByHash h = none := by
    by_contra hne
    exact hold (.inl hne)
  have hent : ∀ b, (h, b) ∉ s.entries := fun b hb => hold (.inr ⟨b, hb⟩)
  have hout := (ht.takeHeld hheld).setState mem_cons_self (.inactive h handle)
  obtain ⟨-, hentries, -⟩ := hout.insert_entries hent hins
  have hstate : ∀ j, j ≠ id → (s.setState id (.inactive h handle)).state j = s.state j :=
    fun j hj => state_setState_ne hj
  have hself : (s.setState id (.inactive h handle)).state id = .inactive h handle :=
    state_setState_self
  refine ⟨hout.putInactive hself hact hent hins, ⟨rfl, rfl, .write id ?_ ?_ hstate⟩,
    ⟨[], .of_reg ?_, rfl, by simp⟩, fun g hg => ?_, fun j g x hj => ?_⟩
  · simp [owner, hst, SlotState.owner]
  · show ((s.setState id (.inactive h handle)).state id).owner = none
    rw [hself]
    rfl
  · funext j
    show ((s.setState id (.inactive h handle)).state j).reg = (s.state j).reg
    by_cases hj : j = id
    · rw [hj, hself, hst]
      rfl
    · rw [hstate j hj]
  · rcases hg with hg | ⟨b, hb⟩
    · exact .inl hg
    refine .inr ⟨b, ?_⟩
    show (g, b) ∈ view.entries ix
    rw [hentries]
    exact Finset.mem_insert_of_mem hb
  · have hj : (s.setState id (.inactive h handle)).state j = .held g x := hj
    by_cases hji : j = id
    · rw [hji, hself] at hj
      cases hj
    · exact (hstate j hji) ▸ hj

/-- **Giving back keeps the store in order**, and gives up only hashes that have a newer copy. -/
theorem restoreSupportBlocks_spec {source : List Entry} :
    ∀ {s s' : BlockStore ι} {discarded : List BlockRegistrationHandle}, s.Tidy [] →
      restoreSupportBlocks source s = some (discarded, s') → s.Restored discarded s' := by
  induction source with
  | nil =>
    intro s s' discarded ht hr
    cases hr
    exact .refl ht
  | cons e source ih =>
    intro s s' discarded ht hr
    obtain ⟨h, id⟩ := e
    obtain ⟨handle, hh, hr⟩ := bind_eq_some_iff.mp hr
    have hst := takeExactHeldHandle_eq.mp hh
    have hheld : s.heldByHash h = some id := ht.held_iff.mpr ⟨not_mem_nil, handle, hst⟩
    rw [if_pos hheld] at hr
    have hnewer : { s with heldByHash := update s.heldByHash h none
        }.hasNewerRegisteredCopy h id = s.hasNewerRegisteredCopy h id := rfl
    simp only [hnewer] at hr
    split at hr
    · next hc =>
        obtain ⟨⟨rest, s1⟩, hrest, hr⟩ := map_eq_some_iff.mp hr
        cases hr
        have hone := discardHeld_restored ht hst ((hasNewerRegisteredCopy_eq ht hst).mp hc)
        exact hone.trans (ih hone.tidy hrest)
    · next hc =>
        obtain ⟨ix, hins, hr⟩ := bind_eq_some_iff.mp hr
        have hone := returnHeld_restored ht hst
          (fun hreg => hc ((hasNewerRegisteredCopy_eq ht hst).mpr hreg)) hins
        exact hone.trans (ih hone.tidy hr)

/-- **Committing a hold gives up its last block**; the hash is reported if no copy is left. -/
theorem commitLineageHold_spec {source : List Entry} {reported : Option SequenceHash}
    {handles : List BlockRegistrationHandle} (ht : s.Tidy [])
    (hr : s.commitLineageHold source = some ((reported, handles), s')) :
    s'.Tidy [] ∧ s.HoldFrame s' ∧
      (∃ ids, s.Deregisters ids s' ∧ s.HandlesOf ids handles ∧
        ∀ id ∈ ids, ∃ h handle, s.state id = .held h handle ∧
          (s'.Registered h ∨ reported = some h)) ∧
      ∀ h, reported = some h → ¬ s'.Registered h ∧ s'.heldByHash h = none := by
  unfold commitLineageHold at hr
  cases hlast : source.getLast? with
  | none =>
    rw [hlast] at hr
    cases hr
  | some e =>
    obtain ⟨h, id⟩ := e
    simp only [hlast] at hr
    obtain ⟨⟨discarded, s1⟩, hrest, hr⟩ := bind_eq_some_iff.mp hr
    obtain ⟨handle, hh, hr⟩ := bind_eq_some_iff.mp hr
    have hres := restoreSupportBlocks_spec ht hrest
    have hst := takeExactHeldHandle_eq.mp hh
    have hheld : s1.heldByHash h = some id := hres.tidy.held_iff.mpr ⟨not_mem_nil, handle, hst⟩
    rw [if_pos hheld] at hr
    cases hr
    obtain ⟨ids, hd, hhs, hlost⟩ := hres.lost
    obtain ⟨ht', hf, hd', hh', hentries, hheld'⟩ := discardHeld_spec hres.tidy hst
    have hreg : ∀ g, (s1.discardHeld h id).Registered g ↔ s1.Registered g := by
      intro g
      unfold Registered
      rw [hf.active, hentries]
    have hnewer := hasNewerRegisteredCopy_eq hres.tidy hst
    refine ⟨ht', hres.frame.trans hf,
      ⟨ids ++ [id], hd.trans hd', hd.handlesOf_append hd' hhs hh', ?_⟩, ?_⟩
    · intro j hj
      rcases mem_append.mp hj with hj | hj
      · obtain ⟨g, x, hg, hgreg⟩ := hlost j hj
        exact ⟨g, x, hg, .inl ((hreg g).mpr hgreg)⟩
      rw [mem_singleton.mp hj]
      refine ⟨h, handle, hres.held id h handle hst, ?_⟩
      by_cases hc : s1.Registered h
      · exact .inl ((hreg h).mpr hc)
      · exact .inr (if_neg fun h' => hc (hnewer.mp h'))
    · intro g hg
      split_ifs at hg with hc
      cases hg
      refine ⟨fun hcon => hc (hnewer.mpr ((hreg h).mp hcon)), ?_⟩
      have hself : update s1.heldByHash h none h = none := update_self _ _ _
      exact (congrFun hheld' h).trans hself

end Kvbm.BlockStore
