/-
Changes of the capacity and of the allocation ceiling.

Both change where the reset slots belong and nothing else, so it is enough to know which
ids are classified again: all reset slots below the capacity.
-/
import Kvbm.Proofs.Store.Clear

namespace Kvbm

open Lib LawfulIndex

theorem endOfLast_spec {p : Nat → Bool} {n k : Nat} (hk : endOfLast p n ≤ k) (hn : k < n) :
    p k = false := by
  induction n with
  | zero => exact absurd hn (Nat.not_lt_zero k)
  | succ n ih =>
    unfold endOfLast at hk
    split at hk
    · omega
    next hp =>
      by_cases hkn : k = n
      · rw [hkn]
        exact Bool.eq_false_iff.mpr hp
      · exact ih hk (by omega)

namespace BlockStore

/-- Only what concerns reset slots may differ. -/
structure SameBlocks {ι : Type} (s s' : BlockStore ι) : Prop where
  state : s'.state = s.state
  active : s'.activeByHash = s.activeByHash
  held : s'.heldByHash = s.heldByHash

variable {ι : Type} {s s' s'' : BlockStore ι}

theorem SameBlocks.refl (s : BlockStore ι) : s.SameBlocks s := ⟨rfl, rfl, rfl⟩

theorem mem_pushResetId {id j : BlockId} :
    j ∈ (s.pushResetId id).free ∪ (s.pushResetId id).fenced ↔ j = id ∨ j ∈ s.free ∪ s.fenced := by
  unfold pushResetId
  split <;>
  · simp only [Finset.mem_union, Finset.mem_insert, Finset.mem_erase]
    by_cases hj : j = id
    · simp [hj]
    · simp [hj]

theorem foldl_pushResetId_eq {ids : List BlockId} :
    ∀ s : BlockStore ι, ∃ free fenced,
      ids.foldl pushResetId s = { s with free := free, fenced := fenced } ∧
        ∀ j, j ∈ free ∪ fenced ↔ j ∈ ids ∨ j ∈ s.free ∪ s.fenced := by
  induction ids with
  | nil => exact fun s => ⟨s.free, s.fenced, rfl, by simp⟩
  | cons id ids ih =>
    intro s
    obtain ⟨free, fenced, heq, hmem⟩ := ih (s.pushResetId id)
    refine ⟨free, fenced, ?_, fun j => ?_⟩
    · rw [List.foldl_cons, heq, pushResetId]
      split <;> rfl
    · rw [hmem, mem_pushResetId, List.mem_cons]
      tauto

variable [InactiveIndex ι] [LawfulIndex ι] (ht : s.Tidy [])

include ht

theorem Tidy.mem_resets {id : BlockId} :
    id ∈ s.free ∪ s.fenced ↔ id < s.capacity ∧ s.state id = .reset := by
  rw [Finset.mem_union, ht.mem_free, ht.mem_fenced]
  have hle : s.effectiveCeiling ≤ s.capacity := effectiveCeiling_le
  refine ⟨fun hid => ?_, fun ⟨hlt, hst⟩ => ?_⟩
  · rcases hid with ⟨-, hst, hlt⟩ | ⟨-, hst, -, hlt⟩
    · exact ⟨hlt.trans_le hle, hst⟩
    · exact ⟨hlt, hst⟩
  · rcases Nat.lt_or_ge id s.effectiveCeiling with hc | hc
    · exact .inl ⟨List.not_mem_nil, hst, hc⟩
    · exact .inr ⟨List.not_mem_nil, hst, hc, hlt⟩

/-- **Classifying all reset slots again puts the store in order**, whatever the ceiling. -/
theorem Tidy.reclassify {ids : Finset BlockId} (hindex : view.Wf s'.inactive)
    (hfits : view.Fits s'.inactive s'.slotCount) (hslots : s'.capacity ≤ s'.slotCount)
    (hsame : s.SameBlocks s') (hentries : s'.entries = s.entries)
    (habove : ∀ id, s'.capacity ≤ id → s.state id = .reset)
    (hids : ∀ id, id ∈ ids ↔ id < s'.capacity ∧ s.state id = .reset) :
    (s'.reclassify ids).Tidy [] := by
  have hplace : ∀ id, (s'.reclassify ids).place id = s'.place id := fun _ => rfl
  have hle : s'.effectiveCeiling ≤ s'.capacity := effectiveCeiling_le
  refine ⟨hindex, hfits, hslots, fun id hid => ?_, by simp, ⟨List.nodup_nil, fun id p => ?_⟩, ?_⟩
  · exact (congrFun hsame.state id).trans (habove id hid)
  · simp only [List.not_mem_nil, not_false_eq_true, true_and, hplace, place_eq]
    unfold Belongs
    rw [hsame.state]
    cases p with
    | free =>
      show id ∈ ids.filter _ ↔ _
      rw [Finset.mem_filter, hids]
      exact ⟨fun ⟨⟨_, hst⟩, hc⟩ => ⟨hst, hc⟩, fun ⟨hst, hc⟩ => ⟨⟨hc.trans_le hle, hst⟩, hc⟩⟩
    | fenced =>
      show id ∈ ids.filter _ ↔ _
      rw [Finset.mem_filter, hids]
      exact ⟨fun ⟨⟨hlt, hst⟩, hc⟩ => ⟨hst, Nat.le_of_not_lt hc, hlt⟩,
        fun ⟨hst, hc, hlt⟩ => ⟨⟨hlt, hst⟩, Nat.not_lt.mpr hc⟩⟩
    | inactive h =>
      show (h, id) ∈ s'.entries ↔ _
      rw [hentries, ht.mem_entries]
      simp
    | active h =>
      show s'.activeByHash h = some id ↔ _
      rw [hsame.active, ht.active_iff]
      simp
    | held h =>
      show s'.heldByHash h = some id ↔ _
      rw [hsame.held, ht.held_iff]
      simp
  · intro h a b ha hb
    have ha : s'.activeByHash h = some a := ha
    have hb : (h, b) ∈ s'.entries := hb
    rw [hsame.active] at ha
    rw [hentries] at hb
    exact ht.exclusive ha hb

theorem setAllocationCeiling_spec {fence : Option Nat} :
    (s.setAllocationCeiling fence).2.Tidy [] ∧ s.SameBlocks (s.setAllocationCeiling fence).2 ∧
      (s.setAllocationCeiling fence).2.slotCount = s.slotCount := by
  have hok : ({ s with fence := fence }.reclassify (s.free ∪ s.fenced)).Tidy [] :=
    ht.reclassify ht.index ht.fits ht.slots ⟨rfl, rfl, rfl⟩ rfl ht.above fun _ => ht.mem_resets
  simp only [setAllocationCeiling]
  split
  · split
    · exact ⟨ht, .refl s, rfl⟩
    · exact ⟨hok, ⟨rfl, rfl, rfl⟩, rfl⟩
  · exact ⟨hok, ⟨rfl, rfl, rfl⟩, rfl⟩

variable {n : Nat}

/-- Slots that a new capacity leaves out are reset. -/
theorem checkCapacity_spec (hc : s.checkCapacity n = .ok ()) :
    ∀ id, n ≤ id → s.state id = .reset := by
  intro id hid
  by_cases hlt : id < s.capacity
  · simp only [checkCapacity] at hc
    split_ifs at hc with _ hhigh
    have hfalse := endOfLast_spec ((Nat.le_of_not_lt hhigh).trans hid) hlt
    simpa using hfalse
  · exact ht.above id (Nat.le_of_not_lt hlt)

theorem resize_spec (hn : s.slotCount < n) :
    s.SameBlocks (s.resize n) ∧ (s.resize n).entries = s.entries ∧
      view.Wf (s.resize n).inactive ∧ view.Fits (s.resize n).inactive n := by
  obtain ⟨hwf, hentries, hfits, -⟩ := growCapacity_spec ht.index (n := n)
    (Nat.zero_lt_of_lt hn) (ht.card_entries_le.trans hn.le)
  refine ⟨⟨?_, rfl, rfl⟩, hentries, hwf, hfits⟩
  funext id
  show (if id < s.slotCount then s.slots id else freshSlot).state = s.state id
  split
  · rfl
  · next hid => exact (ht.above id (ht.slots.trans (Nat.le_of_not_lt hid))).symm

/-- After the vectors have followed, there are slots for the new capacity. -/
theorem grow_spec :
    ∃ s1, (if s.slotCount < n then s.resize n else s) = s1 ∧ s.SameBlocks s1 ∧
      s1.entries = s.entries ∧ view.Wf s1.inactive ∧ view.Fits s1.inactive s1.slotCount ∧
      n ≤ s1.slotCount ∧ s.slotCount ≤ s1.slotCount ∧ s1.free = s.free ∧ s1.fenced = s.fenced := by
  by_cases hn : s.slotCount < n
  · obtain ⟨hsame, hentries, hwf, hfits⟩ := resize_spec ht hn
    exact ⟨_, if_pos hn, hsame, hentries, hwf, hfits, le_rfl, hn.le, rfl, rfl⟩
  · exact ⟨s, if_neg hn, .refl s, rfl, ht.index, ht.fits, Nat.le_of_not_lt hn, le_rfl, rfl, rfl⟩

/-- **Changing the capacity keeps the store in order and touches no block.** -/
theorem setCapacity_spec :
    (s.setCapacity n).2.Tidy [] ∧ s.SameBlocks (s.setCapacity n).2 ∧
      s.slotCount ≤ (s.setCapacity n).2.slotCount := by
  unfold setCapacity
  cases hcheck : s.checkCapacity n with
  | error => exact ⟨ht, .refl s, le_rfl⟩
  | ok =>
    have habove := checkCapacity_spec ht hcheck
    rcases Nat.lt_trichotomy n s.capacity with hn | rfl | hn
    · have hnot : ¬ s.capacity < n := Nat.not_lt.mpr hn.le
      simp only [hn, if_true, gt_iff_lt, hnot, if_false]
      refine ⟨ht.reclassify ht.index ht.fits (hn.le.trans ht.slots) ⟨rfl, rfl,
        rfl⟩ rfl habove fun id => ?_, ⟨rfl, rfl, rfl⟩, le_rfl⟩
      rw [← Finset.filter_union, Finset.mem_filter, ht.mem_resets]
      exact ⟨fun ⟨⟨_, hst⟩, hlt⟩ => ⟨hlt, hst⟩, fun ⟨hlt, hst⟩ => ⟨⟨hlt.trans hn, hst⟩, hlt⟩⟩
    · simp only [Nat.lt_irrefl, if_false, gt_iff_lt, false_and]
      exact ⟨ht.reclassify ht.index ht.fits ht.slots ⟨rfl, rfl,
        rfl⟩ rfl habove fun _ => ht.mem_resets, ⟨rfl, rfl, rfl⟩, le_rfl⟩
    · have hnot : ¬ n < s.capacity := Nat.not_lt.mpr hn.le
      simp only [hnot, if_false, gt_iff_lt, hn, true_and, if_true]
      obtain ⟨s1, hs1, hsame, hentries, hwf, hfits, hle, hcount, hfree, hfenced⟩ :=
        grow_spec (n := n) ht
      rw [hs1]
      obtain ⟨free, fenced, hfold, hmem⟩ := foldl_pushResetId_eq { s1 with capacity := n }
      rw [hfold]
      have hsame' : s.SameBlocks { s1 with capacity := n, free := free, fenced := fenced } :=
        ⟨hsame.state, hsame.active, hsame.held⟩
      refine ⟨ht.reclassify hwf hfits hle hsame' hentries habove fun id => ?_, ?_, hcount⟩
      · rw [hmem, List.mem_range'_1, Nat.add_sub_cancel' hn.le]
        show _ ∨ id ∈ s1.free ∪ s1.fenced ↔ id < n ∧ _
        rw [hfree, hfenced, ht.mem_resets]
        refine ⟨fun hid => ?_, fun ⟨hlt, hst⟩ => ?_⟩
        · rcases hid with ⟨hge, hlt⟩ | ⟨hlt, hst⟩
          · exact ⟨hlt, ht.above id hge⟩
          · exact ⟨hlt.trans hn, hst⟩
        · rcases Nat.lt_or_ge id s.capacity with hc | hc
          · exact .inr ⟨hc, hst⟩
          · exact .inl ⟨hc, hlt⟩
      · exact ⟨hsame.state, hsame.active, hsame.held⟩

end BlockStore

end Kvbm
