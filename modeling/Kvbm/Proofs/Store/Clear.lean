/-
Clearing slots.

Allocations and evictions do to the slots what `Cleared` says: a few of them lose what
they held, reset slots may be handed out, and nothing else changes.  `Evicted` adds what
happens to the index: the pairs that were evicted are gone from it, and only those.
-/
import Kvbm.Proofs.Store.Tidy

namespace Kvbm.BlockStore

open Lib LawfulIndex List

section Cleared

variable {ι : Type} {s s' s'' : BlockStore ι} {ids ids' : List BlockId} {id : BlockId}

/-- What only the capacity operations change. -/
def config (s : BlockStore ι) : ManagerId × Nat × Bool × Nat × Nat × Option Nat :=
  (s.id, s.totalBlocks, s.defaultResetOnRelease, s.capacity, s.slotCount, s.fence)

theorem slotCount_congr (h : s'.config = s.config) : s'.slotCount = s.slotCount :=
  congrArg (·.2.2.2.2.1) h

theorem effectiveCeiling_congr (h : s'.config = s.config) :
    s'.effectiveCeiling = s.effectiveCeiling := by
  unfold effectiveCeiling
  rw [show s'.capacity = s.capacity from congrArg (·.2.2.2.1) h,
    show s'.fence = s.fence from congrArg (·.2.2.2.2.2) h]

/-- The slot holds nothing that is registered or staged. -/
def Blank (s : BlockStore ι) (id : BlockId) : Prop := s.state id = .reset ∨ s.state id = .mutable

/-- The slots `ids` hold nothing any more; reset slots may have been handed out. -/
structure Cleared (s : BlockStore ι) (ids : List BlockId) (s' : BlockStore ι) : Prop where
  config : s'.config = s.config
  active : s'.activeByHash = s.activeByHash
  held : s'.heldByHash = s.heldByHash
  kept : ∀ id, id ∉ ids → s.state id ≠ .reset →
    s'.slots id = s.slots id ∧ s'.resetOnRelease id = s.resetOnRelease id
  reset : ∀ id, s.state id = .reset → s'.Blank id
  gone : ∀ id ∈ ids, s'.Blank id

namespace Cleared

theorem refl (s : BlockStore ι) : s.Cleared [] s :=
  ⟨rfl, rfl, rfl, fun _ _ _ => ⟨rfl, rfl⟩, fun _ hst => .inl hst, by simp⟩

variable (hc : s.Cleared ids s')

include hc

theorem kept_state (hid : id ∉ ids) (hst : s.state id ≠ .reset) :
    s'.state id = s.state id := congrArg BlockSlot.state (hc.kept id hid hst).1

/-- What holds nothing goes on holding nothing. -/
theorem blank (hb : s.Blank id) : s'.Blank id := by
  rcases hb with hb | hb
  · exact hc.reset id hb
  by_cases hid : id ∈ ids
  · exact hc.gone id hid
  · exact .inr ((hc.kept_state hid (by simp [hb])).trans hb)

theorem trans (hc' : s'.Cleared ids' s'') : s.Cleared (ids ++ ids') s'' := by
  refine ⟨hc'.config.trans hc.config, hc'.active.trans hc.active, hc'.held.trans hc.held, ?_,
    fun id hst => hc'.blank (hc.reset id hst), ?_⟩
  · intro id hid hst
    have hids : id ∉ ids := fun h => hid (mem_append_left _ h)
    have hids' : id ∉ ids' := fun h => hid (mem_append_right _ h)
    obtain ⟨h1, h2⟩ := hc.kept id hids hst
    obtain ⟨h1', h2'⟩ := hc'.kept id hids' (hc.kept_state hids hst ▸ hst)
    exact ⟨h1'.trans h1, h2'.trans h2⟩
  · intro id hid
    rcases mem_append.mp hid with hid | hid
    · exact hc'.blank (hc.gone id hid)
    · exact hc'.gone id hid

/-- Slots that were reset before need no mention. -/
theorem drop_reset (hsub : ∀ id ∈ ids', id ∈ ids)
    (hreset : ∀ id ∈ ids, id ∈ ids' ∨ s.state id = .reset) : s.Cleared ids' s' :=
  { hc with
    kept := fun id hid hst =>
      hc.kept id (fun hmem => (hreset id hmem).elim hid hst) hst
    gone := fun id hid => hc.gone id (hsub id hid) }

omit hc in
theorem write {slot : BlockSlot} {v : Bool} (hb : slot.state = .reset ∨ slot.state = .mutable) :
    s.Cleared [id] ((s.setSlot id slot).setFlag id v) := by
  have hself : ((s.setSlot id slot).setFlag id v).Blank id := by
    unfold Blank
    rw [show ((s.setSlot id slot).setFlag id v).state id = slot.state from state_setSlot_self]
    exact hb
  refine ⟨rfl, rfl, rfl, fun j hj _ => ?_, fun j hst => ?_, by simpa using hself⟩
  · have hj : j ≠ id := by simpa using hj
    simp [setFlag, setSlot, hj]
  · by_cases hj : j = id
    · exact hj ▸ hself
    exact .inl (by
      show (s.setSlot id slot).state j = _
      rw [state_setSlot, if_neg hj, hst])

theorem of_slots (hcfg : s''.config = s'.config) (ha : s''.activeByHash = s'.activeByHash)
    (hh : s''.heldByHash = s'.heldByHash) (hs : s''.slots = s'.slots)
    (hf : s''.resetOnRelease = s'.resetOnRelease) : s.Cleared ids s'' := by
  have hstate : s''.state = s'.state := by
    funext j
    unfold state
    rw [hs]
  refine ⟨hcfg.trans hc.config, ha.trans hc.active, hh.trans hc.held, ?_, ?_, ?_⟩
  · intro id hid hst
    rw [hs, hf]
    exact hc.kept id hid hst
  · intro id hst
    unfold Blank
    rw [hstate]
    exact hc.reset id hst
  · intro id hid
    unfold Blank
    rw [hstate]
    exact hc.gone id hid

end Cleared

/-! ### One slot -/

theorem popFree_spec {s1 : BlockStore ι} (hp : s.popFree = some (id, s1)) :
    id ∈ s.free ∧ s1 = { s with free := s.free.erase id } := by
  unfold popFree at hp
  split at hp
  · cases hp
    exact ⟨Finset.min'_mem _ _, rfl⟩
  · cases hp

theorem allocateMutableSlot_spec (ha : s.allocateMutableSlot id = some s') :
    s' = (s.setSlot id { s.slots id with
      generation := (s.slots id).generation + 1, state := .mutable }).setFlag id
        s.defaultResetOnRelease := by
  simp only [allocateMutableSlot] at ha
  split at ha
  · cases ha
  · cases ha
    rfl

theorem allocateMutableSlot_cleared (ha : s.allocateMutableSlot id = some s') :
    s.Cleared [id] s' := by
  rw [allocateMutableSlot_spec ha]
  exact .write (.inr rfl)

theorem pushResetId_cleared (hc : s.Cleared ids s') : s.Cleared ids (s'.pushResetId id) := by
  refine hc.of_slots ?_ ?_ ?_ ?_ ?_ <;>
  · unfold pushResetId
    split <;> rfl

@[simp] theorem pushResetId_slots : (s.pushResetId id).slots = s.slots := by
  unfold pushResetId
  split <;> rfl

@[simp] theorem pushResetId_flags : (s.pushResetId id).resetOnRelease = s.resetOnRelease := by
  unfold pushResetId
  split <;> rfl

@[simp] theorem pushResetId_config : (s.pushResetId id).config = s.config := by
  unfold pushResetId
  split <;> rfl

theorem pushResetId_state {j : BlockId} : (s.pushResetId id).state j = s.state j := by
  rw [state, pushResetId_slots]
  rfl

@[simp] theorem resetSlot_state_self : (s.resetSlot id).state id = .reset := by
  rw [resetSlot, pushResetId_state, state_setState_self]

@[simp] theorem pushResetId_inactive : (s.pushResetId id).inactive = s.inactive := by
  unfold pushResetId
  split <;> rfl

/-- The slot is reset and gets back the default flag, in either order. -/
theorem resetSlot_cleared : s.Cleared [id] ((s.setFlag id s.defaultResetOnRelease).resetSlot id) :=
  pushResetId_cleared (.write (.inl rfl))

end Cleared

section Tidy

variable {ι : Type} [InactiveIndex ι] [LawfulIndex ι]
variable {s s' s'' : BlockStore ι} {out : List BlockId} {id : BlockId}

omit [InactiveIndex ι] [LawfulIndex ι] in
theorem allocateMutableSlot_inactive (ha : s.allocateMutableSlot id = some s') :
    s'.inactive = s.inactive := by
  rw [allocateMutableSlot_spec ha]
  rfl

theorem Tidy.allocateMutableSlot (ht : s.Tidy (id :: out))
    (ha : s.allocateMutableSlot id = some s') : s'.Tidy out := by
  rw [allocateMutableSlot_spec ha]
  refine Tidy.putPlain ((ht.setSlot mem_cons_self _).setFlag id _) ?_
  unfold place
  rw [show ((s.setSlot id _).setFlag id _).state id = _ from state_setSlot_self]

/-- An eviction, as a whole. -/
structure Evicted (s : BlockStore ι) (pairs : List Entry) (s' : BlockStore ι) : Prop where
  tidy : s'.Tidy []
  cleared : s.Cleared (pairs.map Prod.snd) s'
  nodup : pairs.Nodup
  mem : ∀ e ∈ pairs, e ∈ s.entries
  rest : s'.entries = s.entries \ pairs.toFinset

namespace Evicted

variable {pairs pairs' : List Entry}

theorem refl (ht : s.Tidy []) : s.Evicted [] s := ⟨ht, .refl s, nodup_nil, by simp, by simp⟩

theorem mem_rest (he : s.Evicted pairs s') {e : Entry} :
    e ∈ s'.entries ↔ e ∈ s.entries ∧ e ∉ pairs := by
  rw [he.rest, Finset.mem_sdiff, mem_toFinset]

theorem trans (he : s.Evicted pairs s') (he' : s'.Evicted pairs' s'') :
    s.Evicted (pairs ++ pairs') s'' := by
  refine ⟨he'.tidy, ?_, ?_, ?_, ?_⟩
  · rw [map_append]
    exact he.cleared.trans he'.cleared
  · refine nodup_append'.mpr ⟨he.nodup, he'.nodup, fun e hp hp' => ?_⟩
    exact (he.mem_rest.mp (he'.mem e hp')).2 hp
  · intro e hp
    rcases mem_append.mp hp with hp | hp
    · exact he.mem e hp
    · exact (he.mem_rest.mp (he'.mem e hp)).1
  · rw [he'.rest, he.rest, toFinset_append]
    exact sdiff_sdiff_left

/-- What is still in the index has not been touched. -/
theorem state_eq (ht : s.Tidy []) (he : s.Evicted pairs s') {e : Entry} (hmem : e ∈ s'.entries) :
    s'.state e.2 = s.state e.2 := by
  obtain ⟨handle, hst'⟩ := (he.tidy.mem_entries.mp hmem).2
  obtain ⟨handle0, hst⟩ := (ht.mem_entries.mp (he.mem_rest.mp hmem).1).2
  refine he.cleared.kept_state (fun hc => ?_) (by simp [hst])
  rcases he.cleared.gone _ hc with hb | hb
  · rw [hst'] at hb
    cases hb
  · rw [hst'] at hb
    cases hb

/-- **A hash that is evicted has neither a primary nor an inactive block left.** -/
theorem evicted_gone (ht : s.Tidy []) (he : s.Evicted pairs s') {h : SequenceHash}
    (hh : h ∈ pairs.map Prod.fst) : s'.activeByHash h = none ∧ ∀ b, (h, b) ∉ s'.entries := by
  obtain ⟨⟨g, a⟩, hp, rfl⟩ := mem_map.mp hh
  have hmem := he.mem _ hp
  refine ⟨?_, fun b hb => ?_⟩
  · rw [he.cleared.active]
    cases hact : s.activeByHash g with
    | none => rfl
    | some => exact absurd hmem (ht.exclusive hact)
  · obtain ⟨hb, hnot⟩ := he.mem_rest.mp hb
    rw [LawfulIndex.hash_unique ht.index hb hmem] at hnot
    exact hnot hp

end Evicted

end Tidy

end Kvbm.BlockStore
