/-
The beginning and the end of a tenure.

A slot becomes the primary of its hash when it is registered or brought back from the
index; it stops being one when its last reference has gone, and then it is reset or goes
to the index.  A duplicate is always reset.  What the end of a tenure does to the store
is one relation, `Retires`, whoever brings it about.
-/
import Kvbm.Proofs.Store.Hold

namespace Kvbm.BlockStore

open Function List Option

open Lib LawfulIndex

section Slots

variable {ι : Type} {s s' : BlockStore ι} {id : BlockId} {h : SequenceHash}
variable {handle : BlockRegistrationHandle} {i : InnerId}

@[simp] theorem becomePrimary_state_self :
    (s.becomePrimary id h handle i).state id = .primary h handle i := state_setState_self

theorem becomePrimary_state_ne {j : BlockId} (hj : j ≠ id) :
    (s.becomePrimary id h handle i).state j = s.state j := state_setState_ne hj

theorem setInactiveTenureState_spec (hr : s.setInactiveTenureState id h handle = some s') :
    s' = s.setSlot id { s.slots id with
      inactiveEpoch := (s.slots id).inactiveEpoch + 1, state := .inactive h handle } := by
  simp only [setInactiveTenureState] at hr
  split at hr
  · cases hr
  · cases hr
    rfl

/-- Taking the hash off the map and resetting the slot are independent. -/
theorem resetSlot_removeActive :
    (s.resetSlot id).removeActive h = (s.removeActive h).resetSlot id := by
  unfold resetSlot pushResetId
  split_ifs <;> first | rfl | contradiction

end Slots

variable {ι : Type} [InactiveIndex ι] [LawfulIndex ι]
variable {s s' : BlockStore ι} {out : List BlockId} {id : BlockId} {h : SequenceHash}
variable {handle : BlockRegistrationHandle} {i : InnerId}

/-! ### Beginnings -/

theorem Tidy.becomePrimary (ht : s.Tidy (id :: out)) (hno : s.activeByHash h = none)
    (hent : ∀ b, (h, b) ∉ s.entries) : (s.becomePrimary id h handle i).Tidy out :=
  (ht.setState mem_cons_self (.primary h handle i)).putActive state_setState_self hno hent

theorem Loose.becomePrimary {e : Entry} {l : List Entry} (hl : s.Loose (e :: l) out)
    (hf : s.Fresh (e :: l)) :
    (s.becomePrimary e.2 e.1 handle i).Loose l out ∧
      (s.becomePrimary e.2 e.1 handle i).Fresh l := by
  have htidy : (s.becomePrimary e.2 e.1 handle i).Tidy (l.map Prod.snd ++ out) :=
    hl.tidy.becomePrimary (hf.active e mem_cons_self) (hf.entries e mem_cons_self)
  obtain ⟨hnew, hnodup⟩ := nodup_cons.mp hf.nodup
  refine ⟨hl.tail htidy fun j hj _ => becomePrimary_state_ne hj, hnodup, fun e' he' => ?_,
    fun e' he' => hf.entries e' (mem_cons_of_mem _ he')⟩
  have hne : e'.1 ≠ e.1 := fun hc => hnew (hc ▸ mem_map_of_mem he')
  show update s.activeByHash e.1 (some e.2) e'.1 = none
  rw [update_of_ne hne]
  exact hf.active e' (mem_cons_of_mem _ he')

/-! ### Ends -/

/-- The slot has no owner any more; the other slots and the flags are as before. -/
structure Retires (s : BlockStore ι) (id : BlockId) (s' : BlockStore ι) : Prop where
  tidy : s'.Tidy []
  config : s'.config = s.config
  self : s'.state id = .reset ∨ ∃ h handle, s'.state id = .inactive h handle
  other : ∀ j, j ≠ id → s'.slots j = s.slots j
  flag : s'.resetOnRelease = s.resetOnRelease

section

variable (hr : s.Retires id s')

include hr

theorem Retires.owner : s'.owner id = none := by
  rcases hr.self with hst | ⟨h, handle, hst⟩ <;> simp [BlockStore.owner, hst, SlotState.owner]

theorem Retires.state_ne {j : BlockId} (hj : j ≠ id) :
    s'.state j = s.state j := congrArg BlockSlot.state (hr.other j hj)

/-- The registration goes with the slot. -/
theorem Retires.deregisters (hst : s'.state id = .reset) {b : Bool}
    (hreg : s.reg id = some (b, h, handle)) :
    s.Deregisters [id] s' ∧ s.HandlesOf [id] [handle] := by
  refine ⟨⟨nodup_singleton id, fun j hj => ?_, fun j hj => ?_⟩, ?_⟩
  · rw [mem_singleton.mp hj, hreg]
    exact ⟨by simp, by simp [reg, hst, SlotState.reg]⟩
  · exact congrArg SlotState.reg (hr.state_ne (by simpa using hj))
  · simp [HandlesOf, hreg]

theorem Retires.reg_eq (hst : s'.state id = .inactive h handle)
    (hreg : s.reg id = some (false, h, handle)) : s'.reg = s.reg := by
  funext j
  by_cases hj : j = id
  · rw [hj, hreg, reg, hst]
    rfl
  · exact congrArg SlotState.reg (hr.state_ne hj)

end

theorem resetSlot_retires (ht : (s.resetSlot id).Tidy []) : s.Retires id (s.resetSlot id) where
  tidy := ht
  config := pushResetId_config
  self := .inl resetSlot_state_self
  other _ hj := by simp [resetSlot, setState, setSlot, hj]
  flag := pushResetId_flags

variable (ht : s.Tidy [])

include ht

variable (hst : s.state id = .primary h handle i)

include hst

/-- **A primary goes to the index.** -/
theorem enterInactive_retires (hr : s.enterInactiveTenure id h handle = some s') :
    s.Retires id (s'.removeActive h) ∧ (s'.removeActive h).state id = .inactive h handle := by
  obtain ⟨s1, hs1, hr⟩ := bind_eq_some_iff.mp hr
  rw [setInactiveTenureState_spec hs1] at hr
  obtain ⟨ix, hix, hr⟩ := bind_eq_some_iff.mp hr
  cases hr
  have hact : s.activeByHash h = some id := ht.active_iff.mpr ⟨not_mem_nil, handle, i, hst⟩
  have hent : ∀ b, (h, b) ∉ s.entries := fun b => ht.exclusive hact
  have hout := (ht.takeActive hact).setSlot mem_cons_self { s.slots id with
    inactiveEpoch := (s.slots id).inactiveEpoch + 1, state := .inactive h handle }
  have hself : ((s.removeActive h).setSlot id { s.slots id with
      inactiveEpoch := (s.slots id).inactiveEpoch + 1, state := .inactive h handle }).state id =
    .inactive h handle := state_setSlot_self
  have hno : (s.removeActive h).activeByHash h = none := update_self _ _ _
  have htidy := hout.putInactive hself hno hent hix
  refine ⟨⟨htidy, rfl, .inr ⟨h, handle, hself⟩, fun j hj => ?_, rfl⟩, hself⟩
  exact update_of_ne hj _ _

/-- **The end of a primary**: it is reset if its flag says so, and goes to the index if not. -/
theorem retirePrimary_spec {absent : Option BlockRegistrationHandle}
    (hr : s.retirePrimary id h handle = some (absent, s')) :
    s.Retires id s' ∧
      (absent = some handle ∧ s.resetOnRelease id = true ∧ s'.state id = .reset ∨
        absent = none ∧ s.resetOnRelease id = false ∧ s'.state id = .inactive h handle) := by
  unfold retirePrimary at hr
  split_ifs at hr with hflag
  · cases hr
    have hact : s.activeByHash h = some id := ht.active_iff.mpr ⟨not_mem_nil, handle, i, hst⟩
    rw [resetSlot_removeActive]
    refine ⟨{ resetSlot_retires (ht.takeActive hact).resetSlot with }, .inl ?_⟩
    exact ⟨rfl, hflag, resetSlot_state_self⟩
  · obtain ⟨s1, hs1, hr⟩ := map_eq_some_iff.mp hr
    cases hr
    obtain ⟨hret, hself⟩ := enterInactive_retires ht hst hs1
    exact ⟨hret, .inr ⟨rfl, by simpa using hflag, hself⟩⟩

omit hst in
/-- **The end of a duplicate.** -/
theorem resetDuplicate_spec (hst : s.state id = .duplicate h handle i) :
    s.Retires id (s.resetSlot id) := by
  refine resetSlot_retires (Tidy.resetSlot (ht.takePlain not_mem_nil ?_ ?_))
  · exact ht.lt_capacity (by simp [hst])
  · simp [place, hst]

end Kvbm.BlockStore
