/-
Which slots are registered, and who owns them.

Most operations leave every registration where it is, whatever pool the block is in;
the others take some slots out of registration and hand out their handles to be marked
absent.  `Deregisters` says which, and a count of the slots of a handle follows.
-/
import Kvbm.Proofs.Store.Allocate
import Kvbm.Proofs.Store.Capacity

namespace Kvbm

open BlockStore SlotState Finset

/-- Whether a registered slot is a duplicate, its hash and its handle. -/
def SlotState.reg : SlotState → Option (Bool × SequenceHash × BlockRegistrationHandle)
  | .primary h handle _ => some (false, h, handle)
  | .duplicate h handle _ => some (true, h, handle)
  | .inactive h handle => some (false, h, handle)
  | .held h handle => some (false, h, handle)
  | _ => none

/-- The object a slot refers to. -/
def SlotState.owner : SlotState → Option InnerId
  | .primary _ _ i => some i
  | .duplicate _ _ i => some i
  | _ => none

namespace BlockStore

variable {ι : Type} {s s' s'' : BlockStore ι} {ids ids' : List BlockId}

def reg (s : BlockStore ι) (id : BlockId) :
    Option (Bool × SequenceHash × BlockRegistrationHandle) :=
  (s.state id).reg

def owner (s : BlockStore ι) (id : BlockId) : Option InnerId := (s.state id).owner

variable {id : BlockId}

theorem Blank.reg (hb : s.Blank id) : s.reg id = none := by
  rcases hb with hb | hb <;> simp [BlockStore.reg, hb, SlotState.reg]

theorem Blank.owner (hb : s.Blank id) : s.owner id = none := by
  rcases hb with hb | hb <;> simp [BlockStore.owner, hb, SlotState.owner]

section States

variable {id : BlockId} {h : SequenceHash} {x : BlockRegistrationHandle} {i : InnerId}

theorem reg_primary (hst : s.state id = .primary h x i) : s.reg id = some (false, h, x) := by
  simp [BlockStore.reg, hst, SlotState.reg]

theorem reg_duplicate (hst : s.state id = .duplicate h x i) : s.reg id = some (true, h, x) := by
  simp [BlockStore.reg, hst, SlotState.reg]

theorem reg_inactive (hst : s.state id = .inactive h x) : s.reg id = some (false, h, x) := by
  simp [BlockStore.reg, hst, SlotState.reg]

theorem owner_primary (hst : s.state id = .primary h x i) : s.owner id = some i := by
  simp [BlockStore.owner, hst, SlotState.owner]

theorem owner_duplicate (hst : s.state id = .duplicate h x i) : s.owner id = some i := by
  simp [BlockStore.owner, hst, SlotState.owner]

theorem owner_inactive (hst : s.state id = .inactive h x) : s.owner id = none := by
  simp [BlockStore.owner, hst, SlotState.owner]

end States

/-! ### Owned slots that do not change -/

/-- A slot that is owned before or after is the same before and after. -/
def SameOwned (s s' : BlockStore ι) : Prop :=
  ∀ id, s.owner id ≠ none ∨ s'.owner id ≠ none → s'.state id = s.state id

theorem SameOwned.refl (s : BlockStore ι) : s.SameOwned s := fun _ _ => rfl

theorem SameOwned.trans (h : s.SameOwned s') (h' : s'.SameOwned s'') : s.SameOwned s'' := by
  intro id ho
  by_cases hmid : s'.owner id = none
  · rcases ho with ho | ho
    · exact absurd (by rw [owner, ← h id (.inl ho)]; exact hmid) ho
    · exact absurd (by rw [owner, h' id (.inr ho)]; exact hmid) ho
  · exact (h' id (.inl hmid)).trans (h id (.inr hmid))

theorem SameOwned.of_state (h : s'.state = s.state) : s.SameOwned s' := fun id _ => congrFun h id

/-- Writing a slot that is not owned, with a state that is not. -/
theorem SameOwned.write (id : BlockId) (hold : s.owner id = none) (hnew : s'.owner id = none)
    (hother : ∀ j, j ≠ id → s'.state j = s.state j) : s.SameOwned s' := by
  intro j ho
  by_cases hj : j = id
  · subst hj
    exact absurd ho (by simp [hold, hnew])
  · exact hother j hj

theorem Cleared.sameOwned (hc : s.Cleared ids s') (hids : ∀ id ∈ ids, s.owner id = none) :
    s.SameOwned s' := by
  intro id ho
  by_cases hblank : s.Blank id
  · exact absurd ho (by simp [hblank.owner, (hc.blank hblank).owner])
  by_cases hid : id ∈ ids
  · exact absurd ho (by simp [hids id hid, (hc.gone id hid).owner])
  · exact hc.kept_state hid fun hst => hblank (.inl hst)

theorem Cleared.reg_eq (hc : s.Cleared ids s') {id : BlockId} (hid : id ∉ ids) :
    s'.reg id = s.reg id := by
  by_cases hst : s.state id = .reset
  · rw [(hc.reset id hst).reg, Blank.reg (.inl hst)]
  · exact congrArg SlotState.reg (hc.kept_state hid hst)

/-! ### Slots that lose their registration -/

/-- The slots `ids` were registered and are not any more; all others are as before. -/
structure Deregisters (s : BlockStore ι) (ids : List BlockId) (s' : BlockStore ι) : Prop where
  nodup : ids.Nodup
  lost : ∀ id ∈ ids, s.reg id ≠ none ∧ s'.reg id = none
  kept : ∀ id, id ∉ ids → s'.reg id = s.reg id

/-- The handles of these slots. -/
def HandlesOf (s : BlockStore ι) (ids : List BlockId) (handles : List BlockRegistrationHandle) :
    Prop :=
  ids.map (fun id => (s.reg id).map (·.2.2)) = handles.map some

namespace Deregisters

theorem refl (s : BlockStore ι) : s.Deregisters [] s := ⟨List.nodup_nil, by simp, fun _ _ => rfl⟩

theorem of_reg (h : s'.reg = s.reg) : s.Deregisters [] s' :=
  ⟨List.nodup_nil, by simp, fun id _ => congrFun h id⟩

theorem trans (hd : s.Deregisters ids s') (hd' : s'.Deregisters ids' s'') :
    s.Deregisters (ids ++ ids') s'' := by
  have hdisj : ∀ id ∈ ids', id ∉ ids := fun id hid' hid => (hd'.lost id hid').1 (hd.lost id hid).2
  refine ⟨List.nodup_append'.mpr ⟨hd.nodup, hd'.nodup, fun id hid hid' => hdisj id hid' hid⟩,
    ?_, ?_⟩
  · intro id hid
    rcases List.mem_append.mp hid with hid | hid
    · exact ⟨(hd.lost id hid).1, (hd'.kept id fun h => hdisj id h hid).trans (hd.lost id hid).2⟩
    · exact ⟨hd.kept id (hdisj id hid) ▸ (hd'.lost id hid).1, (hd'.lost id hid).2⟩
  · intro id hid
    exact (hd'.kept id fun h => hid (List.mem_append_right _ h)).trans
      (hd.kept id fun h => hid (List.mem_append_left _ h))

theorem handlesOf_append (hd : s.Deregisters ids s') (hd' : s'.Deregisters ids' s'')
    {handles handles' : List BlockRegistrationHandle} (hh : s.HandlesOf ids handles)
    (hh' : s'.HandlesOf ids' handles') : s.HandlesOf (ids ++ ids') (handles ++ handles') := by
  unfold HandlesOf at *
  rw [List.map_append, List.map_append, hh, ← hh']
  congr 1
  refine List.map_congr_left fun id hid => ?_
  rw [hd.kept id fun h => (hd'.lost id hid).1 (hd.lost id h).2]

end Deregisters

def regCount (s : BlockStore ι) (x : BlockRegistrationHandle) : Nat :=
  ((range s.slotCount).filter fun id => (s.reg id).map (·.2.2) = some x).card

/-- **The slots of a handle go down by as many as the handle is handed out.** -/
theorem Deregisters.regCount (hd : s.Deregisters ids s') (hcount : s'.slotCount = s.slotCount)
    {handles : List BlockRegistrationHandle} (hh : s.HandlesOf ids handles)
    (hlt : ∀ id ∈ ids, id < s.slotCount) (x : BlockRegistrationHandle) :
    s.regCount x = s'.regCount x + handles.count x := by
  classical
  have hlost : handles.count x = (ids.filter fun id => (s.reg id).map (·.2.2) = some x).length := by
    have hsome : handles.count x = (handles.map some).count (some x) :=
      (List.count_map_of_injective _ _ (Option.some_injective _) x).symm
    rw [hsome, ← hh, List.count, List.countP_map, List.countP_eq_length_filter]
    congr 1
    refine List.filter_congr fun id _ => ?_
    simp [beq_eq_decide]
  have hsplit : (range s.slotCount).filter (fun id => (s.reg id).map (·.2.2) = some x) =
      (range s.slotCount).filter (fun id => (s'.reg id).map (·.2.2) = some x) ∪
        (ids.filter fun id => (s.reg id).map (·.2.2) = some x).toFinset := by
    ext id
    simp only [mem_filter, mem_union, List.mem_toFinset, List.mem_filter,
      decide_eq_true_eq, mem_range]
    by_cases hid : id ∈ ids
    · simp [hid, (hd.lost id hid).2, hlt id hid]
    · simp [hid, hd.kept id hid]
  have hdisj : Disjoint
      ((range s.slotCount).filter fun id => (s'.reg id).map (·.2.2) = some x)
      (ids.filter fun id => (s.reg id).map (·.2.2) = some x).toFinset := by
    rw [disjoint_left]
    intro id hid hid'
    have hmem := (List.mem_filter.mp (List.mem_toFinset.mp hid')).1
    have hnone := (mem_filter.mp hid).2
    rw [(hd.lost id hmem).2] at hnone
    cases hnone
  unfold BlockStore.regCount
  rw [hcount, hsplit, Finset.card_union_of_disjoint hdisj, hlost,
    List.toFinset_card_of_nodup (hd.nodup.filter _)]

/-- The slot of a guard of an unregistered block, or of a plan, is in no list. -/
theorem Tidy.guard_out [InactiveIndex ι] [LawfulIndex ι] (ht : s.Tidy [])
    (hst : s.state id = .mutable ∨ ∃ h, s.state id = .staged h) :
    s.Tidy [id] ∧ s.reg id = none ∧ s.owner id = none ∧ id < s.slotCount := by
  have hlt : id < s.capacity := by
    refine ht.lt_capacity ?_
    rcases hst with hst | ⟨h, hst⟩ <;> simp [hst]
  refine ⟨ht.takePlain List.not_mem_nil hlt ?_, ?_, ?_, hlt.trans_le ht.slots⟩
  · rcases hst with hst | ⟨h, hst⟩ <;> simp [place, hst]
  · rcases hst with hst | ⟨h, hst⟩ <;> simp [reg, hst, SlotState.reg]
  · rcases hst with hst | ⟨h, hst⟩ <;> simp [owner, hst, SlotState.owner]

/-! ### Evictions -/

section Evictions

variable [InactiveIndex ι] [LawfulIndex ι] {pairs : List Entry}

theorem Tidy.reg_of_mem {out : List BlockId} (ht : s.Tidy out) {e : Entry} (he : e ∈ s.entries) :
    ∃ handle, s.state e.2 = .inactive e.1 handle ∧ s.reg e.2 = some (false, e.1, handle) ∧
      s.owner e.2 = none := by
  obtain ⟨handle, hst⟩ := (ht.mem_entries.mp he).2
  exact ⟨handle, hst, reg_inactive hst, owner_inactive hst⟩

theorem Evicted.sameOwned (ht : s.Tidy []) (he : s.Evicted pairs s') : s.SameOwned s' := by
  refine he.cleared.sameOwned fun id hid => ?_
  obtain ⟨e, hp, rfl⟩ := List.mem_map.mp hid
  obtain ⟨-, -, -, ho⟩ := ht.reg_of_mem (he.mem e hp)
  exact ho

theorem Evicted.deregisters (ht : s.Tidy []) (he : s.Evicted pairs s') :
    s.Deregisters (pairs.map Prod.snd) s' := by
  refine ⟨he.nodup.map_on fun e hp e' hp' => ht.snd_injOn (he.mem e hp) (he.mem e' hp'), ?_, ?_⟩
  · intro id hid
    obtain ⟨e, hp, rfl⟩ := List.mem_map.mp hid
    obtain ⟨handle, -, hreg, -⟩ := ht.reg_of_mem (he.mem e hp)
    exact ⟨by simp [hreg], (he.cleared.gone _ hid).reg⟩
  · exact fun id => he.cleared.reg_eq

end Evictions

end BlockStore

end Kvbm
