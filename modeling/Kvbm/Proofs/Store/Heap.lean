/-
Reference counts.

How each change of the heap changes the counts.  Everything else in the development
reads the counts through these equations.
-/
import Kvbm.Store.Step

namespace Kvbm.World

open Function Finset

variable {ι : Type} {w : World ι} {i p : InnerId}

@[simp] theorem strong_addGuard :
    (w.addGuard i).strong p = w.strong p + if p = i then 1 else 0 := by
  have hkept : (w.addGuard i).kept p = w.kept p := rfl
  unfold strong
  rw [hkept]
  by_cases hp : p = i
  · subst hp
    simp only [addGuard, update_self, if_true]
    omega
  · simp [addGuard, hp]

theorem strong_subGuard (hi : 0 < w.guards i) :
    (w.subGuard i).strong p + (if p = i then 1 else 0) = w.strong p := by
  have hkept : (w.subGuard i).kept p = w.kept p := rfl
  unfold strong
  rw [hkept]
  by_cases hp : p = i
  · subst hp
    simp only [subGuard, update_self, if_true]
    omega
  · simp [subGuard, hp]

theorem strong_subGuard_le (hi : 0 < w.guards i) : (w.subGuard i).strong p ≤ w.strong p := by
  have := strong_subGuard (p := p) hi
  omega

theorem guards_le_strong : w.guards i ≤ w.strong i := by
  unfold strong
  omega

/-- A new object refers to at most one other, and nothing refers to it. -/
theorem kept_newInner {x : ImmutableBlockInner} :
    (w.newInner x).kept p = w.kept p + if x.keepalive = some p then 1 else 0 := by
  have hold : (range w.nextInner).filter (fun j => ((w.newInner x).inners j).keepalive = some p) =
      (range w.nextInner).filter fun j => (w.inners j).keepalive = some p := by
    refine filter_congr fun j hj => ?_
    have hne : j ≠ w.nextInner := (mem_range.mp hj).ne
    simp [newInner, hne]
  have hself : ((w.newInner x).inners w.nextInner).keepalive = x.keepalive := by
    simp [newInner]
  unfold kept
  show ((range (w.nextInner + 1)).filter _).card = _
  rw [range_add_one, filter_insert, hself, hold]
  split_ifs
  · rw [card_insert_of_notMem (by simp)]
  · rfl

theorem strong_newInner {x : ImmutableBlockInner} :
    (w.newInner x).strong p = w.strong p + if x.keepalive = some p then 1 else 0 := by
  unfold strong
  rw [kept_newInner, ← Nat.add_assoc]
  rfl

/-- Dropping the fields of an object gives up one reference. -/
theorem kept_clearKeepalive (hi : i < w.nextInner) :
    (w.clearKeepalive i).kept p + (if (w.inners i).keepalive = some p then 1 else 0) =
      w.kept p := by
  have hnew : (range w.nextInner).filter
        (fun j => ((w.clearKeepalive i).inners j).keepalive = some p) =
      ((range w.nextInner).filter fun j => (w.inners j).keepalive = some p).erase i := by
    ext j
    rw [mem_erase, mem_filter, mem_filter]
    by_cases hj : j = i
    · subst hj
      simp [clearKeepalive]
    · simp [clearKeepalive, hj]
  unfold kept
  show ((range w.nextInner).filter _).card + _ = _
  rw [hnew]
  split_ifs with hk
  · rw [card_erase_add_one]
    exact mem_filter.mpr ⟨mem_range.mpr hi, hk⟩
  rw [erase_eq_of_notMem]
  · rfl
  · exact fun hmem => hk (mem_filter.mp hmem).2

theorem strong_clearKeepalive (hi : i < w.nextInner) :
    (w.clearKeepalive i).strong p + (if (w.inners i).keepalive = some p then 1 else 0) =
      w.strong p := by
  have hkept := kept_clearKeepalive (p := p) hi
  unfold strong
  rw [← hkept]
  show w.guards p + w.marking.count p + _ + _ = _
  omega

/-- Moving an object changes its slot only. -/
theorem setBlockId_fields (id : BlockId) (k : InnerId) :
    ((w.setBlockId i id).inners k).keepalive = (w.inners k).keepalive ∧
      ((w.setBlockId i id).inners k).isPrimary = (w.inners k).isPrimary ∧
      ((w.setBlockId i id).inners k).seqHash = (w.inners k).seqHash ∧
      ((w.setBlockId i id).inners k).handle = (w.inners k).handle := by
  by_cases hk : k = i
  · subst hk
    simp [setBlockId]
  · simp [setBlockId, hk]

@[simp] theorem setBlockId_self (id : BlockId) :
    (w.setBlockId i id).inners i = { w.inners i with blockId := id } := update_self _ _ _

theorem setBlockId_ne {k : InnerId} {id : BlockId} (hk : k ≠ i) :
    (w.setBlockId i id).inners k = w.inners k := update_of_ne hk _ _

@[simp] theorem strong_setBlockId (id : BlockId) : (w.setBlockId i id).strong p = w.strong p := by
  have hkept : (w.setBlockId i id).kept p = w.kept p := by
    unfold kept
    congr 1
    refine filter_congr fun j _ => ?_
    rw [(setBlockId_fields id j).1]
  unfold strong
  rw [hkept]
  rfl

/-- A reference from a duplicate counts. -/
theorem strong_pos_of_keepalive (hi : i < w.nextInner) (hk : (w.inners i).keepalive = some p) :
    0 < w.strong p := by
  have := strong_clearKeepalive (p := p) hi
  rw [if_pos hk] at this
  omega

end Kvbm.World
