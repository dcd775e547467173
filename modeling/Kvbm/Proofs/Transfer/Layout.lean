/-
Addresses of annotated layouts.

No label occurs twice among the axes, so an axis is found by its label.  Setting the coordinate
of an axis that is not the region axis moves the address by the stride times the coordinate.
-/
import Kvbm.Transfer.Plan

namespace Kvbm

open Lib List Option

theorem KvDimLayout.dims_nodup (l : KvDimLayout) : l.dims.Nodup := by
  refine nodup_iff_count_le_one.mpr fun d => ?_
  have := l.block_one
  have := l.inner_le
  cases d with
  | block | headSize | payload => omega
  | layer => exact l.layer_le
  | outer => exact l.outer_le
  | page => exact l.page_le
  | headCount => exact l.headCount_le

namespace Transfer

/-- Zipping three lists of one length loses nothing of the first two. -/
theorem map_axes {dims : List KvDim} {sizes strides : List Nat}
    (hsizes : dims.length = sizes.length) (hstrides : strides.length = dims.length) :
    (zipWith (fun (a : KvDim × Nat) stride => (⟨a.1, a.2, stride⟩ : Axis)) (dims.zip sizes)
      strides).map (fun a => (a.dim, a.size)) = dims.zip sizes := by
  induction dims generalizing sizes strides with
  | nil => simp
  | cons d dims ih =>
    cases sizes with
    | nil => simp at hsizes
    | cons =>
      cases strides with
      | nil => simp at hstrides
      | cons =>
        simp only [length_cons, Nat.add_right_cancel_iff] at hsizes hstrides
        simp [ih hsizes hstrides]

namespace AnnotatedLayout

variable {l : AnnotatedLayout} {c : CoordByLabel} {a ax : Axis} {axes : List Axis} {d : KvDim}
  {o v x : Nat}

theorem axes_labels (l : AnnotatedLayout) :
    l.axes.map (fun a => (a.dim, a.size)) = l.dimLayout.dims.zip l.dimLayout.sizes :=
  map_axes l.dimLayout.rank l.rank

theorem axes_dims (l : AnnotatedLayout) : l.axes.map Axis.dim = l.dimLayout.dims := by
  have h := congrArg (List.map Prod.fst) l.axes_labels
  rw [List.map_map, List.map_fst_zip (Nat.le_of_eq l.dimLayout.rank)] at h
  exact h

theorem regionAxis_mem (h : l.regionAxis = some d) : d ∈ l.axes.map Axis.dim := by
  have hfit := l.regions_fit
  unfold RegionsFit at hfit
  rw [h] at hfit
  obtain ⟨p, hp, -⟩ := map_eq_some_iff.mp hfit
  have hpd : p.1 = d := by simpa using find?_some hp
  rw [l.axes_dims, ← hpd]
  exact (of_mem_zip (mem_of_find?_eq_some hp)).1

theorem axes_nodup (l : AnnotatedLayout) : (l.axes.map Axis.dim).Nodup := by
  rw [axes_dims]
  exact l.dimLayout.dims_nodup

theorem size_pos (h : a ∈ l.axes) : 0 < a.size := by
  have hz : (a.dim, a.size) ∈ l.dimLayout.dims.zip l.dimLayout.sizes := by
    rw [← axes_labels]
    exact mem_map.mpr ⟨a, h, rfl⟩
  have hmem : a.size ∈ l.dimLayout.sizes := (of_mem_zip hz).2
  exact Nat.pos_of_ne_zero fun h0 => l.dimLayout.sizes_pos (h0 ▸ hmem)

theorem axis_ext {b : Axis} (ha : a ∈ l.axes) (hb : b ∈ l.axes) (h : a.dim = b.dim) : a = b :=
  inj_on_of_nodup_map l.axes_nodup ha hb h

theorem axisAt_eq_some : l.axisAt d = some a ↔ a ∈ l.axes ∧ a.dim = d := by
  constructor
  · intro h
    exact ⟨mem_of_find?_eq_some h, by simpa using find?_some h⟩
  · intro ⟨ha, hd⟩
    cases hf : l.axisAt d with
    | none => exact absurd hd (by simpa using find?_eq_none.mp hf a ha)
    | some b =>
      have hb := mem_of_find?_eq_some hf
      have hbd : b.dim = d := by simpa using find?_some hf
      rw [axis_ext hb ha (hbd.trans hd.symm)]

theorem axisAt_of_mem (h : a ∈ l.axes) : l.axisAt a.dim = some a := axisAt_eq_some.mpr ⟨h, rfl⟩

/-! ### Setting a coordinate -/

theorem offset_set_of_not_mem (h : ∀ a ∈ axes, a.dim ≠ d) :
    l.offset (c.set d v) axes = l.offset c axes := by
  induction axes with
  | nil => rfl
  | cons a rest ih =>
    have ha : (c.set d v) a.dim = c a.dim := if_neg (h a (by simp))
    simp only [offset, ha, ih fun b hb => h b (by simp [hb])]

theorem offset_set (hnd : (axes.map Axis.dim).Nodup) (hax : ax ∈ axes)
    (hreg : some ax.dim ≠ l.regionAxis) (hc : c ax.dim = none) (hv : v < ax.size)
    (h : l.offset c axes = .ok o) : l.offset (c.set ax.dim v) axes = .ok (o + ax.stride * v) := by
  induction axes generalizing o with
  | nil => simp at hax
  | cons a rest ih =>
    rw [map_cons, nodup_cons] at hnd
    by_cases ha : a = ax
    · -- the axis itself: it counted as `0` before
      subst ha
      have hrest : l.offset (c.set a.dim v) rest = l.offset c rest :=
        offset_set_of_not_mem fun b hb hd => hnd.1 (mem_map.mpr ⟨b, hb, hd⟩)
      simp only [offset, if_neg hreg, hc, getD_none, Nat.mul_zero, Nat.zero_add] at h
      rw [if_neg (by omega)] at h
      obtain ⟨o', ho', rfl⟩ := map_eq_ok.mp h
      simp only [offset, if_neg hreg, CoordByLabel.set, if_true, getD_some]
      rw [if_neg (by omega)]
      exact map_eq_ok.mpr ⟨o', hrest.trans ho', Nat.add_comm _ _⟩
    · have hmem : ax ∈ rest := by
        cases mem_cons.mp hax with
        | inl h => exact absurd h.symm ha
        | inr h => exact h
      have hd : a.dim ≠ ax.dim := fun hd => hnd.1 (mem_map.mpr ⟨ax, hmem, hd.symm⟩)
      have hca : (c.set ax.dim v) a.dim = c a.dim := if_neg hd
      simp only [offset, hca] at h ⊢
      split at h
      next hr =>
        rw [if_pos hr]
        exact ih hnd.2 hmem h
      next hr =>
        rw [if_neg hr]
        obtain ⟨hlt, h⟩ := ite_error_eq_ok.mp h
        obtain ⟨o', ho', rfl⟩ := map_eq_ok.mp h
        rw [if_neg hlt, ih hnd.2 hmem ho']
        exact map_eq_ok.mpr ⟨_, rfl, (Nat.add_assoc _ _ _).symm⟩

theorem regionBase_set (hreg : some d ≠ l.regionAxis) :
    l.regionBase (c.set d v) = l.regionBase c := by
  unfold regionBase
  cases hr : l.regionAxis with
  | none => rfl
  | some r =>
    have : (c.set d v) r = c r := if_neg fun hrd => hreg (by rw [hr, hrd])
    simp only [this]

theorem addrOf_set (hax : ax ∈ l.axes) (hreg : some ax.dim ≠ l.regionAxis)
    (hc : c ax.dim = none) (hv : v < ax.size) (h : l.addrOf c = .ok x) :
    l.addrOf (c.set ax.dim v) = .ok (x + ax.stride * v) := by
  obtain ⟨base, hbase, hmap⟩ := bind_eq_ok.mp h
  obtain ⟨o, ho, rfl⟩ := map_eq_ok.mp hmap
  refine bind_eq_ok.mpr ⟨base, (regionBase_set hreg).trans hbase, ?_⟩
  exact map_eq_ok.mpr ⟨_, offset_set l.axes_nodup hax hreg hc hv ho, (Nat.add_assoc _ _ _).symm⟩

end AnnotatedLayout

end Transfer

end Kvbm
