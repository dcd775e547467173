/-
A plan moves exactly the selected bytes.

The coordinates selected are those of the block pairs and of the ranges of the other axes, taken on
both sides at once.  The outer iteration visits them with the inner axes at `0`.  The inner axes
are laid out row by row in both layouts, so that one copy from where they all are `0` is the same
bytes, in the same order, as one element after the other.  Merging copies that continue each other
only moves bytes from one copy to the next.
-/
import Kvbm.Proofs.Transfer.Layout
import Kvbm.Lib.Rows
import Mathlib.Data.List.TakeWhile
import Mathlib.Order.Bounds.Defs

namespace Kvbm.Transfer

open Lib List Option AnnotatedLayout

variable {src dst : AnnotatedLayout} {sel : TransferSelection} {c c' : CoordByLabel}
  {pairs : List (Nat × Nat)} {cap : Option Nat} {elem : Nat}

/-! ### The bytes of a plan -/

/-- The pairs of addresses that a copy reads and writes. -/
def CopyOp.bytes (op : CopyOp) : List (Nat × Nat) := run op.srcAddr op.dstAddr op.size

theorem bytes_mergeRuns (last : CopyOp) (ops : List CopyOp) :
    (mergeRuns last ops).flatMap CopyOp.bytes = (last :: ops).flatMap CopyOp.bytes := by
  induction ops generalizing last with
  | nil => rfl
  | cons op rest ih =>
    unfold mergeRuns
    split
    next h =>
      rw [ih]
      simp only [flatMap_cons, CopyOp.bytes, ← append_assoc]
      rw [← h.1, ← h.2, run_append]
    next => simp only [flatMap_cons, ih]

theorem bytes_coalesce (ops : List CopyOp) :
    ((coalesce ops).flatMap CopyOp.bytes).Perm (ops.flatMap CopyOp.bytes) := by
  have hsort := perm_insertionSort (fun a b : CopyOp => a.srcAddr ≤ b.srcAddr) ops
  refine List.Perm.trans ?_ (hsort.flatMap_right _)
  unfold coalesce
  cases h : ops.insertionSort fun a b => a.srcAddr ≤ b.srcAddr with
  | nil => exact .refl _
  | cons => rw [bytes_mergeRuns]

def CopyPlan.ops : CopyPlan → List CopyOp
  | .direct ops => ops
  | .transform _ _ _ _ _ ops => ops
  | .staged _ _ _ => []

/-! ### The selected coordinates -/

/-- All coordinates that the axes take, on both sides. -/
def coordPairs (pairs : List (Nat × Nat)) :
    List (KvDim × OuterRange) → CoordByLabel → CoordByLabel → List (CoordByLabel × CoordByLabel)
  | [], c, c' => [(c, c')]
  | (label, range) :: rest, c, c' =>
    (axisSteps pairs label range).flatMap fun step =>
      coordPairs pairs rest (c.set label step.1) (c'.set label step.2)

/-- The coordinates that are to be copied, with where they go. -/
def selectedCoords (src : AnnotatedLayout) (sel : TransferSelection) :
    List (CoordByLabel × CoordByLabel) :=
  coordPairs sel.blockPairs (src.axes.map (outerRange sel)) .new .new

theorem coordPairs_append {outer inner : List (KvDim × OuterRange)} :
    coordPairs pairs (outer ++ inner) c c' =
      (coordPairs pairs outer c c').flatMap fun p => coordPairs pairs inner p.1 p.2 := by
  induction outer generalizing c c' with
  | nil => simp [coordPairs]
  | cons a rest ih => simp only [cons_append, coordPairs, ih, flatMap_assoc]

/-- Axes that are not iterated keep their coordinate. -/
theorem coordPairs_keeps {axes : List (KvDim × OuterRange)} {d : KvDim}
    (hd : d ∉ axes.map Prod.fst) {p : CoordByLabel × CoordByLabel}
    (hp : p ∈ coordPairs pairs axes c c') : p.1 d = c d ∧ p.2 d = c' d := by
  induction axes generalizing c c' with
  | nil =>
    rw [mem_singleton.mp hp]
    exact ⟨rfl, rfl⟩
  | cons a rest ih =>
    rw [map_cons, mem_cons, not_or] at hd
    obtain ⟨step, -, hp⟩ := mem_flatMap.mp hp
    obtain ⟨h1, h2⟩ := ih hd.2 hp
    exact ⟨h1.trans (if_neg hd.1), h2.trans (if_neg hd.1)⟩

/-! ### Addresses of coordinates -/

def AnnotatedLayout.addr (l : AnnotatedLayout) (c : CoordByLabel) : Nat :=
  match l.addrOf c with
  | .ok a => a
  | .error _ => 0

theorem AnnotatedLayout.addr_eq {l : AnnotatedLayout} {a : Nat} (h : l.addrOf c = .ok a) :
    l.addr c = a := by
  rw [addr, h]

def Addressed (src dst : AnnotatedLayout) (p : CoordByLabel × CoordByLabel) : Prop :=
  (∃ a, src.addrOf p.1 = .ok a) ∧ ∃ a, dst.addrOf p.2 = .ok a

/-- The bytes of one element, from where it lies to where it goes. -/
def elementBytes (src dst : AnnotatedLayout) (p : CoordByLabel × CoordByLabel) : List (Nat × Nat) :=
  run (src.addr p.1) (dst.addr p.2) src.elemSize

/-- The operations copy every selected element to its place, each byte once, and nothing else. -/
structure Moves (src dst : AnnotatedLayout) (sel : TransferSelection) (ops : List CopyOp) :
    Prop where
  addressed : ∀ p ∈ selectedCoords src sel, Addressed src dst p
  bytes : (ops.flatMap CopyOp.bytes).Perm ((selectedCoords src sel).flatMap (elementBytes src dst))

variable {ops : List CopyOp} {outer : List Axis}

theorem emitOuter_eq {n : Nat} {outer : List (KvDim × OuterRange)}
    (h : emitOuter src dst pairs n outer c c' = .ok ops) :
    (∀ p ∈ coordPairs pairs outer c c', Addressed src dst p) ∧
      ops = (coordPairs pairs outer c c').map fun p => ⟨src.addr p.1, dst.addr p.2, n⟩ := by
  induction outer generalizing c c' ops with
  | nil =>
    obtain ⟨a, ha, hmap⟩ := bind_eq_ok.mp h
    obtain ⟨b, hb, rfl⟩ := map_eq_ok.mp hmap
    have ha := mapError_eq_ok.mp ha
    have hb := mapError_eq_ok.mp hb
    simp only [coordPairs, mem_singleton, forall_eq, map_cons, map_nil]
    exact ⟨⟨⟨a, ha⟩, ⟨b, hb⟩⟩, by rw [addr_eq ha, addr_eq hb]⟩
  | cons axis rest ih =>
    obtain ⟨label, range⟩ := axis
    obtain ⟨hall, rfl⟩ := collect_eq_ok (fun step _ ops hops => ih hops) h
    constructor
    · intro p hp
      obtain ⟨step, hstep, hp⟩ := mem_flatMap.mp hp
      exact hall step hstep p hp
    · simp only [coordPairs, map_flatMap]

/-! ### The inner run -/

/-- The bytes of the axes, when nothing lies between them. -/
def extent (elem : Nat) : List Axis → Nat
  | [] => elem
  | a :: rest => extent elem rest * a.size

/-- Every axis steps over all that the axes inside of it hold. -/
def RowMajor (elem : Nat) : List Axis → Prop
  | [] => True
  | a :: rest => a.stride = extent elem rest ∧ RowMajor elem rest

/-- Axes at the same places in both layouts, laid out row by row in both. -/
structure Folded (src dst : AnnotatedLayout) (sel : TransferSelection)
    (inner : List (Axis × Axis)) : Prop where
  foldable : ∀ a ∈ inner, foldable src dst sel a
  mem_src : ∀ a ∈ inner, a.1 ∈ src.axes
  mem_dst : ∀ a ∈ inner, a.2 ∈ dst.axes
  nodup : (inner.map fun a => a.1.dim).Nodup
  src_rows : RowMajor src.elemSize (inner.map Prod.fst)
  dst_rows : RowMajor src.elemSize (inner.map Prod.snd)

variable {inner : List (Axis × Axis)} {a : Axis × Axis} {n m : Nat}

theorem Folded.tail (h : Folded src dst sel (a :: inner)) : Folded src dst sel inner where
  foldable b hb := h.foldable b (by simp [hb])
  mem_src b hb := h.mem_src b (by simp [hb])
  mem_dst b hb := h.mem_dst b (by simp [hb])
  nodup := (nodup_cons.mp h.nodup).2
  src_rows := h.src_rows.2
  dst_rows := h.dst_rows.2

theorem foldable_iff :
    foldable src dst sel a ↔
      a.1.dim = a.2.dim ∧ a.1.size = a.2.size ∧ a.1.dim ≠ .block ∧
        some a.1.dim ≠ src.regionAxis ∧ some a.1.dim ≠ dst.regionAxis ∧
        sel.axisSlice a.1.dim = none := by
  simp [foldable]

/-- The two extents of a common suffix agree. -/
theorem Folded.extent_eq (h : Folded src dst sel inner) :
    extent elem (inner.map Prod.fst) = extent elem (inner.map Prod.snd) := by
  induction inner with
  | nil => rfl
  | cons a rest ih =>
    have hsize := (foldable_iff.mp (h.foldable a (by simp))).2.1
    simp only [map_cons, extent, ih h.tail, hsize]

theorem outerRange_of_foldable (h : foldable src dst sel a) :
    outerRange sel a.1 = (a.1.dim, ⟨0, 0, a.1.size⟩) := by
  unfold outerRange
  rw [(foldable_iff.mp h).2.2.2.2.2]

/-- Element after element of the inner axes is one run. -/
theorem Folded.inner_run (h : Folded src dst sel inner)
    (hc : ∀ a ∈ inner, c a.1.dim = none ∧ c' a.1.dim = none) {x y : Nat}
    (hx : src.addrOf c = .ok x) (hy : dst.addrOf c' = .ok y) :
    (∀ p ∈ coordPairs pairs (inner.map fun a => outerRange sel a.1) c c', Addressed src dst p) ∧
      (coordPairs pairs (inner.map fun a => outerRange sel a.1) c c').flatMap
        (elementBytes src dst) = run x y (extent src.elemSize (inner.map Prod.fst)) := by
  induction inner generalizing c c' x y with
  | nil =>
    simp only [map_nil, coordPairs, mem_singleton, forall_eq, flatMap_singleton,
      elementBytes, extent, addr_eq hx, addr_eq hy]
    exact ⟨⟨⟨x, hx⟩, ⟨y, hy⟩⟩, trivial⟩
  | cons a rest ih =>
    have hfold := h.foldable a (by simp)
    obtain ⟨hdim, hsize, hblock, hsrc, hdst, -⟩ := foldable_iff.mp hfold
    have hnot := (nodup_cons.mp h.nodup).1
    -- one row: all axes but the outermost
    have hrow : ∀ v < a.1.size,
        (∀ p ∈ coordPairs pairs (rest.map fun a => outerRange sel a.1) (c.set a.1.dim v)
            (c'.set a.1.dim v), Addressed src dst p) ∧
        (coordPairs pairs (rest.map fun a => outerRange sel a.1) (c.set a.1.dim v)
            (c'.set a.1.dim v)).flatMap (elementBytes src dst) =
          run (x + a.1.stride * v) (y + a.1.stride * v)
            (extent src.elemSize (rest.map Prod.fst)) := by
      intro v hv
      have hrest : ∀ b ∈ rest, (c.set a.1.dim v) b.1.dim = none ∧
          (c'.set a.1.dim v) b.1.dim = none := by
        intro b hb
        have hne : b.1.dim ≠ a.1.dim := fun he => hnot (mem_map.mpr ⟨b, hb, he⟩)
        have hcb := hc b (by simp [hb])
        exact ⟨(if_neg hne).trans hcb.1, (if_neg hne).trans hcb.2⟩
      have hstride : a.2.stride = a.1.stride := by
        rw [h.dst_rows.1, h.src_rows.1, ← h.tail.extent_eq]
      have hx' := addrOf_set (h.mem_src a (by simp)) hsrc (hc a (by simp)).1 hv hx
      have hy' : dst.addrOf (c'.set a.1.dim v) = .ok (y + a.1.stride * v) := by
        rw [hdim, ← hstride]
        refine addrOf_set (h.mem_dst a (by simp)) (hdim ▸ hdst) ?_ (hsize ▸ hv) hy
        exact hdim ▸ (hc a (by simp)).2
      exact ih h.tail hrest hx' hy'
    simp only [map_cons, outerRange_of_foldable hfold, coordPairs, axisSteps, if_neg hblock,
      Nat.zero_add, flatMap_map]
    constructor
    · intro p hp
      obtain ⟨v, hv, hp⟩ := mem_flatMap.mp hp
      exact (hrow v (mem_range.mp hv)).1 p hp
    · rw [flatMap_assoc, extent, ← flatMap_run_rows]
      refine flatMap_congr fun v hv => ?_
      rw [(hrow v (mem_range.mp hv)).2, h.src_rows.1]

/-! ### What the walk over the inner axes accepts -/

theorem checkedMul_eq_ok {a b n : Nat} {e : PlanError} (h : checkedMul a b e = .ok n) :
    n = a * b := by
  unfold checkedMul at h
  split at h
  · exact (Except.ok.inj h).symm
  · cases h

/-- The walk takes the first axes of `zs` on top of those known. -/
def Takes (elem : Nat) (zs known : List (Axis × Axis)) (accepted : Nat) (r : Nat × Nat) : Prop :=
  ∃ taken, taken <+: zs ∧ r.2 = accepted + taken.length ∧
    RowMajor elem ((taken.reverse ++ known).map Prod.fst) ∧
    RowMajor elem ((taken.reverse ++ known).map Prod.snd) ∧
    extent elem ((taken.reverse ++ known).map Prod.fst) = r.1

/-- The axes accepted lie row by row in both layouts, and hold the bytes counted. -/
theorem innerLoop_takes (known : List (Axis × Axis)) {zs : List (Axis × Axis)}
    {bytes accepted : Nat} {r : Nat × Nat}
    (hmem : ∀ a ∈ zs, a.1 ∈ src.axes ∧ a.2 ∈ dst.axes ∧ foldable src dst sel a)
    (hsrc : RowMajor elem (known.map Prod.fst)) (hdst : RowMajor elem (known.map Prod.snd))
    (hse : extent elem (known.map Prod.fst) = bytes)
    (hde : extent elem (known.map Prod.snd) = bytes)
    (h : innerLoop src dst cap (zs.map fun a => (a.1.dim, a.1.size)) bytes accepted = .ok r) :
    Takes elem zs known accepted r := by
  have hstop : ∀ zs, Takes elem zs known accepted (bytes, accepted) := fun zs =>
    ⟨[], nil_prefix, rfl, hsrc, hdst, hse⟩
  induction zs generalizing known bytes accepted with
  | nil =>
    cases h
    exact hstop []
  | cons z zs ih =>
    obtain ⟨hzs, hzd, hfold⟩ := hmem z (by simp)
    obtain ⟨hdim, hsize, -⟩ := foldable_iff.mp hfold
    have hs : src.axisAt z.1.dim = some z.1 := axisAt_of_mem hzs
    have hd : dst.axisAt z.1.dim = some z.2 := hdim ▸ axisAt_of_mem hzd
    simp only [map_cons, innerLoop, hs, hd, map_some] at h
    split at h
    next => exact Except.ok.inj h ▸ hstop _
    next hss =>
      split at h
      next => exact Except.ok.inj h ▸ hstop _
      next hds =>
        obtain ⟨next, hnext, h⟩ := bind_eq_ok.mp h
        split at h
        next => exact Except.ok.inj h ▸ hstop _
        next =>
          -- the axis becomes the outermost of those known
          have hs' : z.1.stride = extent elem (known.map Prod.fst) := by
            rw [hse]
            simpa using hss
          have hd' : z.2.stride = extent elem (known.map Prod.snd) := by
            rw [hde]
            simpa using hds
          have hsrc' : RowMajor elem ((z :: known).map Prod.fst) := ⟨hs', hsrc⟩
          have hdst' : RowMajor elem ((z :: known).map Prod.snd) := ⟨hd', hdst⟩
          have hse' : extent elem ((z :: known).map Prod.fst) = next := by
            simp only [map_cons, extent, hse, checkedMul_eq_ok hnext]
          have hde' : extent elem ((z :: known).map Prod.snd) = next := by
            simp only [map_cons, extent, hde, checkedMul_eq_ok hnext, hsize]
          obtain ⟨taken, hpre, hm, hrest⟩ := ih (z :: known) (fun a ha => hmem a (by simp [ha]))
            hsrc' hdst' hse' hde' h fun zs => ⟨[], nil_prefix, rfl, hsrc', hdst', hse'⟩
          refine ⟨z :: taken, cons_prefix_cons.mpr ⟨rfl, hpre⟩, ?_, ?_⟩
          · rw [hm, length_cons]
            omega
          · simpa using hrest

/-- The layouts cut at the inner run. -/
structure Cut (src dst : AnnotatedLayout) (sel : TransferSelection) (n m : Nat)
    (outer : List Axis) (inner : List (Axis × Axis)) : Prop where
  axes : src.axes = outer ++ inner.map Prod.fst
  folded : Folded src dst sel inner
  bytes : extent src.elemSize (inner.map Prod.fst) = n
  labels : ((matchingInnerSuffix src dst sel).drop
    ((matchingInnerSuffix src dst sel).length - m)).map Prod.fst = inner.map fun a => a.1.dim

theorem mem_innermostFirst (h : a ∈ innermostFirst src dst sel) :
    a.1 ∈ src.axes ∧ a.2 ∈ dst.axes ∧ foldable src dst sel a := by
  have hzip : a ∈ src.axes.zip dst.axes := mem_reverse.mp ((takeWhile_sublist _).subset h)
  exact ⟨(of_mem_zip hzip).1, (of_mem_zip hzip).2, mem_takeWhile_imp h⟩

theorem Takes.cut (hrank : src.axes.length = dst.axes.length)
    (h : Takes src.elemSize (innermostFirst src dst sel) [] 0 (n, m)) :
    ∃ outer inner, Cut src dst sel n m outer inner := by
  obtain ⟨taken, hpre, hm, hsrc, hdst, hext⟩ := h
  simp only [append_nil, Nat.zero_add] at hsrc hdst hext hm
  obtain ⟨rest, hrest⟩ := hpre.trans <| takeWhile_prefix _
  have hzip : src.axes.zip dst.axes = rest.reverse ++ taken.reverse := by
    rw [← reverse_append, hrest, reverse_reverse]
  have haxes : src.axes = rest.reverse.map Prod.fst ++ taken.reverse.map Prod.fst := by
    rw [← map_append, ← hzip, map_fst_zip (Nat.le_of_eq hrank)]
  have hmem : ∀ a ∈ taken.reverse, a ∈ innermostFirst src dst sel := fun a ha =>
    hpre.subset (mem_reverse.mp ha)
  have htake : (innermostFirst src dst sel).take m = taken := by
    rw [hm]
    exact (prefix_iff_eq_take.mp hpre).symm
  refine ⟨rest.reverse.map Prod.fst, taken.reverse, haxes, ?_, hext, ?_⟩
  · refine ⟨fun a ha => (mem_innermostFirst (hmem a ha)).2.2,
      fun a ha => (mem_innermostFirst (hmem a ha)).1,
      fun a ha => (mem_innermostFirst (hmem a ha)).2.1, ?_, hsrc, hdst⟩
    have hnd := src.axes_nodup
    rw [haxes, map_append] at hnd
    have hinner := (nodup_append.mp hnd).2.1
    rw [List.map_map] at hinner
    exact hinner
  · rw [matchingInnerSuffix, length_reverse, ← reverse_take, ← map_take, htake,
      ← List.map_reverse, List.map_map]
    rfl

theorem Cut.dim_ne (h : Cut src dst sel n m outer inner) {b : Axis} (hb : b ∈ outer)
    (ha : a ∈ inner) : b.dim ≠ a.1.dim := by
  have hnd := src.axes_nodup
  rw [h.axes, map_append, nodup_append] at hnd
  exact hnd.2.2 b.dim (mem_map_of_mem hb) a.1.dim (mem_map_of_mem (mem_map_of_mem ha))

theorem Cut.outerAxes_eq (h : Cut src dst sel n m outer inner) :
    outerAxes src sel (matchingInnerSuffix src dst sel) m = outer.map (outerRange sel) := by
  simp only [outerAxes, h.labels]
  congr 1
  rw [h.axes, filter_append, filter_eq_self.mpr, filter_eq_nil_iff.mpr, append_nil]
  · intro a ha
    obtain ⟨b, hb, rfl⟩ := mem_map.mp ha
    simpa using ⟨b.1, ⟨b.2, hb⟩, rfl⟩
  · intro a ha
    simp only [decide_eq_true_eq]
    intro hin
    obtain ⟨b, hb, hd⟩ := mem_map.mp hin
    exact h.dim_ne ha hb hd.symm

theorem Cut.moves (h : Cut src dst sel n m outer inner) (hemit : emitOuter src dst sel.blockPairs n
      (outerAxes src sel (matchingInnerSuffix src dst sel) m) .new .new = .ok ops) :
    Moves src dst sel ops ∧ ∀ op ∈ ops, op.size = n := by
  rw [h.outerAxes_eq] at hemit
  obtain ⟨hall, rfl⟩ := emitOuter_eq hemit
  have hsel : selectedCoords src sel =
      (coordPairs sel.blockPairs (outer.map (outerRange sel)) .new .new).flatMap fun p =>
        coordPairs sel.blockPairs (inner.map fun a => outerRange sel a.1) p.1 p.2 := by
    rw [selectedCoords, h.axes, List.map_append, coordPairs_append, List.map_map]
    rfl
  -- from each outer coordinate on, the inner axes are one run
  have hrun : ∀ p ∈ coordPairs sel.blockPairs (outer.map (outerRange sel)) .new .new,
      (∀ q ∈ coordPairs sel.blockPairs (inner.map fun a => outerRange sel a.1) p.1 p.2,
        Addressed src dst q) ∧
      (coordPairs sel.blockPairs (inner.map fun a => outerRange sel a.1) p.1 p.2).flatMap
        (elementBytes src dst) = run (src.addr p.1) (dst.addr p.2) n := by
    intro p hp
    obtain ⟨⟨x, hx⟩, ⟨y, hy⟩⟩ := hall p hp
    rw [addr_eq hx, addr_eq hy, ← h.bytes]
    refine h.folded.inner_run (fun a ha => ?_) hx hy
    refine coordPairs_keeps (fun hin => ?_) hp
    obtain ⟨r, hr, hd⟩ := mem_map.mp hin
    obtain ⟨b, hb, rfl⟩ := mem_map.mp hr
    have hlabel : (outerRange sel b).1 = b.dim := by
      unfold outerRange
      split <;> rfl
    exact h.dim_ne hb ha (hlabel.symm.trans hd)
  refine ⟨⟨?_, ?_⟩, ?_⟩
  · rw [hsel]
    intro q hq
    obtain ⟨p, hp, hq⟩ := mem_flatMap.mp hq
    exact (hrun p hp).1 q hq
  · refine List.Perm.of_eq ?_
    rw [hsel, flatMap_assoc, flatMap_map]
    exact flatMap_congr fun p hp => (hrun p hp).2.symm
  · intro op hop
    obtain ⟨p, -, rfl⟩ := mem_map.mp hop
    rfl

/-! ### The planner -/

theorem extent_pos {axes : List Axis} (helem : 0 < elem) (h : ∀ a ∈ axes, 0 < a.size) :
    0 < extent elem axes := by
  induction axes with
  | nil => exact helem
  | cons a rest ih =>
    exact Nat.mul_pos (ih fun b hb => h b (by simp [hb])) (h a (by simp))

/-- Either nothing was folded, or what was taken is counted. -/
theorem computeInnerBytes_cases
    (h : computeInnerBytes src dst (matchingInnerSuffix src dst sel) = .ok (n, m)) :
    n = 0 ∧ m = 0 ∨
      0 < n ∧ m ≠ 0 ∧ Takes src.elemSize (innermostFirst src dst sel) [] 0 (n, m) := by
  obtain ⟨srcCap, -, h⟩ := bind_eq_ok.mp h
  obtain ⟨dstCap, -, h⟩ := bind_eq_ok.mp h
  simp only at h
  split at h
  · cases h
    exact .inl ⟨rfl, rfl⟩
  obtain ⟨r, hr, hif⟩ := map_eq_ok.mp h
  split at hif
  next =>
    cases hif
    exact .inl ⟨rfl, rfl⟩
  next hm =>
    subst hif
    rw [matchingInnerSuffix, reverse_reverse] at hr
    have ht := innerLoop_takes [] (fun a ha => mem_innermostFirst ha) trivial trivial rfl rfl hr
    refine .inr ⟨?_, hm, ht⟩
    obtain ⟨taken, hpre, -, -, -, hext⟩ := ht
    refine Nat.lt_of_lt_of_eq (extent_pos src.byteStrides.elem_pos fun a ha => ?_) hext
    obtain ⟨b, hb, rfl⟩ := mem_map.mp ha
    rw [append_nil, mem_reverse] at hb
    exact size_pos (mem_innermostFirst (hpre.subset hb)).1

/-- How the planner comes to a plan. -/
structure Planned (src dst : AnnotatedLayout) (sel : TransferSelection) (policy : CopyPolicy)
    (plan : CopyPlan) (n m : Nat) (ops : List CopyOp) : Prop where
  valid : validateAxisSlices src dst sel = .ok ()
  compatible : checkLabelCompatibility src dst sel = .ok ()
  elemSize : src.elemSize = dst.elemSize
  inner : computeInnerBytes src dst (matchingInnerSuffix src dst sel) = .ok (n, m)
  /-- The copies as they were emitted; the fallback emits none for an empty run. -/
  emitted : (n = 0 ∧ n < policy.minInnerBytes ∧ ops = []) ∨
    emitOuter src dst sel.blockPairs n
      (outerAxes src sel (matchingInnerSuffix src dst sel) m) .new .new = .ok ops
  plan_eq : (n < policy.minInnerBytes ∧
      ∃ permutation, plan = .transform src dst sel.blockPairs permutation .thresholdFallback ops) ∨
    (policy.minInnerBytes ≤ n ∧ plan = .direct (if policy.coalesce then coalesce ops else ops))

theorem planCopy_planned {policy : CopyPolicy} {plan : CopyPlan}
    (h : planCopy src dst sel policy = .ok plan) :
    ∃ n m ops, Planned src dst sel policy plan n m ops := by
  obtain ⟨_, hvalid, h⟩ := bind_eq_ok.mp h
  obtain ⟨_, hcompat, h⟩ := bind_eq_ok.mp h
  obtain ⟨_, helem, h⟩ := bind_eq_ok.mp h
  obtain ⟨_, -, h⟩ := bind_eq_ok.mp h
  obtain ⟨⟨n, m⟩, hinner, h⟩ := bind_eq_ok.mp h
  simp only at h
  split at h
  next hlt =>
    obtain ⟨ops, hops, h⟩ := bind_eq_ok.mp h
    obtain ⟨permutation, -, rfl⟩ := map_eq_ok.mp h
    refine ⟨n, m, ops, hvalid, hcompat, ensure_eq_ok.mp helem, hinner, ?_,
      .inl ⟨hlt, permutation, rfl⟩⟩
    split at hops
    next => exact .inr hops
    next hn => exact .inl ⟨by omega, hlt, (Except.ok.inj hops).symm⟩
  next hge =>
    obtain ⟨ops, hops, rfl⟩ := map_eq_ok.mp h
    exact ⟨n, m, ops, hvalid, hcompat, ensure_eq_ok.mp helem, hinner, .inr hops,
      .inr ⟨Nat.not_lt.mp hge, rfl⟩⟩

namespace Planned

variable {policy : CopyPolicy} {plan : CopyPlan} {n m : Nat} {ops : List CopyOp}
  (h : Planned src dst sel policy plan n m ops)

include h

theorem rank : src.axes.length = dst.axes.length := by
  obtain ⟨_, hrank, -⟩ := bind_eq_ok.mp h.compatible
  exact ensure_eq_ok.mp hrank

/-- The operations of a plan are those emitted, but for merging. -/
theorem ops_perm : (plan.ops.flatMap CopyOp.bytes).Perm (ops.flatMap CopyOp.bytes) := by
  obtain ⟨-, permutation, rfl⟩ | ⟨-, rfl⟩ := h.plan_eq
  · exact .refl _
  simp only [CopyPlan.ops]
  split
  · exact bytes_coalesce ops
  · exact .refl _

/-- With an inner run that is not empty, the plan moves the selected bytes. -/
theorem moves (hn : 0 < n) : Moves src dst sel plan.ops := by
  obtain ⟨h0, -⟩ | hemit := h.emitted
  · omega
  obtain ⟨h0, -⟩ | ⟨-, -, ht⟩ := computeInnerBytes_cases h.inner
  · omega
  obtain ⟨outer, inner, hcut⟩ := ht.cut h.rank
  have hmoves := (hcut.moves hemit).1
  exact ⟨hmoves.addressed, h.ops_perm.trans hmoves.bytes⟩

/-- With an empty inner run, the plan moves nothing. -/
theorem bytes_eq_nil (hn : n = 0) : plan.ops.flatMap CopyOp.bytes = [] := by
  refine perm_nil.mp (h.ops_perm.trans (List.Perm.of_eq ?_))
  obtain ⟨-, -, rfl⟩ | hemit := h.emitted
  · rfl
  obtain ⟨-, rfl⟩ := emitOuter_eq hemit
  refine flatMap_eq_nil_iff.mpr fun op hop => ?_
  obtain ⟨p, -, rfl⟩ := mem_map.mp hop
  exact run_eq_nil.mpr hn

theorem inner_pos (hne : plan.ops ≠ []) (hpos : ∀ op ∈ plan.ops, 0 < op.size) : 0 < n := by
  refine Nat.pos_of_ne_zero fun hn => ?_
  obtain ⟨op, hop⟩ := exists_mem_of_ne_nil _ hne
  have hnil := flatMap_eq_nil_iff.mp (h.bytes_eq_nil hn) op hop
  exact Nat.ne_of_gt (hpos op hop) (run_eq_nil.mp hnil)

end Planned

/-- **A plan whose operations are not empty moves exactly the selected bytes.** -/
theorem planCopy_moves (policy : CopyPolicy) {plan : CopyPlan}
    (h : planCopy src dst sel policy = .ok plan) (hne : plan.ops ≠ [])
    (hpos : ∀ op ∈ plan.ops, 0 < op.size) : Moves src dst sel plan.ops := by
  obtain ⟨n, m, ops, hp⟩ := planCopy_planned h
  exact hp.moves (hp.inner_pos hne hpos)

/-- Two tokens in each of two blocks, with a gap after every token. -/
def gappedTokens : AnnotatedLayout where
  regions := [100]
  regionAxis := none
  dimLayout := ⟨[.block, .page, .headSize], [2, 2, 2], by decide, by decide, by decide, by decide,
    by decide, by decide, by decide, by decide, by decide, by decide, by decide⟩
  byteStrides := ⟨[12, 6, 2], 2, by decide, by decide, by decide⟩
  rank := by decide
  regions_fit := by decide

/-- Two regions, one for each token; each holds three blocks. -/
def tokenRegions : AnnotatedLayout where
  regions := [1000, 2000]
  regionAxis := some .page
  dimLayout := ⟨[.page, .block, .headSize], [2, 3, 2], by decide, by decide, by decide, by decide,
    by decide, by decide, by decide, by decide, by decide, by decide, by decide⟩
  byteStrides := ⟨[12, 4, 2], 2, by decide, by decide, by decide⟩
  rank := by decide
  regions_fit := by decide

theorem planCopy_moves_regions :
    ∃ plan, planCopy gappedTokens tokenRegions
        ⟨[(0, 2), (1, 0)], [⟨.page, ⟨0, 1⟩, ⟨1, 2⟩⟩]⟩ ⟨4, true⟩ = .ok plan ∧
      plan.ops = [⟨100, 2008, 4⟩, ⟨112, 2000, 4⟩] ∧
      Moves gappedTokens tokenRegions ⟨[(0, 2), (1, 0)], [⟨.page, ⟨0, 1⟩, ⟨1, 2⟩⟩]⟩ plan.ops :=
  ⟨.direct [⟨100, 2008, 4⟩, ⟨112, 2000, 4⟩], rfl, rfl,
    planCopy_moves ⟨4, true⟩ rfl (by decide) (by decide)⟩

/-! ### Copies that could still be merged -/

/-- Where a copy begins, on both sides. -/
def CopyOp.start (op : CopyOp) : Nat × Nat := (op.srcAddr, op.dstAddr)

def CopyOp.stop (op : CopyOp) : Nat × Nat := (op.srcAddr + op.size, op.dstAddr + op.size)

/-- Sorting by source puts `a` before `b`. -/
def Precedes (ops : List CopyOp) (a b : CopyOp) : Prop :=
  a.srcAddr < b.srcAddr ∨ a.srcAddr = b.srcAddr ∧ [a, b] <+ ops

/-- No copy is sorted between two of which one continues the other. -/
def Unseparated (ops : List CopyOp) : Prop :=
  ∀ a ∈ ops, ∀ b ∈ ops, a.stop = b.start → ∀ k ∈ ops, ¬(Precedes ops a k ∧ Precedes ops k b)

/-- The copies that no other one continues. -/
def CopyOp.ends (ops : List CopyOp) (a : CopyOp) : Bool := ops.all fun b => a.stop ≠ b.start

theorem ends_iff {a : CopyOp} : a.ends ops ↔ ∀ b ∈ ops, a.stop ≠ b.start := by
  simp [CopyOp.ends]

section Merge

variable {merged last : CopyOp} (hstop : merged.stop = last.stop)

include hstop

end Merge

/-- Copies from one source address stay in their order. -/
theorem filter_sorted (ops : List CopyOp) (n : Nat) :
    (ops.insertionSort fun a b => a.srcAddr ≤ b.srcAddr).filter (·.srcAddr = n) =
      ops.filter (·.srcAddr = n) := by
  have hsorted : (ops.filter (·.srcAddr = n)).Pairwise fun a b => a.srcAddr ≤ b.srcAddr :=
    pairwise_of_forall_mem_list fun a ha b hb => by
      simp only [mem_filter, decide_eq_true_eq] at ha hb
      omega
  have hsub := (sublist_insertionSort hsorted filter_sublist).filter (·.srcAddr = n)
  simp only [List.filter_filter, Bool.and_self] at hsub
  exact (hsub.eq_of_length ((perm_insertionSort _ ops).filter _).length_eq.symm).symm

/-- Where nothing is sorted in between, a copy is followed by what continues it. -/
theorem Unseparated.next (hsep : Unseparated ops) (hsize : ∀ op ∈ ops, 0 < op.size) (a : CopyOp)
    (post : List CopyOp) (h : a :: post <:+ ops.insertionSort fun a b => a.srcAddr ≤ b.srcAddr) :
    a.ends ops ↔ ∀ b ∈ post.head?, a.stop ≠ b.start := by
  have hperm := perm_insertionSort (fun a b : CopyOp => a.srcAddr ≤ b.srcAddr) ops
  have hsorted := pairwise_insertionSort (fun a b : CopyOp => a.srcAddr ≤ b.srcAddr) ops
  have hprecedes : ∀ x y, [x, y] <+ a :: post → Precedes ops x y := by
    intro x y hxy
    replace hxy := hxy.trans h.sublist
    have hle := pairwise_pair.mp (Pairwise.sublist hxy hsorted)
    obtain hlt | heq := Nat.lt_or_eq_of_le hle
    · exact .inl hlt
    · have hsub := hxy.filter (·.srcAddr = y.srcAddr)
      rw [filter_sorted] at hsub
      exact .inr ⟨heq, by simpa [heq] using hsub.trans filter_sublist⟩
  have hmem : ∀ x ∈ a :: post, x ∈ ops := fun x hx => hperm.subset (h.subset hx)
  rw [ends_iff]
  refine ⟨fun hall b hb => hall b (hmem b (mem_cons_of_mem _ (mem_of_mem_head? hb))), ?_⟩
  intro hhead b hb hab
  -- the copy that continues `a` has a larger source address, and so comes after it
  have hpost : b ∈ post := by
    have hlt : a.srcAddr < b.srcAddr :=
      (Nat.lt_add_of_pos_right (hsize a (hmem a mem_cons_self))).trans_eq (congrArg Prod.fst hab)
    obtain ⟨pre, hpre⟩ := h
    rw [← hpre] at hperm hsorted
    obtain hb | hb := mem_append.mp (hperm.symm.subset hb)
    · exact absurd ((pairwise_append.mp hsorted).2.2 b hb a mem_cons_self) (by omega)
    · exact (mem_cons.mp hb).resolve_left (by rintro rfl; exact lt_irrefl _ hlt)
  cases post with
  | nil => cases hpost
  | cons k post =>
    have hb' := (mem_cons.mp hpost).resolve_left (by rintro rfl; exact hhead b rfl hab)
    exact hsep a (hmem a mem_cons_self) b hb hab k (hmem k (by simp))
      ⟨hprecedes a k (by simp), hprecedes k b (((singleton_sublist.mpr hb').cons_cons k).cons a)⟩

end Kvbm.Transfer
