/-
When a transfer moves all that was asked.

The planner folds nothing into the inner run when not even the innermost axis can be folded.  It
then counts zero bytes, and the plan either has no operations, which the executor takes for a
completed transfer, or has operations of size zero.  In all other cases the plan moves the
selected bytes.
-/
import Kvbm.Transfer.Lower
import Kvbm.Proofs.Transfer.Plan

namespace Kvbm.Transfer

open Lib List Option AnnotatedLayout

variable {src dst : AnnotatedLayout} {sel : TransferSelection} {elem : Nat}

/-! ### The innermost axis -/

/-- The innermost axis is one and the same in both layouts, with its elements side by side in
both; it is no block or region axis and is not sliced. -/
def InnermostFolds (src dst : AnnotatedLayout) (sel : TransferSelection) : Prop :=
  ∃ a, (src.axes.zip dst.axes).getLast? = some a ∧ foldable src dst sel a ∧
    a.1.stride = src.elemSize ∧ a.2.stride = src.elemSize

theorem rowMajor_of_append {axes rest : List Axis} (h : RowMajor elem (axes ++ rest)) :
    RowMajor elem rest := by
  induction axes with
  | nil => exact h
  | cons a axes ih => exact ih h.2

variable {n m : Nat}

theorem innermostFolds_of_takes (hm : m ≠ 0)
    (h : Takes src.elemSize (innermostFirst src dst sel) [] 0 (n, m)) :
    InnermostFolds src dst sel := by
  obtain ⟨taken, hpre, hlen, hsrc, hdst, -⟩ := h
  cases taken with
  | nil => exact absurd hlen hm
  | cons a taken =>
    simp only [reverse_cons, append_nil, map_append] at hsrc hdst
    obtain ⟨rest, hrest⟩ := hpre.trans <| takeWhile_prefix _
    have hzip : src.axes.zip dst.axes = (taken ++ rest).reverse ++ [a] := by
      rw [← reverse_cons, ← cons_append, hrest, reverse_reverse]
    refine ⟨a, by rw [hzip, getLast?_concat], ?_, (rowMajor_of_append hsrc).1,
      (rowMajor_of_append hdst).1⟩
    exact (mem_innermostFirst (hpre.subset (by simp))).2.2

/-! ### The bound of a region -/

variable {a : Axis} {cap : Option Nat} {candidates : List Candidate} {width : Nat}

/-- The bytes of the region hold the innermost axis. -/
theorem foldlM_cap_ge {mid : List Axis} {b cap : Nat} (hpos : ∀ x ∈ mid, 0 < x.size)
    (h : (mid ++ [a]).foldlM (fun bytes x => checkedMul bytes x.size .regionCapOverflow) b =
      .ok cap) : b * a.size ≤ cap := by
  induction mid generalizing b with
  | nil =>
    simp only [nil_append, foldlM_cons, foldlM_nil, bind_pure] at h
    exact Nat.le_of_eq (checkedMul_eq_ok h).symm
  | cons x mid ih =>
    rw [cons_append, foldlM_cons] at h
    obtain ⟨next, hnext, h⟩ := bind_eq_ok.mp h
    have hle : b ≤ next := by
      rw [checkedMul_eq_ok hnext]
      exact Nat.le_mul_of_pos_right b (hpos x (by simp))
    exact Nat.le_trans (Nat.mul_le_mul_right _ hle) (ih (fun y hy => hpos y (by simp [hy])) h)

theorem regionCap_ge {l : AnnotatedLayout} {cap : Nat}
    (hlast : l.axes.getLast? = some a) (hreg : some a.dim ≠ l.regionAxis)
    (h : regionCapBytes l = .ok (some cap)) : l.elemSize * a.size ≤ cap := by
  obtain ⟨init, hinit⟩ := getLast?_eq_some_iff.mp hlast
  unfold regionCapBytes at h
  cases hr : l.regionAxis with
  | none =>
    rw [hr] at h
    cases h
  | some d =>
    rw [hr] at h
    obtain ⟨bytes, hbytes, he⟩ := map_eq_ok.mp h
    obtain rfl := some.inj he
    -- the region axis is not the last one, so the last one is among those dropped to
    have hidx : l.axes.findIdx (fun x => x.dim = d) < init.length := by
      obtain ⟨x, hx, hxd⟩ := mem_map.mp (regionAxis_mem hr)
      have hne : x ≠ a := fun he => hreg (by rw [hr, ← hxd, he])
      rw [hinit] at hx ⊢
      have hxi : x ∈ init := (mem_append.mp hx).resolve_right (by simpa using hne)
      have hlt : init.findIdx (fun x => x.dim = d) < init.length :=
        findIdx_lt_length_of_exists ⟨x, hxi, by simpa using hxd⟩
      rw [findIdx_append, if_pos hlt]
      exact hlt
    generalize l.axes.findIdx (fun x => x.dim = d) = i at hidx hbytes
    rw [hinit, drop_append_of_le_length hidx] at hbytes
    refine foldlM_cap_ge (fun x hx => ?_) hbytes
    have hmem : x ∈ l.axes := by
      rw [hinit]
      exact mem_append_left _ (drop_subset _ _ hx)
    exact size_pos hmem

theorem not_exceeds {a b : Option Nat} {k : Nat} (ha : ∀ c, a = some c → k ≤ c)
    (hb : ∀ c, b = some c → k ≤ c) : ¬exceeds k (minCap a b) := by
  cases a with
  | none =>
    cases b with
    | none => simp [minCap, exceeds]
    | some y => simpa [minCap, exceeds] using hb y rfl
  | some x =>
    cases b with
    | none => simpa [minCap, exceeds] using ha x rfl
    | some y =>
      have hx := ha x rfl
      have hy := hb y rfl
      simp only [minCap, exceeds, decide_eq_true_eq]
      omega

theorem exceeds_mono {j k : Nat} (hjk : j ≤ k) (h : exceeds j cap) : exceeds k cap := by
  cases cap with
  | none => exact h
  | some =>
    simp only [exceeds, decide_eq_true_eq] at h ⊢
    omega

theorem innerLoop_accepts {a : Axis × Axis} {zs : List (Axis × Axis)} {r : Nat × Nat}
    (hmem : ∀ b ∈ a :: zs, b.1 ∈ src.axes ∧ b.2 ∈ dst.axes ∧ foldable src dst sel b)
    (hs : a.1.stride = src.elemSize) (hd : a.2.stride = src.elemSize)
    (hcap : ¬exceeds (src.elemSize * a.1.size) cap)
    (h : innerLoop src dst cap ((a :: zs).map fun b => (b.1.dim, b.1.size)) src.elemSize 0 =
      .ok r) : r.2 ≠ 0 := by
  obtain ⟨has, had, hfold⟩ := hmem a (by simp)
  obtain ⟨hdim, hsize, -⟩ := foldable_iff.mp hfold
  have hsa : src.axisAt a.1.dim = some a.1 := axisAt_of_mem has
  have hda : dst.axisAt a.1.dim = some a.2 := hdim ▸ axisAt_of_mem had
  simp only [map_cons, innerLoop, hsa, hda, map_some, hs, hd, ne_eq,
    not_true_eq_false, if_false] at h
  obtain ⟨next, hnext, h⟩ := bind_eq_ok.mp h
  obtain rfl := checkedMul_eq_ok hnext
  rw [if_neg hcap] at h
  obtain ⟨taken, -, hr, -⟩ := innerLoop_takes [a] (fun b hb => hmem b (by simp [hb]))
    ⟨hs, trivial⟩ ⟨hd, trivial⟩ rfl (by simp [extent, hsize]) h
  omega

theorem innerBytes_pos_iff (hrank : src.axes.length = dst.axes.length)
    (helem : src.elemSize = dst.elemSize)
    (h : computeInnerBytes src dst (matchingInnerSuffix src dst sel) = .ok (n, m)) :
    0 < n ↔ InnermostFolds src dst sel := by
  have hcases := computeInnerBytes_cases h
  constructor
  · intro hn
    obtain ⟨h0, -⟩ | ⟨-, hm, ht⟩ := hcases
    · omega
    · exact innermostFolds_of_takes hm ht
  · intro ⟨a, hlast, hfold, hs, hd⟩
    obtain ⟨hdim, hsize, -, hsr, hdr, -⟩ := foldable_iff.mp hfold
    obtain ⟨init, hinit⟩ := getLast?_eq_some_iff.mp hlast
    have hsrc : src.axes = init.map Prod.fst ++ [a.1] := by
      rw [← map_fst_zip (Nat.le_of_eq hrank), hinit, map_append]
      rfl
    have hdst : dst.axes = init.map Prod.snd ++ [a.2] := by
      rw [← map_snd_zip (Nat.le_of_eq hrank.symm), hinit, map_append]
      rfl
    have hfirst : innermostFirst src dst sel =
        a :: init.reverse.takeWhile (foldable src dst sel) := by
      rw [innermostFirst, hinit, reverse_append, reverse_singleton,
        singleton_append, takeWhile_cons_of_pos hfold]
    obtain ⟨srcCap, hsc, h⟩ := bind_eq_ok.mp h
    obtain ⟨dstCap, hdc, h⟩ := bind_eq_ok.mp h
    have hcap : ¬exceeds (src.elemSize * a.1.size) (minCap srcCap dstCap) := by
      refine not_exceeds (fun c hc => ?_) (fun c hc => ?_)
      · exact regionCap_ge (by rw [hsrc, getLast?_concat]) hsr (hc ▸ hsc)
      · rw [helem, hsize]
        exact regionCap_ge (by rw [hdst, getLast?_concat]) (hdim ▸ hdr) (hc ▸ hdc)
    have hmem : a.1 ∈ src.axes := by simp [hsrc]
    have hle := Nat.le_mul_of_pos_right src.elemSize (size_pos hmem)
    simp only at h
    rw [if_neg fun he => hcap (exceeds_mono hle he), matchingInnerSuffix, reverse_reverse,
      hfirst] at h
    obtain ⟨r, hr, hif⟩ := map_eq_ok.mp h
    have hr2 : r.2 ≠ 0 :=
      innerLoop_accepts (fun b hb => mem_innermostFirst (hfirst ▸ hb)) hs hd hcap hr
    rw [if_neg hr2] at hif
    subst hif
    obtain ⟨-, hm⟩ | ⟨hn, -⟩ := hcases
    · exact absurd hm hr2
    · exact hn

/-! ### What the executor is given -/

/-- The outcome carries out the whole request: the kernel is given all block pairs, or the copies
are not empty and move the selected bytes. -/
def Complete (src dst : Layout) (r : PlanRequest) : PlanOutcome → Prop
  | .empty => False
  | .transform pairs range => pairs = r.blockPairs ∧ range = r.layerRange ∧ r.axisSlices = []
  | .direct ops | .smallStridedCopy ops | .cudaGraphReplay _ ops =>
    (∀ op ∈ ops, 0 < op.size) ∧
      ∃ a b, annotate src = .ok a ∧ annotate dst = .ok b ∧ Moves a b r.selection ops

variable {c : Candidate}

/-- A fold that keeps what it has or takes the next element ends with one of them. -/
theorem mem_of_foldl_choice {α : Type} {f : Option α → α → Option α} {l : List α} {best : Option α}
    {c : α} (hf : ∀ best x, f best x = some x ∨ f best x = best) (h : l.foldl f best = some c) :
    c ∈ l ∨ best = some c := by
  induction l generalizing best with
  | nil => exact .inr h
  | cons x l ih =>
    obtain hc | hc := ih h
    · exact .inl (mem_cons_of_mem x hc)
    obtain hx | hx := hf best x
    · cases hx.symm.trans hc
      exact .inl mem_cons_self
    · exact .inr (hx.symm.trans hc)

variable {r : PlanRequest}

theorem mem_of_select (h : r.select candidates = .ok c) : c ∈ candidates := by
  unfold PlanRequest.select at h
  split at h
  next he =>
    cases h
    obtain hc | hc := mem_of_foldl_choice (fun best x => by grind) he
    · exact mem_of_mem_filter hc
    · cases hc
  next => cases h

def Candidate.ops : Candidate → List CopyOp
  | .directDma ops | .smallStridedCopy ops | .cudaGraphReplay _ ops => ops

variable {ops : List CopyOp}

/-- All candidates that compete with the plain copies are those copies. -/
theorem ops_of_mem_direct
    (h : c ∈ [Candidate.directDma ops] ++ r.replayCandidates width ops) : c.ops = ops := by
  unfold PlanRequest.replayCandidates at h
  cases mem_append.mp h with
  | inl h => rw [mem_singleton.mp h, Candidate.ops]
  | inr h =>
    split at h
    · rw [mem_singleton.mp h, Candidate.ops]
    · simp at h

variable {outcome : PlanOutcome} {plan : CopyPlan}

theorem lower_eq (h : r.lower width plan = .ok outcome) :
    (plan.ops = [] ∧ outcome = .empty) ∨ plan.ops ≠ [] ∧
      (outcome = .direct plan.ops ∨ outcome = .smallStridedCopy plan.ops ∨
        ∃ key, outcome = .cudaGraphReplay key plan.ops) := by
  unfold PlanRequest.lower at h
  split at h
  next =>
    cases h
    exact .inl ⟨rfl, rfl⟩
  next op ops =>
    refine .inr ⟨cons_ne_nil op ops, ?_⟩
    obtain ⟨candidates, hlow, h⟩ := bind_eq_ok.mp h
    obtain ⟨c, hc, hout⟩ := bind_eq_ok.mp h
    obtain rfl : [_] = candidates := Except.ok.inj hlow
    have hops := ops_of_mem_direct (mem_of_select hc)
    cases c with
    | directDma =>
      cases hout
      exact .inl (congrArg _ hops)
    | smallStridedCopy => cases hout
    | cudaGraphReplay key =>
      cases hout
      exact .inr (.inr ⟨key, congrArg _ hops⟩)
  next =>
    cases h
    exact .inl ⟨rfl, rfl⟩
  next op ops =>
    refine .inr ⟨cons_ne_nil op ops, ?_⟩
    obtain ⟨candidates, hlow, h⟩ := bind_eq_ok.mp h
    obtain ⟨c, hc, hout⟩ := bind_eq_ok.mp h
    obtain rfl : [_] = candidates := Except.ok.inj hlow
    obtain rfl := mem_singleton.mp (mem_of_select hc)
    cases hout
    exact .inr (.inl rfl)
  next => cases h
  next => cases h

theorem size_pos_of_mergeRuns {last : CopyOp}
    (h : ∀ op ∈ last :: ops, 0 < op.size) : ∀ op ∈ mergeRuns last ops, 0 < op.size := by
  induction ops generalizing last with
  | nil => exact h
  | cons op rest ih =>
    obtain ⟨hlast, hop, hrest⟩ : 0 < last.size ∧ 0 < op.size ∧ ∀ o ∈ rest, 0 < o.size := by
      simpa using h
    unfold mergeRuns
    split
    · refine ih (forall_mem_cons.mpr ⟨?_, hrest⟩)
      exact Nat.add_pos_left hlast _
    · exact forall_mem_cons.mpr ⟨hlast, ih (forall_mem_cons.mpr ⟨hop, hrest⟩)⟩

theorem size_pos_of_coalesce (h : ∀ op ∈ ops, 0 < op.size) : ∀ op ∈ coalesce ops, 0 < op.size := by
  have hsort : ∀ op ∈ ops.insertionSort fun a b => a.srcAddr ≤ b.srcAddr, 0 < op.size :=
    fun op hop => h op ((perm_insertionSort _ ops).subset hop)
  unfold coalesce
  split
  next => simp
  next he => exact size_pos_of_mergeRuns (he ▸ hsort)

/-- With an inner run that is not empty, no operation is. -/
theorem Planned.size_pos {policy : CopyPolicy} (h : Planned src dst sel policy plan n m ops)
    (hn : 0 < n) : ∀ op ∈ plan.ops, 0 < op.size := by
  have hops : ∀ op ∈ ops, 0 < op.size := by
    obtain ⟨h0, -⟩ | hemit := h.emitted
    · omega
    obtain ⟨-, rfl⟩ := emitOuter_eq hemit
    intro op hop
    obtain ⟨p, -, rfl⟩ := mem_map.mp hop
    exact hn
  obtain ⟨-, permutation, rfl⟩ | ⟨-, rfl⟩ := h.plan_eq
  · exact hops
  simp only [CopyPlan.ops]
  split
  · exact size_pos_of_coalesce hops
  · exact hops

/-- The kernel is given everything, or the request is refused. -/
theorem planTransform_complete {src dst : Layout}
    (h : r.planTransform = .ok outcome) : Complete src dst r outcome := by
  unfold PlanRequest.planTransform at h
  obtain ⟨hslices, h⟩ := ite_error_eq_ok.mp h
  have hslices : r.axisSlices = [] := by simpa using hslices
  split at h
  next => cases h
  next =>
    split at h
    next hrange =>
      cases h
      exact ⟨rfl, hrange.symm, hslices⟩
    next hrange =>
      obtain ⟨-, ⟨⟩⟩ := ite_error_eq_ok.mp h
      exact ⟨rfl, hrange.symm, hslices⟩

/-! ### Something is selected -/

theorem coordPairs_ne_nil {pairs : List (Nat × Nat)} {axes : List (KvDim × OuterRange)}
    {c c' : CoordByLabel} (h : ∀ a ∈ axes, axisSteps pairs a.1 a.2 ≠ []) :
    coordPairs pairs axes c c' ≠ [] := by
  induction axes generalizing c c' with
  | nil => exact cons_ne_nil _ _
  | cons a rest ih =>
    obtain ⟨step, hstep⟩ := exists_mem_of_ne_nil _ (h a (by simp))
    intro hnil
    exact ih (fun b hb => h b (by simp [hb])) (flatMap_eq_nil_iff.mp hnil step hstep)

theorem slice_len_ne_zero {seen : List KvDim} {slices : List AxisIntersection}
    (h : validateAxisSlicesFrom src dst seen slices = .ok ()) :
    ∀ s ∈ slices, s.srcLocal.len ≠ 0 := by
  induction slices generalizing seen with
  | nil => simp
  | cons s rest ih =>
    unfold validateAxisSlicesFrom at h
    obtain ⟨_, hs, hrest⟩ := bind_eq_ok.mp (ite_error_eq_ok.mp h).2
    refine forall_mem_cons.mpr ⟨fun hzero => ?_, ih hrest⟩
    unfold validateAxisSlice at hs
    repeat' split at hs
    all_goals cases hs

theorem selectedCoords_ne_nil (hpairs : sel.blockPairs ≠ [])
    (hvalid : validateAxisSlices src dst sel = .ok ()) : selectedCoords src sel ≠ [] := by
  refine coordPairs_ne_nil fun r hr => ?_
  obtain ⟨a, ha, rfl⟩ := mem_map.mp hr
  unfold axisSteps outerRange
  split
  next s hs =>
    split
    · exact hpairs
    · have := slice_len_ne_zero hvalid s (mem_of_find?_eq_some hs)
      simpa using this
  next =>
    split
    · exact hpairs
    · have := size_pos ha
      simpa using Nat.ne_of_gt this

theorem Moves.ops_ne_nil (hsel : selectedCoords src sel ≠ [])
    (h : Moves src dst sel ops) : ops ≠ [] := by
  intro hnil
  have hperm := h.bytes
  rw [hnil, flatMap_nil] at hperm
  obtain ⟨p, hp⟩ := exists_mem_of_ne_nil _ hsel
  have := flatMap_eq_nil_iff.mp (nil_perm.mp hperm) p hp
  exact Nat.ne_of_gt src.byteStrides.elem_pos (run_eq_nil.mp this)

/-- The copies carry out a request exactly if they are not empty. -/
theorem lower_complete_iff {lsrc ldst : Layout} (hs : annotate lsrc = .ok src)
    (hd : annotate ldst = .ok dst)
    (hpairs : r.blockPairs ≠ []) (hplan : Planned src dst r.selection r.policy plan n m ops)
    (h : r.lower lsrc.config.dtypeWidthBytes plan = .ok outcome) :
    Complete lsrc ldst r outcome ↔ 0 < n := by
  have hcomplete : plan.ops ≠ [] → (((∀ op ∈ plan.ops, 0 < op.size) ∧
      ∃ a b, annotate lsrc = .ok a ∧ annotate ldst = .ok b ∧ Moves a b r.selection plan.ops) ↔
        0 < n) := by
    intro hne
    constructor
    · intro ⟨hpos, _⟩
      exact hplan.inner_pos hne hpos
    · intro hn
      exact ⟨hplan.size_pos hn, src, dst, hs, hd, hplan.moves hn⟩
  obtain ⟨hnil, rfl⟩ | ⟨hne, rfl | rfl | ⟨key, rfl⟩⟩ := lower_eq h
  · refine ⟨False.elim, fun hn => ?_⟩
    exact (hplan.moves hn).ops_ne_nil (selectedCoords_ne_nil hpairs hplan.valid) hnil
  · exact hcomplete hne
  · exact hcomplete hne
  · exact hcomplete hne

/-- **A request is carried out as a whole exactly if it goes to a kernel or its innermost axis can
be folded.** -/
theorem planAndLower_complete_iff (src dst : Layout) (r : PlanRequest) {outcome : PlanOutcome}
    (hsome : r.srcBlockIds ≠ []) (h : planAndLower src dst r = .ok outcome) :
    Complete src dst r outcome ↔
      src.blockLayout.requiresTransform dst.blockLayout ∨
        ∃ a b, annotate src = .ok a ∧ annotate dst = .ok b ∧ InnermostFolds a b r.selection := by
  unfold planAndLower at h
  obtain ⟨hlen, h⟩ := ite_error_eq_ok.mp h
  rw [if_neg hsome] at h
  split at h
  next htrans => exact ⟨fun _ => .inl htrans, fun _ => planTransform_complete h⟩
  next htrans =>
    obtain ⟨-, h⟩ := ite_error_eq_ok.mp h
    obtain ⟨-, h⟩ := ite_error_eq_ok.mp h
    obtain ⟨a, ha, h⟩ := bind_eq_ok.mp h
    obtain ⟨b, hb, h⟩ := bind_eq_ok.mp h
    obtain ⟨plan, hplan, h⟩ := bind_eq_ok.mp h
    obtain ⟨n, m, ops, hplanned⟩ := planCopy_planned (mapError_eq_ok.mp hplan)
    have hpairs : r.blockPairs ≠ [] := by
      intro hnil
      obtain hs | hd := zip_eq_nil_iff.mp hnil
      · exact hsome hs
      · refine hsome (length_eq_zero_iff.mp ?_)
        rw [Decidable.not_not.mp hlen, hd, length_nil]
    rw [lower_complete_iff ha hb hpairs hplanned h,
      innerBytes_pos_iff hplanned.rank hplanned.elemSize hplanned.inner]
    constructor
    · intro hfolds
      exact .inr ⟨a, b, ha, hb, hfolds⟩
    · intro hor
      obtain ⟨a', b', ha', hb', hfolds⟩ := hor.resolve_left htrans
      cases Except.ok.inj (ha.symm.trans ha')
      cases Except.ok.inj (hb.symm.trans hb')
      exact hfolds

/-! ### Two blocks of two heads -/

/-- Two blocks with one layer, two tokens, two heads and a head size of four. -/
def twoHeads (base : Nat) : Layout :=
  FullyContiguousLayout.toLayout
    { config := ⟨2, 1, 1, 2, 8, 2, some 2⟩
      baseAddr := base
      memorySize := 64
      kvBlockLayout := .operationalNHD
      valid := ⟨by decide, by decide, by decide, ⟨1, rfl⟩, by decide, by decide⟩
      fits := by decide }

/-- Copy block `0` to block `1`. -/
def copyBlock (policy : CopyPolicy) (slices : List AxisIntersection) : PlanRequest where
  srcBlockIds := [0]
  dstBlockIds := [1]
  strategy := .cudaAsyncD2H
  capabilities := ⟨false, false, false⟩
  policy := policy
  benchmark := none
  preparedPlan := none
  layerRange := none
  axisSlices := slices

/-- A slice of the heads leaves the innermost axis whole. -/
theorem planAndLower_complete_iff_oneHead :
    planAndLower (twoHeads 1000) (twoHeads 5000)
        (copyBlock ⟨4, true⟩ [⟨.headCount, ⟨0, 1⟩, ⟨1, 2⟩⟩]) =
      .ok (.direct [⟨1000, 5040, 8⟩, ⟨1016, 5056, 8⟩]) ∧
    Complete (twoHeads 1000) (twoHeads 5000)
      (copyBlock ⟨4, true⟩ [⟨.headCount, ⟨0, 1⟩, ⟨1, 2⟩⟩])
      (.direct [⟨1000, 5040, 8⟩, ⟨1016, 5056, 8⟩]) := by
  refine ⟨rfl, (planAndLower_complete_iff _ _ _ (by decide) rfl).mpr (.inr ?_)⟩
  exact ⟨_, _, rfl, rfl, (⟨.headSize, 4, 2⟩, ⟨.headSize, 4, 2⟩), rfl, by decide, rfl, rfl⟩

/-- A slice of the head size makes the transfer succeed without moving a byte: the default policy
yields nothing to do, and a threshold of `0` yields copies of size `0`. -/
theorem slicedHeadSize_not_complete :
    (planAndLower (twoHeads 1000) (twoHeads 5000)
        (copyBlock .default [⟨.headSize, ⟨0, 2⟩, ⟨0, 2⟩⟩]) = .ok .empty ∧
      ¬Complete (twoHeads 1000) (twoHeads 5000)
        (copyBlock .default [⟨.headSize, ⟨0, 2⟩, ⟨0, 2⟩⟩]) .empty) ∧
    ∃ op ops, planAndLower (twoHeads 1000) (twoHeads 5000)
        (copyBlock ⟨0, true⟩ [⟨.headSize, ⟨0, 2⟩, ⟨0, 2⟩⟩]) = .ok (.direct (op :: ops)) ∧
      op.size = 0 :=
  ⟨⟨rfl, id⟩, ⟨1000, 5032, 0⟩, _, rfl, rfl⟩

end Kvbm.Transfer
