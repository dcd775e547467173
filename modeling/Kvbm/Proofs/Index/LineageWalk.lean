/-
Walks over the lineage graph.

Three operations walk before they change anything: the removal of a node with all that
hangs below it, the removal of a leaf with all its ancestors, and the poisoning of a
suffix.  The first goes down and is bounded by the number of slots, because no node is
put on the stack twice; the other two go up and are bounded by the position they start
from, because a parent sits one position below its child.  So none of them ever runs
out of turns.
-/
import Kvbm.Proofs.Index.LineageView

namespace Kvbm

namespace LineageBackend

open Lib List Option

variable {b b' : LineageBackend} {kids : Nat → List Nat} {frees : List Nat}
  {i j idx p root : Nat} {h : SequenceHash} {id : BlockId} {Q : LineageBackend → Prop}

/-! ### Down -/

theorem walk_eq {nxt : Nat → Option Nat} :
    ∀ (fuel : Nat) (l : List Nat) (a : Option Nat), Chain nxt a l → l.length ≤ fuel →
      walk nxt fuel a = some l := by
  intro fuel
  induction fuel with
  | zero =>
    intro l a hc hl
    obtain rfl : l = [] := length_eq_zero_iff.mp (by omega)
    obtain rfl : a = none := hc
    rfl
  | succ fuel ih =>
    intro l a hc hl
    cases l with
    | nil =>
      obtain rfl : a = none := hc
      rfl
    | cons i l =>
      obtain ⟨rfl, hc⟩ := hc
      simp only [length_cons] at hl
      simp [walk, ih l _ hc (by omega)]

theorem WfWith.childList (hw : WfWith b kids frees) (hi : b.Live i) :
    b.childList i = some (kids i) := by
  refine walk_eq _ _ _ (hw.graph.kidChain i hi) (length_le_size (hw.graph.kidNodup i hi) ?_)
  intro c hc
  exact (hw.graph.kid_live hi hc).1.1

/-- Turns that the frames of the stack will take by themselves. -/
def frames (stack : List (Nat × Bool)) : Nat := (stack.map fun f => if f.2 then 1 else 2).sum

/-- The traversal from `root` with the nodes in `seen` put on the stack so far. -/
structure Visit (b : LineageBackend) (root : Nat) (stack : List (Nat × Bool)) (order : List Nat)
    (seen : Finset Nat) : Prop where
  live : ∀ i ∈ seen, b.Live i ∧ (b.slots root).position ≤ (b.slots i).position
  /-- A node was put there when its parent was opened. -/
  opened : ∀ i ∈ seen, i = root ∨ ∃ p ∈ seen, (b.slots i).parent = some p ∧ (p, false) ∉ stack
  stacked : ∀ f ∈ stack, f.1 ∈ seen
  nodup : (order ++ stack.map Prod.fst).Nodup
  real : ∀ i ∈ order, i ∈ b.realSet ∧ i ∈ seen
  root : root ∈ order ++ stack.map Prod.fst

variable {stack : List (Nat × Bool)} {seen : Finset Nat} {order : List Nat}

theorem Visit.child_unseen
    (hv : Visit b root ((idx, false) :: stack) order seen) (hw : WfWith b kids frees)
    (hc : i ∈ kids idx) : i ∉ seen := by
  intro hi
  have hidx := hv.live idx (hv.stacked (idx, false) (by simp))
  obtain ⟨hl, hpar⟩ := hw.graph.kid_live hidx.1 hc
  rcases hv.opened i hi with rfl | ⟨p, -, hp, hclosed⟩
  · have := hw.graph.kid_position hidx.1 hc
    omega
  rw [hpar] at hp
  cases hp
  exact hclosed (by simp)

theorem Visit.openNode
    (hv : Visit b root ((idx, false) :: stack) order seen) (hw : WfWith b kids frees) :
    Visit b root ((kids idx).map (·, false) ++ (idx, true) :: stack) order
      (seen ∪ (kids idx).toFinset) := by
  have hidx := hv.live idx (hv.stacked (idx, false) (by simp))
  have hmap : ((kids idx).map (·, false) ++ (idx, true) :: stack).map Prod.fst =
      kids idx ++ idx :: stack.map Prod.fst := by
    simp [Function.comp_def]
  have hnd := nodup_append'.mp hv.nodup
  simp only [map_cons, nodup_cons] at hnd
  -- whatever is on the stack or in the order has been seen, and the children have not
  have hnew : ∀ c ∈ kids idx, c ∉ order ∧ c ≠ idx ∧ c ∉ stack.map Prod.fst := by
    intro c hc
    have hns := hv.child_unseen hw hc
    refine ⟨fun ho => hns (hv.real c ho).2, fun he => hns ?_, fun hs => hns ?_⟩
    · rw [he]
      exact hv.stacked (idx, false) (by simp)
    · obtain ⟨f, hf, rfl⟩ := mem_map.mp hs
      exact hv.stacked f (by simp [hf])
  refine ⟨?_, ?_, ?_, ?_, ?_, ?_⟩
  · intro i hi
    rcases Finset.mem_union.mp hi with hi | hi
    · exact hv.live i hi
    have hc := mem_toFinset.mp hi
    have := hw.graph.kid_position hidx.1 hc
    exact ⟨(hw.graph.kid_live hidx.1 hc).1, by omega⟩
  · intro i hi
    have hkeep : ∀ q ∈ seen, (q, false) ∉ (idx, false) :: stack →
        (q, false) ∉ (kids idx).map (·, false) ++ (idx, true) :: stack := by
      intro q hq hn hm
      simp only [List.mem_append, List.mem_map, Prod.mk.injEq, and_true, exists_eq_right,
        List.mem_cons, Bool.false_eq_true, and_false, false_or] at hm
      rcases hm with hc | hs
      · exact hv.child_unseen hw hc hq
      · exact hn (List.mem_cons_of_mem _ hs)
    rcases Finset.mem_union.mp hi with hi | hi
    · rcases hv.opened i hi with rfl | ⟨q, hq, hpar, hn⟩
      · exact Or.inl rfl
      · exact Or.inr ⟨q, Finset.mem_union_left _ hq, hpar, hkeep q hq hn⟩
    have hc := mem_toFinset.mp hi
    refine Or.inr ⟨idx, Finset.mem_union_left _ (hv.stacked (idx, false) (by simp)),
      (hw.graph.kid_live hidx.1 hc).2, fun hm => ?_⟩
    simp only [List.mem_append, List.mem_map, Prod.mk.injEq, and_true, exists_eq_right,
      List.mem_cons, Bool.false_eq_true, and_false, false_or] at hm
    rcases hm with hc | hs
    · exact (hnew idx hc).2.1 rfl
    · exact hnd.2.1.1 (List.mem_map.mpr ⟨_, hs, rfl⟩)
  · intro f hf
    rw [Finset.mem_union, List.mem_toFinset]
    rcases List.mem_append.mp hf with hf | hf
    · obtain ⟨c, hc, rfl⟩ := mem_map.mp hf
      exact Or.inr hc
    rcases mem_cons.mp hf with rfl | hf
    · exact Or.inl (hv.stacked (idx, false) (by simp))
    · exact Or.inl (hv.stacked f (by simp [hf]))
  · rw [hmap]
    refine nodup_append'.mpr ⟨hnd.1, nodup_append'.mpr ⟨hw.graph.kidNodup idx hidx.1,
      nodup_cons.mpr hnd.2.1, ?_⟩, ?_⟩
    · intro c hc hm
      rcases mem_cons.mp hm with he | hs
      · exact (hnew c hc).2.1 he
      · exact (hnew c hc).2.2 hs
    · intro c ho hm
      rcases mem_append.mp hm with hc | hm
      · exact (hnew c hc).1 ho
      · exact hnd.2.2 ho (by simpa using hm)
  · intro i hi
    exact ⟨(hv.real i hi).1, Finset.mem_union_left _ (hv.real i hi).2⟩
  · rw [hmap]
    have := hv.root
    simp only [mem_append, map_cons, mem_cons] at this ⊢
    tauto

theorem Visit.closeNode
    (hv : Visit b root ((idx, true) :: stack) order seen) (hroot : root ∈ b.realSet) :
    Visit b root stack (if b.isReal idx then order ++ [idx] else order) seen := by
  have hlive := hv.live idx (hv.stacked (idx, true) (by simp))
  have hopened : ∀ i ∈ seen, i = root ∨
      ∃ p ∈ seen, (b.slots i).parent = some p ∧ (p, false) ∉ stack := by
    intro i hi
    refine (hv.opened i hi).imp_right fun ⟨q, hq, hpar, hn⟩ => ⟨q, hq, hpar, fun hm => hn ?_⟩
    exact mem_cons_of_mem _ hm
  have hstack : ∀ f ∈ stack, f.1 ∈ seen := fun f hf => hv.stacked f (by simp [hf])
  by_cases hr : b.isReal idx = true
  · rw [if_pos hr]
    have hshift : order ++ [idx] ++ stack.map Prod.fst =
        order ++ ((idx, true) :: stack).map Prod.fst := by simp
    refine ⟨hv.live, hopened, hstack, by rw [hshift]; exact hv.nodup, ?_,
      by rw [hshift]; exact hv.root⟩
    intro i hi
    rcases mem_append.mp hi with hi | hi
    · exact hv.real i hi
    rw [mem_singleton.mp hi]
    refine ⟨?_, hv.stacked (idx, true) (by simp)⟩
    exact Finset.mem_filter.mpr ⟨Finset.mem_range.mpr hlive.1.1, hr⟩
  · rw [if_neg hr]
    have hne : root ≠ idx := by
      rintro rfl
      exact hr (Finset.mem_filter.mp hroot).2
    refine ⟨hv.live, hopened, hstack, ?_, hv.real, ?_⟩
    · refine hv.nodup.sublist (List.Sublist.append (List.Sublist.refl _) ?_)
      simp
    · have := hv.root
      simp only [mem_append, map_cons, mem_cons, hne, false_or] at this
      exact mem_append.mpr this

/-- **The traversal comes back** within two turns a slot, and lists real nodes, each once. -/
theorem descend_spec (hw : WfWith b kids frees) (hroot : root ∈ b.realSet) :
    ∀ (fuel : Nat) (stack : List (Nat × Bool)) (order : List Nat) (seen : Finset Nat),
      Visit b root stack order seen → frames stack + 2 * b.size ≤ fuel + 2 * seen.card →
      ∃ l, b.descend fuel stack order = some l ∧ l.Nodup ∧ (∀ i ∈ l, i ∈ b.realSet) ∧ root ∈ l := by
  intro fuel
  induction fuel with
  | zero =>
    intro stack order seen hv hf
    cases stack with
    | nil =>
      refine ⟨order, rfl, by simpa using hv.nodup, fun i hi => (hv.real i hi).1, ?_⟩
      simpa using hv.root
    | cons f stack =>
      have hcard : seen.card ≤ b.size := by
        have hsub : seen ⊆ Finset.range b.size := fun i hi =>
          Finset.mem_range.mpr (hv.live i hi).1.1
        have := Finset.card_le_card hsub
        rwa [Finset.card_range] at this
      have : 0 < frames (f :: stack) := by
        unfold frames
        rw [map_cons, sum_cons]
        split <;> omega
      omega
  | succ fuel ih =>
    intro stack order seen hv hf
    match stack with
    | [] =>
      refine ⟨order, rfl, by simpa using hv.nodup, fun i hi => (hv.real i hi).1, ?_⟩
      simpa using hv.root
    | (idx, true) :: stack =>
      refine ih stack _ seen (hv.closeNode hroot) ?_
      simp only [frames, map_cons, sum_cons, if_true] at hf ⊢
      omega
    | (idx, false) :: stack =>
      have hidx := (hv.live idx (hv.stacked (idx, false) (by simp))).1
      have hcard : (seen ∪ (kids idx).toFinset).card = seen.card + (kids idx).length := by
        rw [Finset.card_union_of_disjoint, toFinset_card_of_nodup (hw.graph.kidNodup idx hidx)]
        rw [Finset.disjoint_left]
        intro c hc hm
        exact hv.child_unseen hw (mem_toFinset.mp hm) hc
      have hframes : frames ((kids idx).map (·, false) ++ (idx, true) :: stack) =
          2 * (kids idx).length + 1 + frames stack := by
        have htwo : (((kids idx).map (·, false)).map
            fun f : Nat × Bool => if f.2 then 1 else 2).sum = 2 * (kids idx).length := by
          simp [Function.comp_def, mul_comm]
        unfold frames
        rw [map_append, sum_append, htwo, map_cons, sum_cons]
        simp only [if_true]
        omega
      obtain ⟨l, hl, hrest⟩ := ih _ order _ (hv.openNode hw) (by
        rw [hframes, hcard]
        simp only [frames, map_cons, sum_cons, Bool.false_eq_true, if_false] at hf ⊢
        omega)
      refine ⟨l, ?_, hrest⟩
      unfold descend
      rw [hw.childList hidx]
      exact hl

/-- A node is removed together with real nodes below it. -/
theorem takeWithDescendants_taken (hQ : Stable Q) (hw : (view Q).Wf b) :
    ∃ l b', b.takeWithDescendants h id = some (l, b') ∧ (view Q).Taken b l b' ∧
      ((h, id) ∈ b.entries → (h, id) ∈ l) := by
  unfold takeWithDescendants
  cases hi : b.realIndex h id with
  | none =>
    exact ⟨[], b, rfl, IndexView.Taken.refl hw,
      fun he => absurd he ((realIndex_eq_none hw.1).mp hi)⟩
  | some root =>
    obtain ⟨hr, hd⟩ := (realIndex_eq_some hw.1).mp hi
    obtain ⟨kids, frees, hwf⟩ := hw.1
    have hstart : Visit b root [(root, false)] [] {root} := by
      refine ⟨?_, ?_, by simp, by simp, by simp, by simp⟩
      · intro i hm
        rw [Finset.mem_singleton.mp hm]
        exact ⟨realSet_live hr, Nat.le_refl _⟩
      · exact fun i hm => Or.inl (Finset.mem_singleton.mp hm)
    obtain ⟨order, ho, hnd, hreal, hmem⟩ :=
      descend_spec hwf hr (2 * b.size) _ _ _ hstart (by simp [frames]; omega)
    obtain ⟨b', hb', ht⟩ := removeNodes_taken hQ order b hw hnd hreal
    refine ⟨_, b', by simp only [ho, bind_some]; exact hb', ht, fun _ => ?_⟩
    exact mem_filterMap.mpr ⟨root, hmem, by rw [hd]; rfl⟩

/-! ### Up -/

/-- The nodes of a complete lineage are real, and each is met once. -/
theorem lineageLoop_spec (hw : WfWith b kids frees) :
    ∀ (fuel : Nat) (i : Nat) (l : List Nat), b.Live i → b.lineageLoop fuel (some i) = some l →
      l.head? = some i ∧ l.Nodup ∧
        ∀ j ∈ l, j ∈ b.realSet ∧ (b.slots j).position ≤ (b.slots i).position := by
  intro fuel
  induction fuel with
  | zero => intro i l _ hl; cases hl
  | succ fuel ih =>
    intro i l hi hl
    unfold lineageLoop at hl
    by_cases hr : b.isReal i = true
    · have hri : i ∈ b.realSet := Finset.mem_filter.mpr ⟨Finset.mem_range.mpr hi.1, hr⟩
      simp only [hr, not_true, if_false] at hl
      split at hl
      · cases hl
      obtain ⟨rest, hrest, rfl⟩ := map_eq_some_iff.mp hl
      cases hp : (b.slots i).parent with
      | none =>
        rw [hp] at hrest
        have hnil : rest = [] := by
          cases fuel <;> exact (some.inj hrest).symm
        subst hnil
        simp [hri]
      | some p =>
        obtain ⟨hpl, hpos⟩ := hw.graph.parentLive i p hi hp
        rw [hp] at hrest
        obtain ⟨-, hnd, hall⟩ := ih p rest hpl hrest
        refine ⟨rfl, nodup_cons.mpr ⟨fun hm => ?_, hnd⟩, ?_⟩
        · have := (hall i hm).2
          omega
        · simp only [mem_cons, forall_eq_or_imp]
          refine ⟨⟨hri, Nat.le_refl _⟩, fun j hj => ⟨(hall j hj).1, ?_⟩⟩
          have := (hall j hj).2
          omega
    · simp [hr] at hl

/-- **A complete lineage is taken as it is named**, or nothing happens. -/
theorem takeExactCompleteLineage_taken (hQ : Stable Q) (hw : (view Q).Wf b) :
    ∃ r b', b.takeExactCompleteLineage h id = some (r, b') ∧ r = b.exactCompleteLineage h id ∧
      (r = none → b' = b) ∧
      ∀ l, r = some l → (view Q).Taken b l b' ∧ l.getLast? = some (h, id) := by
  unfold takeExactCompleteLineage exactCompleteLineage
  cases hc : b.completeLineageIndices h id with
  | none => exact ⟨none, b, rfl, rfl, fun _ => rfl, by simp⟩
  | some q =>
    obtain ⟨indices, src⟩ := q
    unfold completeLineageIndices at hc
    obtain ⟨target, hi, hc⟩ := bind_eq_some_iff.mp hc
    obtain ⟨hr, hd⟩ := (realIndex_eq_some hw.1).mp hi
    split at hc
    · obtain ⟨l, hl, he⟩ := map_eq_some_iff.mp hc
      obtain ⟨rfl, rfl⟩ := Prod.mk.inj he
      obtain ⟨kids, frees, hwf⟩ := hw.1
      obtain ⟨hhead, hnd, hreal⟩ := lineageLoop_spec hwf _ target l (realSet_live hr) hl
      obtain ⟨b', hb', ht⟩ := removeNodes_taken hQ l b hw hnd fun i hm => (hreal i hm).1
      have hrev : (l.reverse.filterMap fun i => (b.slots i).data.entry?) =
          (l.filterMap fun i => (b.slots i).data.entry?).reverse := filterMap_reverse
      refine ⟨_, b', by simp only [hb']; rfl, rfl, by simp, ?_⟩
      intro l' he'
      cases he'
      rw [hrev]
      refine ⟨ht.perm (reverse_perm _).symm, ?_⟩
      obtain ⟨rest, rfl⟩ : ∃ rest, l = target :: rest := by
        cases l with
        | nil => cases hhead
        | cons x rest => exact ⟨rest, by rw [some.inj hhead]⟩
      rw [getLast?_reverse, filterMap_cons, hd]
      rfl
    · cases hc

/-! ### Poison -/

theorem isBranchPoint_eq (idx : Nat) :
    ∃ leaves, (b.isBranchPoint idx).2 = { b with leaves := leaves } ∧
      ∀ {nodes leaf : Set Nat}, b.leaves.Wf nodes leaf → leaves.Wf nodes leaf := by
  have hsame : ∃ leaves, b = { b with leaves := leaves } ∧
      ∀ {nodes leaf : Set Nat}, b.leaves.Wf nodes leaf → leaves.Wf nodes leaf :=
    ⟨b.leaves, rfl, fun hl => hl⟩
  unfold isBranchPoint
  split
  · exact hsame
  cases (b.slots idx).data with
  | real id h =>
    exact ⟨(b.leaves.maxFanoutOf h).2, rfl, fun hl => LeafPolicy.maxFanoutOf_wf hl⟩
  | ghost | free => exact hsame

/-- **Poisoning comes back** and moves no block. -/
theorem poisonLoop_taken (hQ : Stable Q) :
    ∀ (fuel : Nat) (b : LineageBackend) (cur : Nat), (view Q).Wf b → b.Live cur →
      (b.slots cur).position < fuel →
      ∃ b', poisonLoop fuel b cur = some b' ∧ (view Q).Taken b [] b' := by
  intro fuel
  induction fuel with
  | zero => intro b cur _ _ hf; omega
  | succ fuel ih =>
    intro b cur hw hcur hf
    unfold poisonLoop
    by_cases hghost : (b.slots cur).data = .ghost
    · exact ⟨b, by rw [if_pos hghost], IndexView.Taken.refl hw⟩
    rw [if_neg hghost]
    obtain ⟨leaves, hleaves, hpol⟩ := isBranchPoint_eq (b := b) cur
    have ht : (view Q).Taken b [] { b with leaves := leaves } :=
      setLeaves_taken hQ hw fun kids frees hk => hpol hk.policy
    have ht' : (view Q).Taken b [] { b with leaves := leaves.markPoisoned cur } :=
      setLeaves_taken hQ hw fun kids frees hk => LeafPolicy.markPoisoned_wf (hpol hk.policy)
    simp only [hleaves]
    by_cases hbranch : (b.isBranchPoint cur).1 = true
    · exact ⟨_, by rw [if_pos hbranch], ht⟩
    rw [if_neg hbranch]
    cases hp : (b.slots cur).parent with
    | none => exact ⟨_, rfl, ht'⟩
    | some q =>
      obtain ⟨kids, frees, hwf⟩ := hw.1
      obtain ⟨hql, hpos⟩ := hwf.graph.parentLive cur q hcur hp
      obtain ⟨b', hb', hres⟩ := ih { b with leaves := leaves.markPoisoned cur } q ht'.wf hql
        (by show (b.slots q).position < fuel; omega)
      exact ⟨b', hb', ht'.trans hres⟩

theorem poisonSuffix_taken (hQ : Stable Q) (hw : (view Q).Wf b) :
    ∃ b', b.poisonSuffix h = some b' ∧ (view Q).Taken b [] b' := by
  unfold poisonSuffix
  cases hi : b.hashIndex h with
  | none => exact ⟨b, rfl, IndexView.Taken.refl hw⟩
  | some i =>
    obtain ⟨hr, -⟩ := (hashIndex_eq_some hw.1).mp hi
    exact poisonLoop_taken hQ _ b i hw (realSet_live hr) (Nat.lt_succ_self _)

end LineageBackend

end Kvbm
