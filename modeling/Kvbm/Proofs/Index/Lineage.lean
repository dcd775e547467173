/-
Whole operations of the lineage backend.

Between two calls the graph is in order with nobody excused, the leaf policy holds
exactly the real nodes without children, and the counter counts the real nodes: that
is `Wf`.  A removal always comes back and takes exactly one real node out; an
insertion that comes back adds exactly one.  From those two follow all the other
operations, which are made of removals.
-/
import Kvbm.Proofs.Index.Graph
import Kvbm.Index.Lineage.Hold

namespace Kvbm

namespace LineageBackend

open Lib Function Finset

variable {b b' : LineageBackend} {kids : Nat → List Nat} {frees : List Nat}
  {bare loose : Set Nat} {i j idx p cur : Nat} {h : SequenceHash} {id : BlockId} {e : Entry}

/-- The slots that hold a real node. -/
def realSet (b : LineageBackend) : Finset Nat := (range b.size).filter fun i => b.isReal i = true

theorem mem_realSet : i ∈ b.realSet ↔ i < b.size ∧ ∃ id h, (b.slots i).data = .real id h := by
  unfold realSet isReal
  rw [mem_filter, mem_range]
  refine and_congr_right fun _ => ?_
  cases (b.slots i).data <;> simp [SlotData.entry?]

theorem realSet_live (hi : i ∈ b.realSet) : b.Live i := by
  obtain ⟨hlt, id, h, hd⟩ := mem_realSet.mp hi
  exact ⟨hlt, by simp [hd]⟩

theorem mem_realSet_of_data (hi : b.Live i) (hd : (b.slots i).data = .real id h) :
    i ∈ b.realSet := mem_realSet.mpr ⟨hi.1, id, h, hd⟩

theorem not_mem_realSet (hd : (b.slots i).data = .ghost) : i ∉ b.realSet := by
  intro hr
  obtain ⟨-, id, h, hr⟩ := mem_realSet.mp hr
  rw [hd] at hr
  cases hr

theorem Relinked.realSet (hr : Relinked b b') : b'.realSet = b.realSet := by
  ext i
  rw [mem_realSet, mem_realSet, hr.size, hr.data]

/-- Real nodes without children. -/
def leafSet (b : LineageBackend) (kids : Nat → List Nat) : Set Nat :=
  { i | i ∈ b.realSet ∧ kids i = [] }

/-- The state between two operations, with the lists that the links mean. -/
structure WfWith (b : LineageBackend) (kids : Nat → List Nat) (frees : List Nat) : Prop where
  graph : Graph b kids frees ∅ ∅
  policy : b.leaves.Wf b.realSet (b.leafSet kids)
  count : b.count = b.realSet.card

/-- The state between two operations. -/
def Wf (b : LineageBackend) : Prop := ∃ kids frees, WfWith b kids frees

/-- Every real node of `b'` was one of `b`, with the same payload, and no live node of `b'` has
another parent or another key than in `b`. -/
structure Kept (b b' : LineageBackend) : Prop where
  data : ∀ i ∈ b'.realSet, i ∈ b.realSet ∧ (b'.slots i).data = (b.slots i).data
  live : ∀ i, b'.Live i → b.Live i ∧ (b'.slots i).parent = (b.slots i).parent ∧
    b'.keyAt i = b.keyAt i

theorem Kept.refl (b : LineageBackend) : Kept b b :=
  ⟨fun _ hi => ⟨hi, rfl⟩, fun _ hi => ⟨hi, rfl, rfl⟩⟩

variable {c : LineageBackend} {slot : LineageSlot}

theorem Kept.trans (h1 : Kept b b') (h2 : Kept b' c) : Kept b c where
  data := fun i hi => by
    obtain ⟨hi', hd⟩ := h2.data i hi
    obtain ⟨hi'', hd'⟩ := h1.data i hi'
    exact ⟨hi'', hd.trans hd'⟩
  live := fun i hi => by
    obtain ⟨hi', hp, hk⟩ := h2.live i hi
    obtain ⟨hi'', hp', hk'⟩ := h1.live i hi'
    exact ⟨hi'', hp.trans hp', hk.trans hk'⟩

/-! ### Pruning -/

/-- Unhooking a childless ghost takes no real node away; only its parent may be wrong then. -/
theorem Graph.unhook_ghost (hg : Graph b kids frees {cur} ∅) (hcur : b.Live cur)
    (hghost : (b.slots cur).data = .ghost) (hk : kids cur = []) :
    ∃ c, b.unhook cur = some c ∧ c.leaves = b.leaves ∧ c.count = b.count ∧
      c.realSet = b.realSet ∧ Kept b c ∧ (∀ i, c.Live i ↔ b.Live i ∧ i ≠ cur) ∧
      Graph c (fun i => (kids i).erase cur) (cur :: frees)
        { i | (b.slots cur).parent = some i } ∅ := by
  obtain ⟨c, hc, hsize, hleaves, hcount, hlive, hsame, hcg⟩ := hg.unhook hcur hk
  have hgone : cur ∉ c.realSet := fun hr => ((hlive cur).mp (realSet_live hr)).2 rfl
  have hreal : c.realSet = b.realSet := by
    ext i
    by_cases hi : i = cur
    · rw [hi]
      exact iff_of_false hgone (not_mem_realSet hghost)
    · rw [mem_realSet, mem_realSet, hsize, (hsame i hi).1]
  refine ⟨c, hc, hleaves, hcount, hreal, ⟨fun i hi => ?_, fun i hi => ?_⟩, hlive, ?_⟩
  · have hne : i ≠ cur := fun he => hgone (he ▸ hi)
    exact ⟨hreal ▸ hi, (hsame i hne).1⟩
  · obtain ⟨hli, hne⟩ := (hlive i).mp hi
    exact ⟨hli, (hsame i hne).2⟩
  · refine hcg.weakenBare fun i hi _ hni hm => ?_
    exact absurd (hm.resolve_right hni) ((hlive i).mp hi).2

section

variable (hg : Graph b kids frees bare loose)

include hg

/-- Erasing `cur` changes the list of its parent only. -/
theorem Graph.erase_other (hpar : (b.slots cur).parent ≠ some i) (hi : b.Live i) :
    (kids i).erase cur = kids i :=
  List.erase_of_not_mem fun hc => hpar (hg.kid_live hi hc).2

/-- Away from the parent of `cur`, the leaves are the same with `cur` erased. -/
theorem Graph.leafSet_erase (hreal : c.realSet = b.realSet) (hpar : (b.slots cur).parent ≠ some i) :
    i ∈ c.leafSet (fun i => (kids i).erase cur) ↔ i ∈ b.leafSet kids := by
  unfold leafSet
  rw [Set.mem_ofPred_eq, Set.mem_ofPred_eq, hreal]
  refine and_congr_right fun hi => ?_
  show (kids i).erase cur = [] ↔ kids i = []
  rw [hg.erase_other hpar (realSet_live hi)]

/-- The leaves are the same with `cur` erased, unless its parent has become one. -/
theorem Graph.leafSet_erase_eq (hcur : b.Live cur) (hreal : c.realSet = b.realSet)
    (hp : ∀ p, (b.slots cur).parent = some p → p ∉ c.leafSet fun i => (kids i).erase cur) :
    (c.leafSet fun i => (kids i).erase cur) = b.leafSet kids := by
  ext i
  by_cases hpar : (b.slots cur).parent = some i
  · have hi := (hg.parentLive cur i hcur hpar).1
    refine iff_of_false (hp i hpar) fun hm => ?_
    exact List.ne_nil_of_mem ((hg.kidIff i cur hi).mpr ⟨hcur, hpar⟩) hm.2
  · exact hg.leafSet_erase hreal hpar

theorem Graph.setLeaves {leaves : LeafPolicy} {n : Nat} :
    Graph { b with count := n, leaves := leaves } kids frees bare loose :=
  ⟨hg.1, hg.2, hg.3, hg.4, hg.5, hg.6, hg.7, hg.8, hg.9, hg.10, hg.11⟩

end

/-- **Pruning comes back and restores order**, when a childless ghost is all that is wrong and
there are more turns than its position. -/
theorem pruneLoop_spec :
    ∀ (fuel : Nat) (b : LineageBackend) (kids : Nat → List Nat) (frees : List Nat) (cur : Nat),
      Graph b kids frees {cur} ∅ → b.Live cur → (b.slots cur).data = .ghost →
      b.leaves.Wf b.realSet (b.leafSet kids) → (b.slots cur).position < fuel →
      ∃ b' kids' frees', pruneLoop fuel b cur = some b' ∧ Graph b' kids' frees' ∅ ∅ ∧
        b'.leaves.Wf b'.realSet (b'.leafSet kids') ∧ b'.count = b.count ∧
        b'.realSet = b.realSet ∧ Kept b b' := by
  intro fuel
  induction fuel with
  | zero => intro b kids frees cur _ _ _ _ hf; omega
  | succ fuel ih =>
    intro b kids frees cur hg hcur hghost hpol hf
    unfold pruneLoop
    by_cases hfirst : (b.slots cur).firstChild.isSome = true
    · have hk := (hg.firstChild_iff hcur).mp hfirst
      refine ⟨b, kids, frees, by rw [if_pos hfirst], ?_, hpol, rfl, rfl, Kept.refl b⟩
      refine hg.weakenBare fun i _ _ _ hi => ?_
      rw [Set.mem_singleton_iff.mp hi]
      exact hk
    rw [if_neg hfirst]
    have hk : kids cur = [] := by
      by_contra hc
      exact hfirst ((hg.firstChild_iff hcur).mpr hc)
    obtain ⟨c, hc, hleaves, hcount, hreal, hkept, hlive, hcg⟩ := hg.unhook_ghost hcur hghost hk
    have hpolc : c.leaves.Wf c.realSet (b.leafSet kids) := by
      rw [hleaves, hreal]
      exact hpol
    rw [hc, Option.bind_some]
    cases hpar : (b.slots cur).parent with
    | none =>
      refine ⟨c, fun i => (kids i).erase cur, cur :: frees, rfl, ?_, ?_, hcount, hreal, hkept⟩
      · refine hcg.weakenBare fun i _ _ _ hm => ?_
        rw [Set.mem_ofPred_eq, hpar] at hm
        cases hm
      · rw [hg.leafSet_erase_eq hcur hreal (by simp [hpar])]
        exact hpolc
    | some p =>
      obtain ⟨hp, hpos⟩ := hg.parentLive cur p hcur hpar
      have hpc : p ≠ cur := by
        rintro rfl
        omega
      have hpl : c.Live p := (hlive p).mpr ⟨hp, hpc⟩
      have hexcused : ∀ i, (b.slots cur).parent = some i → i = p := by
        intro i he
        rw [hpar] at he
        exact (Option.some.inj he).symm
      have hpolp : (p ∉ c.leafSet fun i => (kids i).erase cur) →
          c.leaves.Wf c.realSet (c.leafSet fun i => (kids i).erase cur) := by
        intro hn
        rw [hg.leafSet_erase_eq hcur hreal fun i hi => hexcused i hi ▸ hn]
        exact hpolc
      by_cases hpf : (c.slots p).firstChild.isSome = true
      · -- the parent has other children
        have hkp := (hcg.firstChild_iff hpl).mp hpf
        refine ⟨c, fun i => (kids i).erase cur, cur :: frees, by simp only [hpf, if_true], ?_,
          hpolp fun hm => hkp hm.2, hcount, hreal, hkept⟩
        refine hcg.weakenBare fun i _ _ _ hm => ?_
        rw [hexcused i hm]
        exact hkp
      have hkp : (kids p).erase cur = [] := by
        by_contra hne
        exact hpf ((hcg.firstChild_iff hpl).mpr hne)
      simp only [hpf]
      cases hd : (c.slots p).data with
      | free => exact absurd hd hpl.2
      | real =>
        -- the parent is a leaf again and enters the order
        have hpr : p ∈ c.realSet := mem_realSet_of_data hpl hd
        have hpnot : p ∉ b.leafSet kids := fun hm =>
          List.ne_nil_of_mem ((hg.kidIff p cur hp).mpr ⟨hcur, hpar⟩) hm.2
        obtain ⟨q, hq, hqwf⟩ := LeafPolicy.onLeafAdded_wf hpolc hpr hpnot
        have hcg' : Graph c (fun i => (kids i).erase cur) (cur :: frees) ∅ ∅ := by
          refine hcg.weakenBare fun i _ hgi _ hm => ?_
          rw [hexcused i hm, hd] at hgi
          cases hgi
        refine ⟨{ c with leaves := q }, fun i => (kids i).erase cur, cur :: frees, by simp [hq],
          hcg'.setLeaves, ?_, hcount, hreal, hkept.data, hkept.live⟩
        refine (congrArg (q.Wf c.realSet) (Set.ext fun i => ?_)).mp hqwf
        by_cases hip : i = p
        · rw [hip]
          exact ⟨fun _ => ⟨hpr, hkp⟩, fun _ => Set.mem_insert _ _⟩
        · rw [Set.mem_insert_iff, ← hg.leafSet_erase hreal fun he => hip (hexcused i he)]
          exact ⟨fun hm => hm.resolve_left hip, Or.inr⟩
      | ghost =>
        have hpg : Graph c (fun i => (kids i).erase cur) (cur :: frees) {p} ∅ :=
          hcg.weakenBare fun i _ _ hni hm => absurd (hexcused i hm) hni
        have hpp := hpolp fun hm => not_mem_realSet hd hm.1
        have hppos : (c.slots p).position < fuel := by
          have := congrArg Prod.fst (hkept.live p hpl).2.2
          simp only [keyAt] at this
          omega
        obtain ⟨b', kids', frees', hrun, hg', hpol', hct, hrl, hkp'⟩ :=
          ih c _ _ p hpg hpl hd hpp hppos
        exact ⟨b', kids', frees', by simpa using hrun, hg', hpol', hct.trans hcount,
          hrl.trans hreal, hkept.trans hkp'⟩

/-! ### Removal -/

theorem realSet_ghost :
    (b.modify i fun s => { s with data := .ghost }).realSet = b.realSet.erase i := by
  ext j
  rw [mem_erase, mem_realSet, mem_realSet, modify]
  by_cases hj : j = i <;> simp [hj]

/-- A removal takes the ghost it leaves and its childless ghost ancestors away, nothing else. -/
structure Removed (b b' : LineageBackend) (idx : Nat) : Prop where
  real : b'.realSet = b.realSet.erase idx
  kept : Kept b b'

/-- **Removing a real node comes back**, and takes exactly that node out. -/
theorem removeNodeAt_spec (hw : Wf b) (hi : i ∈ b.realSet) (hd : (b.slots i).data = .real id h) :
    ∃ b', b.removeNodeAt i = some ((h, id), b') ∧ Wf b' ∧ Removed b b' i := by
  obtain ⟨kids, frees, hw⟩ := hw
  have hl := realSet_live hi
  have hghost : Graph (b.modify i fun s => { s with data := .ghost }) kids frees {i} ∅ :=
    hw.graph.setData hl (by simp) (Set.empty_subset _) (Set.empty_subset _) (fun _ => .inl rfl)
      (by simp) (by simp)
  have hreal := realSet_ghost (b := b) (i := i)
  obtain ⟨leaves, hleaves, hpol⟩ := LeafPolicy.onNodeRemoved_wf hw.policy i
  generalize hc : b.modify i (fun s => { s with data := .ghost }) = c at hghost hreal
  have hpolc : leaves.Wf c.realSet (c.leafSet kids) := by
    rw [hreal, coe_erase]
    refine (congrArg (leaves.Wf _) (Set.ext fun j => ?_)).mp hpol
    unfold leafSet
    rw [Set.mem_sdiff, Set.mem_ofPred_eq, Set.mem_ofPred_eq, hreal, mem_erase,
      Set.mem_singleton_iff]
    exact ⟨fun ⟨⟨hr, hk⟩, hne⟩ => ⟨⟨hne, hr⟩, hk⟩, fun ⟨⟨hne, hr⟩, hk⟩ => ⟨⟨hr, hk⟩, hne⟩⟩
  have hlc : c.Live i := by
    rw [← hc]
    exact ⟨hl.1, by simp⟩
  obtain ⟨b', kids', frees', hrun, hg', hpol', hct, hrl, hkept⟩ :=
    pruneLoop_spec ((c.slots i).position + 1) { c with count := c.count - 1, leaves := leaves }
      kids frees i hghost.setLeaves hlc (by rw [← hc]; simp) hpolc (Nat.lt_succ_self _)
  have hbc : Kept b c := by
    refine ⟨fun j hj => ?_, fun j hj => ?_⟩
    · rw [hreal, mem_erase] at hj
      refine ⟨hj.2, ?_⟩
      rw [← hc, modify_slots_of_ne hj.1]
    · rw [← hc] at hj ⊢
      exact ⟨(live_modify hl (by simp) j).mp hj, modify_field LineageSlot.parent (by intro; rfl) j,
        modify_field (fun s => (s.position, s.fragment)) (by intro; rfl) j⟩
  have hrl' : b'.realSet = b.realSet.erase i := hrl.trans hreal
  refine ⟨b', ?_, ⟨kids', frees', hg', hpol', ?_⟩, hrl', ?_⟩
  · unfold removeNodeAt
    rw [hd]
    simp only [hc]
    rw [show c.leaves = b.leaves from by rw [← hc]; rfl, hleaves, Option.bind_some, hrun]
    rfl
  · rw [hct, hrl', card_erase_of_mem hi, ← hw.count, ← hc]
    rfl
  · exact hbc.trans ⟨hkept.data, hkept.live⟩

/-! ### Insertion -/

/-- The state inside an insertion: `idx` is real, but neither its parent nor its place in the
eviction order is settled. -/
structure Pending (b : LineageBackend) (kids : Nat → List Nat) (frees : List Nat)
    (bare loose : Set Nat) (idx : Nat) : Prop where
  graph : Graph b kids frees bare loose
  policy : b.leaves.Wf b.realSet (b.leafSet kids \ {idx})
  count : b.count = b.realSet.card
  real : idx ∈ b.realSet

/-- What an insertion adds to `b`: one real node, and at most a link from it to the node under
the key of its parent. -/
structure Grown (b b' : LineageBackend) (idx : Nat) (id : BlockId) (h : SequenceHash) : Prop where
  fresh : idx ∉ b.realSet
  real : b'.realSet = insert idx b.realSet
  self : (b'.slots idx).data = .real id h
  data : ∀ i ∈ b.realSet, (b'.slots i).data = (b.slots i).data
  live : ∀ i, b.Live i → b'.Live i ∧ b'.keyAt i = b.keyAt i
  parent : ∀ i q, b'.Live i → (b'.slots i).parent = some q →
    (b.Live i ∧ (b.slots i).parent = some q) ∨ (i = idx ∧ b'.keyAt q = h.parentKey)

section

variable (hslots : b'.slots = update b.slots idx slot)
  (hsize : ∀ i, i < b'.size ↔ i < b.size ∨ i = idx)

include hslots hsize

theorem realSet_of_update :
    i ∈ b'.realSet ↔ if i = idx then ∃ id h, slot.data = .real id h else i ∈ b.realSet := by
  rw [mem_realSet, hsize, hslots]
  by_cases hi : i = idx
  · simp [hi]
  · simp [hi, mem_realSet]

theorem realSet_insert (hd : slot.data = .real id h) : b'.realSet = insert idx b.realSet := by
  ext i
  rw [realSet_of_update hslots hsize, mem_insert]
  by_cases hi : i = idx <;> simp [hi, hd]

/-- Writing a real node into a slot that held none, without a new link, only adds that node. -/
theorem grown_of_update (hfresh : idx ∉ b.realSet) (hd : slot.data = .real id h)
    (hkey : b.Live idx → (slot.position, slot.fragment) = b.keyAt idx)
    (hpar : ∀ q, slot.parent = some q → b.Live idx ∧ (b.slots idx).parent = some q) :
    Grown b b' idx id h := by
  have hself : b'.slots idx = slot := by rw [hslots]; simp
  have hold : ∀ i, i ≠ idx → b'.slots i = b.slots i := fun i hi => by rw [hslots]; simp [hi]
  have hlive : ∀ {i}, b'.Live i ↔ i = idx ∨ b.Live i := live_of_update hslots hsize (by simp [hd])
  refine ⟨hfresh, realSet_insert hslots hsize hd, by rw [hself]; exact hd, ?_, ?_, ?_⟩
  · intro i hi
    rw [hold i fun hc => hfresh (hc ▸ hi)]
  · intro i hi
    refine ⟨hlive.mpr (Or.inr hi), ?_⟩
    unfold keyAt
    by_cases hii : i = idx
    · rw [hii, hself]
      exact hkey (hii ▸ hi)
    · rw [hold i hii]
  · intro i q hi hq
    left
    by_cases hii : i = idx
    · rw [hii, hself] at hq
      rw [hii]
      exact hpar q hq
    · rw [hold i hii] at hq
      exact ⟨(hlive.mp hi).resolve_left hii, hq⟩

end

section

variable (hw : WfWith b kids frees)

include hw

/-- Writing it and telling the policy leaves only its own link and place in the order open. -/
theorem pending_of_update {kids' : Nat → List Nat} {frees' : List Nat}
    (hslots : b'.slots = update b.slots idx slot)
    (hsize : ∀ i, i < b'.size ↔ i < b.size ∨ i = idx) (hfresh : idx ∉ b.realSet)
    (hd : slot.data = .real id h) (hkids : ∀ i, i ≠ idx → kids' i = kids i)
    (hleaves : b'.leaves = b.leaves.onNodeInserted idx h) (hcount : b'.count = b.count + 1)
    (hg : Graph b' kids' frees' ∅ {idx}) : Pending b' kids' frees' ∅ {idx} idx := by
  have hreal := realSet_insert hslots hsize hd
  have hleaf : b'.leafSet kids' \ {idx} = b.leafSet kids := by
    ext i
    unfold leafSet
    rw [Set.mem_sdiff, Set.mem_ofPred_eq, Set.mem_ofPred_eq, hreal, mem_insert,
      Set.mem_singleton_iff]
    constructor
    · rintro ⟨⟨hr, hk⟩, hne⟩
      rw [hkids i hne] at hk
      exact ⟨hr.resolve_left hne, hk⟩
    · rintro ⟨hr, hk⟩
      have hne : i ≠ idx := fun hc => hfresh (hc ▸ hr)
      rw [hkids i hne]
      exact ⟨⟨Or.inr hr, hk⟩, hne⟩
  refine ⟨hg, ?_, ?_, ?_⟩
  · rw [hleaf, hreal, coe_insert, hleaves]
    exact LeafPolicy.onNodeInserted_wf hw.policy hfresh
  · rw [hreal, card_insert_of_notMem hfresh, ← hw.count, hcount]
  · rw [hreal]
    exact mem_insert_self _ _

/-- A ghost turned real keeps its links and is no leaf. -/
theorem promote_spec (hl : b.Live idx) (hd : (b.slots idx).data = .ghost)
    (hkey : b.keyAt idx = h.key) :
    Pending (b.promote idx h id) kids frees ∅ {idx} idx ∧
      Grown b (b.promote idx h id) idx id h := by
  have hslots : (b.promote idx h id).slots =
      update b.slots idx { b.slots idx with data := .real id h } := rfl
  have hsize : ∀ i, i < (b.promote idx h id).size ↔ i < b.size ∨ i = idx := by
    intro i
    exact ⟨Or.inl, fun hc => hc.elim (fun hi => hi) fun he => by rw [he]; exact hl.1⟩
  have hfresh : idx ∉ b.realSet := not_mem_realSet hd
  have hg : Graph (b.modify idx fun s => { s with data := .real id h }) kids frees ∅ {idx} :=
    hw.graph.setData hl (by simp) (Set.empty_subset _) (Set.empty_subset _) (by simp)
      (fun id' h' he => by cases he; exact hkey) fun _ _ _ _ => .inl rfl
  exact ⟨pending_of_update hw hslots hsize hfresh rfl (fun _ _ => rfl) rfl rfl hg.setLeaves,
    grown_of_update hslots hsize hfresh rfl (fun _ => rfl) fun q hq => ⟨hl, hq⟩⟩

/-- A real node in a slot of its own has neither parent nor children yet. -/
theorem createReal_spec (hix : b.index h.key = none) (hc : b.createReal h id = (idx, b')) :
    Pending b' (update kids idx []) frees.tail ∅ {idx} idx ∧ Grown b b' idx id h := by
  obtain ⟨⟨k, c⟩, ha⟩ :
    ∃ r, b.allocSlot ⟨.real id h, h.position, h.fragment, none, none, none⟩ = r := ⟨_, rfl⟩
  unfold createReal at hc
  rw [ha] at hc
  simp only [Prod.mk.injEq] at hc
  obtain ⟨rfl, rfl⟩ := hc
  obtain ⟨hnew, hslots, -, hleaves, hcount, hsize, -, -⟩ := hw.graph.allocSlot ha
  have hfresh : k ∉ b.realSet := fun hr => hnew (realSet_live hr)
  have hg : Graph { c with index := update c.index h.key (some k) }
      (update kids k []) frees.tail ∅ {k} := by
    refine (hw.graph.addNode ha hix (by simp) (fun id' h' hr => by cases hr; rfl)).weaken ?_ ?_
    · intro i hi hgi _ hm
      have hik : i = k := hm.resolve_right (by simp)
      have hdk : (c.slots i).data = .ghost := hgi
      rw [hik, hslots, update_self] at hdk
      cases hdk
    · intro i _ _ _ _ hni hm
      exact absurd (hm.resolve_right (by simp)) hni
  refine ⟨?_, ?_⟩
  · exact pending_of_update hw hslots hsize hfresh rfl (fun _ hik => update_of_ne hik _ _)
      (congrArg (·.onNodeInserted k h) hleaves) (congrArg (· + 1) hcount) hg.setLeaves
  · refine grown_of_update hslots hsize hfresh rfl (fun hl => absurd hl hnew) ?_
    intro q hq
    cases hq

/-- **The new node**: a ghost turned real, or a slot of its own. -/
theorem findOrCreate_spec (hf : b.findOrCreate h id = some (idx, b')) :
    ∃ kids' frees', Pending b' kids' frees' ∅ {idx} idx ∧ Grown b b' idx id h := by
  unfold findOrCreate at hf
  cases hix : b.index h.key with
  | none =>
    rw [hix] at hf
    exact ⟨_, _, createReal_spec hw hix (Option.some.inj hf)⟩
  | some k =>
    obtain ⟨hl, hkey⟩ := (hw.graph.indexed h.key k).mp hix
    rw [hix] at hf
    cases hd : (b.slots k).data with
    | real => simp [hd] at hf
    | free => exact absurd hd hl.2
    | ghost =>
      simp only [hd, Option.some.injEq, Prod.mk.injEq] at hf
      obtain ⟨rfl, rfl⟩ := hf
      exact ⟨_, _, promote_spec hw hl hd hkey⟩

end

/-- What linking the new node may add to `b`: a ghost without links of its own, and the link from
`idx` to the node under the key of its parent. -/
structure LinkStep (b b' : LineageBackend) (idx : Nat) (h : SequenceHash) : Prop where
  real : b'.realSet = b.realSet
  data : ∀ i, b.Live i → (b'.slots i).data = (b.slots i).data
  live : ∀ i, b.Live i → b'.Live i ∧ b'.keyAt i = b.keyAt i
  parent : ∀ i q, b'.Live i → (b'.slots i).parent = some q →
    (b.Live i ∧ (b.slots i).parent = some q) ∨ (i = idx ∧ b'.keyAt q = h.parentKey)

theorem LinkStep.refl (b : LineageBackend) : LinkStep b b idx h :=
  ⟨rfl, fun _ _ => rfl, fun _ hi => ⟨hi, rfl⟩, fun _ _ hi hq => Or.inl ⟨hi, hq⟩⟩

theorem Grown.link (hgr : Grown b b' idx id h) (hst : LinkStep b' c idx h)
    (hidx : b'.Live idx) (hreal : ∀ i q, b'.Live i → (b'.slots i).parent = some q → b'.Live q) :
    Grown b c idx id h where
  fresh := hgr.fresh
  real := hst.real.trans hgr.real
  self := by rw [hst.data idx hidx, hgr.self]
  data := fun i hi => by
    rw [hst.data i (hgr.live i (realSet_live hi)).1, hgr.data i hi]
  live := fun i hi => by
    obtain ⟨hl, hk⟩ := hgr.live i hi
    exact ⟨(hst.live i hl).1, (hst.live i hl).2.trans hk⟩
  parent := fun i q hi hq => by
    rcases hst.parent i q hi hq with ⟨hl, hp⟩ | hnew
    · rcases hgr.parent i q hl hp with hold | ⟨he, hk⟩
      · exact Or.inl hold
      · exact Or.inr ⟨he, by rw [(hst.live q (hreal i q hl hp)).2, hk]⟩
    · exact Or.inr hnew

/-- The node under the parent's key is there afterwards, childless only if it is new. -/
theorem parentNode_spec (hp : Pending b kids frees ∅ {idx} idx) (hn : b.parentNode h = (p, b')) :
    ∃ kids' frees', Pending b' kids' frees' {p} {idx} idx ∧ b'.Live p ∧
      b'.keyAt p = h.parentKey ∧ b'.realSet = b.realSet ∧
      (∀ i, b.Live i → b'.Live i ∧ b'.slots i = b.slots i) ∧
      ∀ i, b'.Live i → b.Live i ∨ (b'.slots i).parent = none := by
  unfold parentNode at hn
  cases hix : b.index h.parentKey with
  | some =>
    rw [hix] at hn
    cases hn
    obtain ⟨hl, hk⟩ := (hp.graph.indexed h.parentKey p).mp hix
    refine ⟨kids, frees, ⟨?_, hp.policy, hp.count, hp.real⟩, hl, hk, rfl,
      fun i hi => ⟨hi, rfl⟩, fun i hi => Or.inl hi⟩
    exact hp.graph.weakenBare fun _ _ _ _ hm => absurd hm (by simp)
  | none =>
    rw [hix] at hn
    obtain ⟨⟨k, c⟩, ha⟩ : ∃ r,
      b.allocSlot ⟨.ghost, h.position - 1, h.parentFragment, none, none, none⟩ = r := ⟨_, rfl⟩
    simp only [ha, Prod.mk.injEq] at hn
    obtain ⟨rfl, rfl⟩ := hn
    obtain ⟨hnew, hslots, -, hleaves, hcount, hsize, -, -⟩ := hp.graph.allocSlot ha
    have hself : c.slots k = ⟨.ghost, h.position - 1, h.parentFragment, none, none, none⟩ := by
      rw [hslots]; simp
    have hold : ∀ i, i ≠ k → c.slots i = b.slots i := fun i hi => by rw [hslots]; simp [hi]
    have hlive : ∀ {i}, c.Live i ↔ i = k ∨ b.Live i := live_of_update hslots hsize (by simp)
    have hkr : k ∉ b.realSet := fun hr => hnew (realSet_live hr)
    have hreal : c.realSet = b.realSet := by
      ext i
      rw [realSet_of_update hslots hsize]
      by_cases hi : i = k
      · simp [hi, hkr]
      · simp [hi]
    have hg : Graph _ _ _ {k} {idx} :=
      (hp.graph.addNode ha hix (by simp) (fun id' h' hr => by cases hr)).weaken
      (fun i _ _ hni hm => absurd (hm.resolve_right (by simp)) hni)
      (fun i id' h' _ hdi hni hm => by
        have hik : i = k := hm.resolve_right hni
        have hdi' : (c.slots i).data = .real id' h' := hdi
        rw [hik, hself] at hdi'
        cases hdi')
    refine ⟨_, _, ⟨hg, ?_, ?_, ?_⟩, hlive.mpr (Or.inl rfl), ?_, hreal, ?_, ?_⟩
    · show c.leaves.Wf c.realSet (c.leafSet (update kids k []) \ {idx})
      rw [hleaves, hreal]
      refine (congrArg (b.leaves.Wf b.realSet) (Set.ext fun i => ?_)).mp hp.policy
      refine and_congr_left fun _ => ?_
      unfold leafSet
      rw [Set.mem_ofPred_eq, Set.mem_ofPred_eq, hreal]
      refine and_congr_right fun hi => ?_
      have hik : i ≠ k := fun hc => hkr (hc ▸ hi)
      rw [update_of_ne hik]
    · show c.count = c.realSet.card
      rw [hcount, hreal]
      exact hp.count
    · show idx ∈ c.realSet
      rw [hreal]
      exact hp.real
    · show ((c.slots k).position, (c.slots k).fragment) = _
      rw [hself]
      rfl
    · intro i hi
      exact ⟨hlive.mpr (Or.inr hi), hold i fun hc => hnew (hc ▸ hi)⟩
    · intro i hi
      refine (hlive.mp hi).symm.imp_right fun hik => ?_
      show (c.slots i).parent = none
      rw [hik, hself]

/-- A parent that was a leaf leaves the order; any other node was not in it. -/
theorem demoteParent_spec {leaf : Set Nat} (wasLeaf : Bool) (hl : b.Live p)
    (hpol : b.leaves.Wf b.realSet leaf) (hnot : wasLeaf = false → p ∉ leaf) :
    ∃ leaves, b.demoteParent p wasLeaf = some { b with leaves := leaves } ∧
      leaves.Wf b.realSet (leaf \ {p}) := by
  have hsame : p ∉ leaf → b.leaves.Wf b.realSet (leaf \ {p}) := by
    intro hp
    rw [Set.sdiff_singleton_eq_self hp]
    exact hpol
  unfold demoteParent
  cases hd : (b.slots p).data with
  | free => exact absurd hd hl.2
  | ghost =>
    exact ⟨b.leaves, by cases wasLeaf <;> rfl, hsame fun hp => not_mem_realSet hd (hpol.sub hp)⟩
  | real =>
    cases wasLeaf with
    | false => exact ⟨b.leaves, rfl, hsame (hnot rfl)⟩
    | true =>
      obtain ⟨q, hq, hqwf⟩ := LeafPolicy.onLeafDemoted_wf hpol p
      exact ⟨q, by simp [hq], hqwf⟩

/-- **The link to the parent** is made, or is not needed. -/
theorem linkParent_spec (hp : Pending b kids frees ∅ {idx} idx)
    (hd : (b.slots idx).data = .real id h) :
    ∃ b' kids' frees', b.linkParent h idx = some b' ∧ Pending b' kids' frees' ∅ ∅ idx ∧
      LinkStep b b' idx h := by
  have hidx := realSet_live hp.real
  have hkey := hp.graph.realKey idx id h hidx hd
  unfold linkParent
  by_cases hcond : 0 < h.position ∧ (b.slots idx).parent = none
  · rw [if_pos hcond]
    obtain ⟨⟨p, c⟩, hn⟩ : ∃ r, b.parentNode h = r := ⟨_, rfl⟩
    rw [hn]
    obtain ⟨kids', frees', hpc, hpl, hpk, hreal, hlive, hback⟩ := parentNode_spec hp hn
    obtain ⟨hidxc, hslot⟩ := hlive idx hidx
    have hposi : (c.slots idx).position = h.position := by
      rw [hslot]
      exact congrArg Prod.fst hkey
    have hposp : (c.slots p).position = h.position - 1 := congrArg Prod.fst hpk
    have hpar : (c.slots idx).parent = none := by rw [hslot]; exact hcond.2
    have hpos : (c.slots idx).position = (c.slots p).position + 1 := by omega
    have hne : p ≠ idx := by
      rintro rfl
      omega
    have hslots := linkChild_slots (b := c) hne
    have hg := hpc.graph.linkChild hidxc hpl hpar hpos
    have hr := linkChild_relinked c p idx
    -- the new leaf set, away from the new node, is the old one without the parent
    have hleaf : (c.linkChild p idx).leafSet (update kids' p (idx :: kids' p)) \ {idx} =
        (c.leafSet kids' \ {idx}) \ {p} := by
      ext i
      unfold leafSet
      simp only [Set.mem_sdiff, Set.mem_ofPred_eq, Set.mem_singleton_iff, hr.realSet]
      by_cases hip : i = p
      · simp [hip]
      · simp [hip]
    obtain ⟨leaves, hdeq, hpol⟩ := demoteParent_spec (b := c.linkChild p idx) (c.slots p).isLeaf
      (hr.live.mpr hpl) (by rw [hr.realSet]; exact hpc.policy) (fun hw hm => by
        rw [← Bool.not_eq_true] at hw
        exact hw ((hpc.graph.leaf_iff hpl).mpr hm.1.2))
    have hg' : Graph (c.linkChild p idx) (update kids' p (idx :: kids' p)) frees' ∅ ∅ := by
      refine hg.weaken (fun i _ _ _ hm => absurd hm.1 hm.2) (fun i _ _ _ _ _ hm => ?_)
      exact absurd hm.1 hm.2
    refine ⟨_, _, _, hdeq, ⟨hg'.setLeaves, ?_, ?_, ?_⟩, ?_, ?_, ?_, ?_⟩
    · show leaves.Wf (c.linkChild p idx).realSet
        ((c.linkChild p idx).leafSet (update kids' p (idx :: kids' p)) \ {idx})
      rw [hleaf]
      exact hpol
    · show c.count = (c.linkChild p idx).realSet.card
      rw [hr.realSet]
      exact hpc.count
    · show idx ∈ (c.linkChild p idx).realSet
      rw [hr.realSet]
      exact hpc.real
    · show (c.linkChild p idx).realSet = b.realSet
      rw [hr.realSet, hreal]
    · intro i hi
      show ((c.linkChild p idx).slots i).data = _
      rw [hr.data, (hlive i hi).2]
    · intro i hi
      refine ⟨hr.live.mpr (hlive i hi).1, (hr.keyAt i).trans ?_⟩
      unfold keyAt
      rw [(hlive i hi).2]
    · intro i q hi hq
      have hq' : ((c.linkChild p idx).slots i).parent = some q := hq
      have hic : c.Live i := hr.live.mp hi
      by_cases hii : i = idx
      · right
        refine ⟨hii, ?_⟩
        rw [hii, hslots, if_neg hne.symm, if_pos rfl] at hq'
        cases hq'
        exact (hr.keyAt p).trans hpk
      · left
        have hpi : (c.slots i).parent = some q := by
          rw [hslots] at hq'
          by_cases hip : i = p
          · rw [if_pos hip] at hq'
            rw [hip]
            exact hq'
          · rw [if_neg hip, if_neg hii] at hq'
            exact hq'
        rcases hback i hic with hib | hnone
        · rw [(hlive i hib).2] at hpi
          exact ⟨hib, hpi⟩
        · rw [hnone] at hpi
          cases hpi
  · rw [if_neg hcond]
    refine ⟨b, kids, frees, rfl, ⟨?_, hp.policy, hp.count, hp.real⟩, LinkStep.refl b⟩
    refine hp.graph.weaken (fun _ _ _ _ hm => absurd hm (by simp)) ?_
    intro i id' h' hi hdi _ hm hpos hnone
    rw [Set.mem_singleton_iff.mp hm] at hdi hnone
    rw [hd] at hdi
    cases hdi
    exact hcond ⟨hpos, hnone⟩

/-- A node that is ready but for the eviction order enters it if it is a leaf. -/
theorem enterOrder_spec (hp : Pending b kids frees ∅ ∅ idx) :
    ∃ leaves, b.enterOrder idx = some { b with leaves := leaves } ∧
      WfWith { b with leaves := leaves } kids frees := by
  have hidx := realSet_live hp.real
  unfold enterOrder
  by_cases hleaf : (b.slots idx).isLeaf = true
  · rw [if_pos hleaf]
    have hk := (hp.graph.leaf_iff hidx).mp hleaf
    obtain ⟨q, hq, hqwf⟩ := LeafPolicy.onLeafAdded_wf hp.policy hp.real fun hm => hm.2 rfl
    refine ⟨q, by rw [hq]; rfl, hp.graph.setLeaves, ?_, hp.count⟩
    refine (congrArg (q.Wf b.realSet) (Set.ext fun i => ?_)).mp hqwf
    rw [Set.mem_insert_iff, Set.mem_sdiff, Set.mem_singleton_iff]
    refine ⟨?_, fun hm => (em (i = idx)).imp_right fun hne => ⟨hm, hne⟩⟩
    rintro (rfl | hm)
    · exact ⟨hp.real, hk⟩
    · exact hm.1
  · rw [if_neg hleaf]
    have hout : idx ∉ b.leafSet kids := fun hm => hleaf ((hp.graph.leaf_iff hidx).mpr hm.2)
    refine ⟨b.leaves, rfl, hp.graph, ?_, hp.count⟩
    have hpol := hp.policy
    rw [Set.sdiff_singleton_eq_self hout] at hpol
    exact hpol

/-- A key is free for an insertion when no real node has it. -/
theorem findOrCreate_isSome (hw : WfWith b kids frees) :
    (∃ r, b.findOrCreate h id = some r) ↔ ∀ i ∈ b.realSet, b.keyAt i ≠ h.key := by
  unfold findOrCreate
  cases hix : b.index h.key with
  | none =>
    refine ⟨fun _ i hi hk => ?_, fun _ => ⟨_, rfl⟩⟩
    have := (hw.graph.indexed h.key i).mpr ⟨realSet_live hi, hk⟩
    rw [hix] at this
    cases this
  | some j =>
    obtain ⟨hl, hk⟩ := (hw.graph.indexed _ _).mp hix
    cases hd : (b.slots j).data with
    | free => exact absurd hd hl.2
    | real =>
      simp only [hd]
      refine ⟨fun ⟨_, hc⟩ => absurd hc (by simp), fun hall => ?_⟩
      exact absurd hk (hall j (mem_realSet_of_data hl hd))
    | ghost =>
      simp only [hd]
      refine ⟨fun _ i hi hki => ?_, fun _ => ⟨_, rfl⟩⟩
      rw [hw.graph.key_unique (realSet_live hi) hl (hki.trans hk.symm)] at hi
      exact not_mem_realSet hd hi

/-- **An insertion comes back exactly when no real node has the key**, and then leaves the graph
in order with one real node more. -/
theorem insertInner_spec (hw : Wf b) (hfree : ∀ i ∈ b.realSet, b.keyAt i ≠ h.key) :
    ∃ b' idx, b.insertInner h id = some b' ∧ Wf b' ∧ Grown b b' idx id h := by
  obtain ⟨kids, frees, hw⟩ := hw
  obtain ⟨⟨idx, c⟩, hf⟩ := (findOrCreate_isSome hw).mpr hfree
  obtain ⟨kids1, frees1, hp1, hgr⟩ := findOrCreate_spec hw hf
  obtain ⟨d, kids2, frees2, hl, hp2, hst⟩ := linkParent_spec hp1 hgr.self
  obtain ⟨q, he, hq⟩ := enterOrder_spec hp2
  have hgrown : Grown b d idx id h := hgr.link hst (realSet_live hp1.real)
    fun i q hli hq => (hp1.graph.parentLive i q hli hq).1
  refine ⟨{ d with leaves := q }, idx, ?_, ⟨kids2, frees2, hq⟩,
    ⟨hgrown.1, hgrown.2, hgrown.3, hgrown.4, hgrown.5, hgrown.6⟩⟩
  unfold insertInner
  rw [hf]
  show (c.linkParent h idx).bind (fun b => b.enterOrder idx) = _
  rw [hl]
  exact he

theorem insertInner_some (hw : Wf b) (hi : b.insertInner h id = some b') :
    ∀ i ∈ b.realSet, b.keyAt i ≠ h.key := by
  obtain ⟨kids, frees, hw⟩ := hw
  obtain ⟨r, hf, -⟩ := Option.bind_eq_some_iff.mp hi
  exact (findOrCreate_isSome hw).mp ⟨r, hf⟩

end LineageBackend

end Kvbm
