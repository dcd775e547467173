/-
Whole runs of the lineage backend.

A ghost that turns real again keeps the link to its parent that it had.  That link is
the right one only if no two hashes share a key, so the hashes of a run are taken from
a set on which the key is injective; then every real node above position zero hangs
below the node that its own hash names as its parent.

The store reaches the backend through the trait, and the last part of this file is
that the backend is a lawful index, for any hashes at all.
-/
import Kvbm.Proofs.Index.LineageWalk
import Kvbm.Lib.Run

namespace Kvbm

namespace LineageBackend

open Lib IndexView

variable {b b' : LineageBackend} {kids : Nat → List Nat} {frees : List Nat}
  {i idx : Nat} {h : SequenceHash} {id : BlockId} {Q : LineageBackend → Prop}
  {U : Set SequenceHash}

/-! ### Parents under the keys that name them -/

/-- Hashes come from `U`, and every link to a parent is one that a hash of `U` asks for. -/
structure Rooted (U : Set SequenceHash) (b : LineageBackend) : Prop where
  hashes : ∀ i ∈ b.realSet, ∀ id h, (b.slots i).data = .real id h → h ∈ U
  links : ∀ i p, b.Live i → (b.slots i).parent = some p →
    ∃ h ∈ U, h.key = b.keyAt i ∧ b.keyAt p = h.parentKey

/-- Every real node above position zero hangs below the node keyed by its parent fragment. -/
def ParentKeyed (b : LineageBackend) : Prop :=
  ∀ i id h, b.Live i → (b.slots i).data = .real id h → 0 < h.position →
    ∃ p, (b.slots i).parent = some p ∧ b.Live p ∧ b.keyAt p = h.parentKey

theorem rooted_stable : Stable (Rooted U) := by
  rintro b b' - ⟨kids, frees, hw⟩ hs hr
  refine ⟨fun i hi id h hd => ?_, fun i p hi hp => ?_⟩
  · obtain ⟨hib, id', hd'⟩ := hs.hash i hi id h hd
    exact hr.hashes i hib id' h hd'
  · obtain ⟨hib, hpar, hkey⟩ := hs.live i hi
    have hpl := (hw.graph.parentLive i p hi hp).1
    rw [hpar] at hp
    obtain ⟨h, hU, hk, hpk⟩ := hr.links i p hib hp
    exact ⟨h, hU, hk.trans hkey.symm, (hs.live p hpl).2.2.trans hpk⟩

theorem Rooted.grown (hr : Rooted U b) (hw : WfWith b kids frees) (hw' : Wf b')
    (hg : Grown b b' idx id h) (hU : h ∈ U) : Rooted U b' := by
  obtain ⟨kids', frees', hw'⟩ := hw'
  refine ⟨fun i hi id' h' hd => ?_, fun i p hi hp => ?_⟩
  · rw [hg.real] at hi
    rcases Finset.mem_insert.mp hi with rfl | hi
    · rw [hg.self] at hd
      cases hd
      exact hU
    · rw [hg.data i hi] at hd
      exact hr.hashes i hi id' h' hd
  · rcases hg.parent i p hi hp with ⟨hib, hpb⟩ | ⟨rfl, hk⟩
    · obtain ⟨g, hgU, hk, hpk⟩ := hr.links i p hib hpb
      have hpl := (hw.graph.parentLive i p hib hpb).1
      exact ⟨g, hgU, hk.trans (hg.live i hib).2.symm, (hg.live p hpl).2.trans hpk⟩
    · exact ⟨h, hU, (hw'.graph.realKey i id h hi hg.self).symm, hk⟩

theorem Rooted.parentKeyed (hr : Rooted U b) (hU : Set.InjOn SequenceHash.key U)
    (hw : WfWith b kids frees) : ParentKeyed b := by
  intro i id h hi hd hpos
  obtain ⟨p, hp⟩ := Option.ne_none_iff_exists'.mp (hw.graph.realLinked i id h hi hd (by simp) hpos)
  obtain ⟨g, hg, hk, hpk⟩ := hr.links i p hi hp
  have hh := hr.hashes i (mem_realSet_of_data hi hd) id h hd
  obtain rfl : g = h := hU hg hh (hk.trans (hw.graph.realKey i id h hi hd))
  exact ⟨p, hp, (hw.graph.parentLive i p hi hp).1, hpk⟩

theorem ParentKeyed.leaf_childless (hp : ParentKeyed b) (hw : WfWith b kids frees)
    (hi : i ∈ b.leafSet kids) (hd : (b.slots i).data = .real id h) {g : Entry}
    (hg : g ∈ b.entries) (hpos : 0 < g.1.position) : g.1.parentKey ≠ h.key := by
  intro hk
  obtain ⟨j, hj, hdj⟩ := mem_entries.mp hg
  obtain ⟨p, hpar, hpl, hpk⟩ := hp j g.2 g.1 (realSet_live hj) hdj hpos
  have hil := realSet_live hi.1
  obtain rfl : p = i := by
    refine hw.graph.key_unique hpl hil ?_
    rw [hpk, hk, hw.graph.realKey i id h hil hd]
  exact List.ne_nil_of_mem ((hw.graph.kidIff p j hpl).mpr ⟨realSet_live hj, hpar⟩) hi.2

/-! ### Runs -/

/-- Insertions are of hashes from `U`. -/
def InsertsFrom (U : Set SequenceHash) : IndexOp → Prop
  | .insert h _ => h ∈ U
  | _ => True

/-- An insertion that comes back is of a hash whose key was free. -/
theorem insert_wf
    (hQ : ∀ kids frees idx b', WfWith b kids frees → Q b → Wf b' → Grown b b' idx id h → Q b')
    (hw : (view Q).Wf b) (hi : b.insertInner h id = some b') : (view Q).Wf b' := by
  obtain ⟨hwf, hq⟩ := hw
  obtain ⟨c, idx, hc, hwc, hg⟩ := insertInner_spec hwf (insertInner_some hwf hi)
  rw [hi] at hc
  cases hc
  obtain ⟨kids, frees, hwf⟩ := hwf
  exact ⟨hwc, hQ kids frees idx b' hwf hq hwc hg⟩

/-- A call that returns what it took along with the new state keeps the state in order. -/
theorem wf_of_taken {α : Type} {r : Option (α × LineageBackend)}
    (hr : ∃ x l b', r = some (x, b') ∧ (view Q).Taken b l b')
    (hs : r.map Prod.snd = some b') : (view Q).Wf b' := by
  obtain ⟨x, l, c, rfl, ht⟩ := hr
  cases hs
  exact ht.wf

/-- **Every call keeps the graph in order.** -/
theorem step_wf (hQ : Stable Q) {op : IndexOp}
    (hins : ∀ h id, op = .insert h id → ∀ kids frees idx b', WfWith b kids frees → Q b → Wf b' →
      Grown b b' idx id h → Q b')
    (hw : (view Q).Wf b) (hs : op.step b = some b') : (view Q).Wf b' := by
  have hpops := removeByHash_pops hQ
  cases op with
  | insert h id => exact insert_wf (hins h id rfl) hw hs
  | findMatch h =>
    obtain ⟨r, c, hr, ht, -⟩ := hpops b h hw
    exact wf_of_taken ⟨r, _, c, hr, ht⟩ hs
  | findMatches hs' =>
    obtain ⟨l, c, hl, ht, -⟩ := findLoop_taken hpops hs' b hw
    exact wf_of_taken ⟨l, l, c, hl, ht⟩ hs
  | scanMatches hs' =>
    obtain ⟨l, c, hl, ht, -⟩ := scanLoop_taken hpops hs' b hw
    exact wf_of_taken ⟨l, l, c, hl, ht⟩ hs
  | allocate n =>
    obtain ⟨l, c, hl, ht, -⟩ := victimLoop_taken (victim_evicts hQ) n b hw
    exact wf_of_taken ⟨l, l, c, hl, ht⟩ hs
  | allocateAll =>
    obtain ⟨l, c, hl, ht, -⟩ := victimLoop_taken (victim_evicts hQ) b.count b hw
    exact wf_of_taken ⟨l, l, c, hl, ht⟩ hs
  | rebind h src dst =>
    have hs : some (b.rebind h src dst).2 = some b' := hs
    by_cases he : (h, src) ∈ b.entries
    · obtain ⟨c, hc, hwc, -⟩ := rebind_spec hQ hw he
      rw [hc] at hs
      cases hs
      exact hwc
    · unfold rebind at hs
      rw [(realIndex_eq_none hw.1).mpr he] at hs
      cases hs
      exact hw
  | take h id =>
    by_cases he : (h, id) ∈ b.entries
    · obtain ⟨c, hc, ht⟩ := take_taken hQ hw he
      exact wf_of_taken ⟨true, _, c, hc, ht⟩ hs
    · exact wf_of_taken ⟨false, _, b, take_absent hw.1 he, IndexView.Taken.refl hw⟩ hs
  | takeWithDescendants h =>
    obtain ⟨l, c, hl, ht, -⟩ := takeWithDescendants_taken (h := h) hQ hw
    exact wf_of_taken ⟨l, l, c, hl, ht⟩ hs
  | takeCompleteLineage h =>
    obtain ⟨r, c, hr, -, hnone, hsome⟩ := takeExactCompleteLineage_taken (h := h) hQ hw
    cases r with
    | none =>
      rw [hnone rfl] at hr
      exact wf_of_taken ⟨none, _, b, hr, IndexView.Taken.refl hw⟩ hs
    | some l => exact wf_of_taken ⟨some l, l, c, hr, (hsome l rfl).1⟩ hs
  | poison h =>
    obtain ⟨c, hc, ht⟩ := poisonSuffix_taken (h := h) hQ hw
    rw [show poisonSuffix b h = some b' from hs] at hc
    cases hc
    exact ht.wf
  | growCapacity =>
    cases hs
    exact hw

/-- A new backend, under a leaf policy that is new too. -/
def Fresh (b : LineageBackend) : Prop := ∃ p : LeafPolicy, p.Fresh ∧ b = withPolicy p

theorem Fresh.realSet (hf : Fresh b) : b.realSet = ∅ := by
  obtain ⟨p, -, rfl⟩ := hf
  rfl

theorem Fresh.wf (hf : Fresh b) : Wf b := by
  have hreal := hf.realSet
  obtain ⟨p, hp, rfl⟩ := hf
  have hno : ∀ i, ¬ (withPolicy p).Live i := fun i hi => absurd hi.1 (Nat.not_lt_zero i)
  refine ⟨fun _ => [], [], ⟨rfl, List.nodup_nil, ?_, ?_, ?_, ?_, ?_, ?_, ?_, ?_, ?_⟩, ?_, rfl⟩
  · exact fun i => ⟨fun hi => absurd hi (by simp), fun hi => absurd hi.1 (Nat.not_lt_zero i)⟩
  · exact fun k i => ⟨fun hi => absurd hi (by simp [withPolicy]), fun hi => absurd hi.1 (hno i)⟩
  · exact fun i hi => absurd hi (hno i)
  · exact fun i hi => absurd hi (hno i)
  · exact fun q _ hq => absurd hq (hno q)
  · exact fun c _ hc => absurd hc (hno c)
  · exact fun i hi => absurd hi (hno i)
  · exact fun i _ _ hi => absurd hi (hno i)
  · exact fun i _ _ hi => absurd hi (hno i)
  · have hleaf : (withPolicy p).leafSet (fun _ => []) = ∅ := by
      unfold leafSet
      rw [hreal]
      simp
    rw [hleaf, hreal, Finset.coe_empty]
    exact hp.wf

theorem Fresh.rooted (hf : Fresh b) : Rooted U b := by
  have hreal := hf.realSet
  obtain ⟨p, -, rfl⟩ := hf
  refine ⟨fun i hi => ?_, fun i _ hi => absurd hi.1 (Nat.not_lt_zero i)⟩
  rw [hreal] at hi
  exact absurd hi (Finset.notMem_empty i)

/-- Evictions go from the leaves up: a block is returned after all blocks it is the parent of. -/
theorem victimLoop_order (hU : Set.InjOn SequenceHash.key U) :
    ∀ (n : Nat) (b : LineageBackend) (l : List Entry) (b' : LineageBackend),
      (view (Rooted U)).Wf b → victimLoop victim n b = some (l, b') →
      ∀ l1 e l2, l = l1 ++ e :: l2 → ∀ g ∈ b.entries, 0 < g.1.position →
        g.1.parentKey = e.1.key → g ∈ l1 := by
  intro n
  induction n with
  | zero =>
    intro b l b' _ hl l1 e l2 hsplit
    cases hl
    simp at hsplit
  | succ n ih =>
    intro b l b' hw hl l1 e l2 hsplit g hg hpos hk
    obtain ⟨r, c, hv, ht, -, hleaf⟩ := victim_spec rooted_stable hw
    unfold victimLoop at hl
    rw [hv, Option.bind_some] at hl
    cases r with
    | none =>
      cases hl
      simp at hsplit
    | some e0 =>
      obtain ⟨⟨l', c'⟩, hrest, he⟩ := Option.map_eq_some_iff.mp hl
      obtain ⟨rfl, rfl⟩ := Prod.mk.inj he
      cases l1 with
      | nil =>
        obtain ⟨rfl, -⟩ := List.cons.inj hsplit
        obtain ⟨kids, frees, hwf⟩ := hw.1
        obtain ⟨i, hi, hd⟩ := hleaf e0.1 e0.2 rfl kids frees hwf
        exact absurd hk ((hw.2.parentKeyed hU hwf).leaf_childless hwf hi hd hg hpos)
      | cons x l1 =>
        obtain ⟨hx, hrest'⟩ := List.cons.inj hsplit
        by_cases hge : g = e0
        · rw [hge, hx]
          exact List.mem_cons_self
        · have hgc : g ∈ c.entries := ht.mem_rest.mpr ⟨hg, by simpa using hge⟩
          exact List.mem_cons_of_mem _ (ih c l' c' ht.wf hrest l1 e l2 hrest' g hgc hpos hk)

/-- **The graph is in order after any run, and an eviction is complete.**  The hashes inserted
come from a set on which keys do not collide. -/
theorem reachable_inOrder_allocate (hU : Set.InjOn SequenceHash.key U)
    (hb : ReachableWhile (fun _ op => InsertsFrom U op) Fresh IndexOp.step b) :
    (∃ kids frees, WfWith b kids frees) ∧ ParentKeyed b ∧
      ∀ n, ∃ l b', InactiveIndex.allocate b n = some (l, b') ∧
        l.length = min n (InactiveIndex.len b) ∧ l.Nodup ∧ (∀ e ∈ l, e ∈ b.entries) ∧
        ∀ l1 e l2, l = l1 ++ e :: l2 → ∀ g ∈ b.entries, 0 < g.1.position →
          g.1.parentKey = e.1.key → g ∈ l1 := by
  have hw : (view (Rooted U)).Wf b := by
    refine hb.invariant (fun s hs => ⟨hs.wf, hs.rooted⟩) fun s op s' hs hop hstep => ?_
    refine step_wf rooted_stable ?_ hs hstep
    rintro h id rfl kids frees idx c hwk hq hc hg
    exact hq.grown hwk hc hg hop
  refine ⟨hw.1, ?_, fun n => ?_⟩
  · obtain ⟨kids, frees, hwf⟩ := hw.1
    exact hw.2.parentKeyed hU hwf
  · obtain ⟨l, b', hl, ht, hlen⟩ := victimLoop_taken (victim_evicts rooted_stable) n b hw
    refine ⟨l, b', hl, ?_, ht.nodup, ht.mem, victimLoop_order hU n b l b' hw hl⟩
    rw [hlen]
    exact congrArg (min n) (count_eq hw.1).symm

/-- A parent and its child, inserted in that order: both are evicted. -/
theorem reachable_inOrder_allocate_pair :
    ∃ b : LineageBackend,
      runList IndexOp.step (withPolicy (.fifo .new))
        [.insert ⟨0, 0, 5, 0⟩ 3, .insert ⟨1, 1, 6, 5⟩ 4] = some b ∧
      ∃ l b', InactiveIndex.allocate b 2 = some (l, b') ∧ l.length = 2 ∧ l.Nodup := by
  refine ⟨_, rfl, ?_⟩
  have hU : Set.InjOn SequenceHash.key {⟨0, 0, 5, 0⟩, ⟨1, 1, 6, 5⟩} := by
    rintro g (rfl | rfl) h (rfl | rfl) hk <;> simp_all [SequenceHash.key]
  obtain ⟨-, -, hall⟩ := reachable_inOrder_allocate hU
    (.step (a := .insert ⟨1, 1, 6, 5⟩ 4) (.step (a := .insert ⟨0, 0, 5, 0⟩ 3)
      (.init ⟨.fifo .new, .fifo, rfl⟩) (Or.inl rfl) rfl) (Or.inr rfl) rfl)
  obtain ⟨l, b', hl, hlen, hnd, -⟩ := hall 2
  exact ⟨l, b', hl, hlen, hnd⟩

/-- The slots above `j`, itself included. -/
def Above (b : LineageBackend) : Nat → Nat → Prop :=
  Relation.ReflTransGen fun c p => (b.slots c).parent = some p

/-- **No ghost outlives the blocks below it**, even where keys collide: a slot in use is a block's
or above one. -/
theorem ghosts_support (hb : Reachable Fresh IndexOp.step b) (hi : b.Live i) :
    ∃ j ∈ b.realSet, b.Above j i := by
  have hw : (view fun _ => True).Wf b :=
    hb.invariant (fun s hs => ⟨hs.wf, trivial⟩) fun s op s' hs hstep =>
      step_wf (fun _ _ _ _ _ hq => hq) (by simp) hs hstep
  obtain ⟨kids, frees, hwf⟩ := hw.1
  classical
  by_contra hnone
  -- a deepest slot without a block below it would be a ghost with a child
  let bad := {i ∈ Finset.range b.size | b.Live i ∧ ¬∃ j ∈ b.realSet, b.Above j i}
  obtain ⟨m, hm, hmax⟩ := bad.exists_max_image (fun i => (b.slots i).position)
    ⟨i, Finset.mem_filter.mpr ⟨Finset.mem_range.mpr hi.1, hi, hnone⟩⟩
  obtain ⟨-, hl, hno⟩ := Finset.mem_filter.mp hm
  have hg : (b.slots m).data = .ghost := by
    cases hd : (b.slots m).data with
    | real id h => exact absurd ⟨m, mem_realSet_of_data hl hd, .refl⟩ hno
    | ghost => rfl
    | free => exact absurd hd hl.2
  obtain ⟨c, hc⟩ := List.exists_mem_of_ne_nil _ (hwf.graph.ghostKids m hl hg (by simp))
  obtain ⟨hcl, hp⟩ := (hwf.graph.kidIff m c hl).mp hc
  have hle : (b.slots c).position ≤ (b.slots m).position := by
    refine hmax c (Finset.mem_filter.mpr ⟨Finset.mem_range.mpr hcl.1, hcl, ?_⟩)
    rintro ⟨j, hj, hjc⟩
    exact hno ⟨j, hj, hjc.tail hp⟩
  have := (hwf.graph.parentLive c m hcl hp).2
  omega

theorem ghosts_support_orphan : ∃ b : LineageBackend,
    (IndexOp.insert ⟨1, 1, 6, 5⟩ 4).step (withPolicy (.fifo .new)) = some b ∧
      ∃ j ∈ b.realSet, b.Above j 1 :=
  ⟨_, rfl, ghosts_support (.step (a := .insert ⟨1, 1, 6, 5⟩ 4) (.init ⟨_, .fifo, rfl⟩) trivial rfl)
    ⟨by decide, by decide⟩⟩

end LineageBackend

/-! ### A lawful index -/

open LineageBackend

theorem stable_true : Stable fun _ => True := fun _ _ _ _ _ hq => hq

instance : LawfulIndex LineageBackend where
  view := view fun _ => True
  hash_unique hw := entries_unique hw.1
  len_eq := fun hw => count_eq hw.1
  has_iff := by
    intro b h hw
    show (b.hashIndex h).isSome = true ↔ _
    rw [Option.isSome_iff_ne_none, ne_eq, hashIndex_eq_none hw.1]
    simp [view]
  findMatch_spec := removeByHash_pops stable_true
  findMatches_spec hs := IndexView.findLoop_taken (removeByHash_pops stable_true) hs _
  scanMatches_spec hs := IndexView.scanLoop_taken (removeByHash_pops stable_true) hs _
  allocate_spec n := IndexView.victimLoop_taken (victim_evicts stable_true) n _
  allocateAll_spec hw := IndexView.victimLoop_all (victim_evicts stable_true) hw (count_eq hw.1)
  insert_spec := by
    intro b h id n hw _ _ _ _ hadm
    obtain ⟨kids, frees, hwf⟩ := hw.1
    have hfree : ∀ i ∈ b.realSet, b.keyAt i ≠ h.key := by
      intro i hi
      obtain ⟨-, id', h', hd⟩ := mem_realSet.mp hi
      rw [hwf.graph.realKey i id' h' (realSet_live hi) hd]
      exact hadm _ (mem_entries_of_data hi hd)
    obtain ⟨b', idx, hb', hw', hg⟩ := insertInner_spec hw.1 hfree
    exact ⟨b', hb', ⟨hw', trivial⟩, hg.entries, fun _ hm => hm, rfl⟩
  insert_admits := by
    intro b b' h id hw hi e he
    obtain ⟨kids, frees, hwf⟩ := hw.1
    obtain ⟨i, hr, hd⟩ := mem_entries.mp he
    show e.1.key ≠ h.key
    rw [← hwf.graph.realKey i e.2 e.1 (realSet_live hr) hd]
    exact insertInner_some hw.1 hi i hr
  rebind_spec := by
    intro b h src dst hw he _
    obtain ⟨b', hb', hw', hrest⟩ := LineageBackend.rebind_spec stable_true hw he
    exact ⟨b', hb', hw', hrest, fun _ hm => hm, rfl⟩
  take_spec := take_taken stable_true
  take_absent hw := LineageBackend.take_absent hw.1
  takeWithDescendants_spec _ _ := takeWithDescendants_taken stable_true
  takeCompleteLineage_spec _ _ := takeExactCompleteLineage_taken stable_true
  poison_spec _ := poisonSuffix_taken stable_true
  growCapacity_spec := fun hw _ _ => ⟨hw, rfl, trivial, rfl⟩

end Kvbm
