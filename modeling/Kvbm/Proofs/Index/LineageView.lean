/-
The lineage backend as an index.

Seen from the store, the graph is a set of pairs of hash and block.  A removal takes
one pair out, whichever way its node was found: by hash, as the next victim, or as
part of a whole lineage.  What a caller wants to know besides, of hashes and parents,
rides along as a property `Q` of the backend that no removal can break.

An eviction always finds a victim while a block is left: a live node of the largest
position has no child, so it is a real leaf.
-/
import Kvbm.Proofs.Index.Lineage
import Kvbm.Proofs.Index.Lawful
import Mathlib.Data.Finset.Option

namespace Kvbm

namespace LineageBackend

open Lib Finset

variable {b b' : LineageBackend} {kids : Nat → List Nat} {frees : List Nat}
  {i j idx p : Nat} {h : SequenceHash} {id src dst : BlockId} {e : Entry}

/-! ### The pairs of the graph -/

/-- The pairs of the real nodes. -/
def entries (b : LineageBackend) : Finset Entry :=
  eraseNone (b.realSet.image fun i => (b.slots i).data.entry?)

theorem entry?_eq_some {d : SlotData} : d.entry? = some (h, id) ↔ d = .real id h := by
  cases d <;> simp [SlotData.entry?, and_comm]

theorem mem_entries : (h, id) ∈ b.entries ↔ ∃ i ∈ b.realSet, (b.slots i).data = .real id h := by
  unfold entries
  rw [mem_eraseNone, mem_image]
  simp only [entry?_eq_some]

theorem mem_entries_of_data (hi : i ∈ b.realSet) (hd : (b.slots i).data = .real id h) :
    (h, id) ∈ b.entries := mem_entries.mpr ⟨i, hi, hd⟩

theorem WfWith.node_unique {id' : BlockId} (hw : WfWith b kids frees) (hi : i ∈ b.realSet)
    (hd : (b.slots i).data = .real id h) (hj : j ∈ b.realSet)
    (hd' : (b.slots j).data = .real id' h) : i = j := by
  refine hw.graph.key_unique (realSet_live hi) (realSet_live hj) ?_
  rw [hw.graph.realKey i id h (realSet_live hi) hd, hw.graph.realKey j id' h (realSet_live hj) hd']

theorem entries_unique {id' : BlockId} (hw : Wf b) (h1 : (h, id) ∈ b.entries)
    (h2 : (h, id') ∈ b.entries) : id = id' := by
  obtain ⟨kids, frees, hw⟩ := hw
  obtain ⟨i, hi, hd⟩ := mem_entries.mp h1
  obtain ⟨j, hj, hd'⟩ := mem_entries.mp h2
  rw [hw.node_unique hi hd hj hd', hd'] at hd
  cases hd
  rfl

theorem card_entries (hw : Wf b) : b.entries.card = b.realSet.card := by
  obtain ⟨kids, frees, hw⟩ := hw
  refine (card_bij (fun i _ => (b.slots i).data.entry?.getD (⟨0, 0, 0, 0⟩, 0)) ?_ ?_ ?_).symm
  · intro i hi
    obtain ⟨-, id, h, hd⟩ := mem_realSet.mp hi
    rw [hd]
    exact mem_entries_of_data hi hd
  · intro i hi j hj he
    obtain ⟨-, id, h, hd⟩ := mem_realSet.mp hi
    obtain ⟨-, id', h', hd'⟩ := mem_realSet.mp hj
    rw [hd, hd'] at he
    obtain ⟨rfl, rfl⟩ : h = h' ∧ id = id' := Prod.mk.inj he
    exact hw.node_unique hi hd hj hd'
  · rintro ⟨h, id⟩ he
    obtain ⟨i, hi, hd⟩ := mem_entries.mp he
    exact ⟨i, hi, by rw [hd]; rfl⟩

theorem count_eq (hw : Wf b) : b.count = b.entries.card := by
  rw [card_entries hw]
  obtain ⟨kids, frees, hw⟩ := hw
  exact hw.count

theorem Removed.entries (hw : Wf b) (hi : i ∈ b.realSet) (hd : (b.slots i).data = .real id h)
    (hr : Removed b b' i) : b'.entries = b.entries.erase (h, id) := by
  obtain ⟨kids, frees, hw⟩ := hw
  ext ⟨h', id'⟩
  rw [mem_erase, mem_entries, mem_entries]
  refine ⟨?_, ?_⟩
  · rintro ⟨j, hj, hdj⟩
    obtain ⟨hj', hsame⟩ := hr.kept.data j hj
    rw [hsame] at hdj
    refine ⟨fun he => ?_, j, hj', hdj⟩
    obtain ⟨rfl, rfl⟩ := Prod.mk.inj he
    rw [hr.real, mem_erase] at hj
    exact hj.1 (hw.node_unique hj.2 hdj hi hd)
  · rintro ⟨hne, j, hj, hdj⟩
    have hji : j ≠ i := by
      rintro rfl
      rw [hd] at hdj
      cases hdj
      exact hne rfl
    have hj' : j ∈ b'.realSet := by
      rw [hr.real, mem_erase]
      exact ⟨hji, hj⟩
    exact ⟨j, hj', by rw [(hr.kept.data j hj').2, hdj]⟩

theorem Grown.entries (hg : Grown b b' idx id h) : b'.entries = insert (h, id) b.entries := by
  ext ⟨h', id'⟩
  rw [mem_insert, mem_entries, mem_entries, hg.real]
  refine ⟨?_, ?_⟩
  · rintro ⟨j, hj, hdj⟩
    rcases mem_insert.mp hj with rfl | hj
    · rw [hg.self] at hdj
      cases hdj
      exact Or.inl rfl
    · rw [hg.data j hj] at hdj
      exact Or.inr ⟨j, hj, hdj⟩
  · rintro (he | ⟨j, hj, hdj⟩)
    · obtain ⟨rfl, rfl⟩ := Prod.mk.inj he
      exact ⟨idx, mem_insert_self _ _, hg.self⟩
    · exact ⟨j, mem_insert_of_mem hj, by rw [hg.data j hj, hdj]⟩

/-! ### What rides along -/

/-- No real node of `b'` is new or has another hash than in `b`, and no live node another parent
or another key. -/
structure Shrunk (b b' : LineageBackend) : Prop where
  hash : ∀ i ∈ b'.realSet, ∀ id h, (b'.slots i).data = .real id h →
    i ∈ b.realSet ∧ ∃ id', (b.slots i).data = .real id' h
  live : ∀ i, b'.Live i → b.Live i ∧ (b'.slots i).parent = (b.slots i).parent ∧
    b'.keyAt i = b.keyAt i

theorem Kept.shrunk (hk : Kept b b') : Shrunk b b' :=
  ⟨fun i hi id h hd => ⟨(hk.data i hi).1, id, by rw [← (hk.data i hi).2, hd]⟩, hk.live⟩

/-- A property that no removal and no rebinding can break. -/
def Stable (Q : LineageBackend → Prop) : Prop := ∀ b b', Wf b → Wf b' → Shrunk b b' → Q b → Q b'

/-- The backend read as an index, in order and with the property `Q`. -/
def view (Q : LineageBackend → Prop) : IndexView LineageBackend where
  Wf := fun b => b.Wf ∧ Q b
  entries := entries
  Fits := fun _ _ => True
  Admits := fun _ g h => g.key ≠ h.key

variable {Q : LineageBackend → Prop}

theorem setLeaves_taken (hQ : Stable Q) {leaves : LeafPolicy} (hw : (view Q).Wf b)
    (hl : ∀ kids frees, WfWith b kids frees → leaves.Wf b.realSet (b.leafSet kids)) :
    (view Q).Taken b [] { b with leaves := leaves } := by
  obtain ⟨⟨kids, frees, hwf⟩, hq⟩ := hw
  have hwf' : Wf { b with leaves := leaves } :=
    ⟨kids, frees, hwf.graph.setLeaves, hl kids frees hwf, hwf.count⟩
  have hsame : Shrunk b { b with leaves := leaves } :=
    ⟨fun i hi id h hd => ⟨hi, id, hd⟩, fun _ hi => ⟨hi, rfl, rfl⟩⟩
  refine ⟨⟨hwf', hQ _ _ ⟨kids, frees, hwf⟩ hwf' hsame hq⟩, List.nodup_nil, by simp, ?_,
    fun _ hn => hn, rfl⟩
  show b.entries = b.entries \ _
  simp

/-- **One removal** takes exactly the pair of its node. -/
theorem removeNodeAt_taken (hQ : Stable Q) (hw : (view Q).Wf b) (hi : i ∈ b.realSet)
    (hd : (b.slots i).data = .real id h) :
    ∃ b', b.removeNodeAt i = some ((h, id), b') ∧ (view Q).Taken b [(h, id)] b' ∧
      Removed b b' i := by
  obtain ⟨b', hb', hw', hrem⟩ := removeNodeAt_spec hw.1 hi hd
  refine ⟨b', hb', ?_, hrem⟩
  exact IndexView.Taken.single ⟨hw', hQ _ _ hw.1 hw' hrem.kept.shrunk hw.2⟩
    (mem_entries_of_data hi hd) (hrem.entries hw.1 hi hd) (fun _ hn => hn) rfl

/-! ### By hash -/

theorem hashIndex_eq_some (hw : Wf b) :
    b.hashIndex h = some i ↔ i ∈ b.realSet ∧ ∃ id, (b.slots i).data = .real id h := by
  obtain ⟨kids, frees, hw⟩ := hw
  unfold hashIndex
  rw [Option.bind_eq_some_iff]
  refine ⟨?_, ?_⟩
  · rintro ⟨j, hj, hm⟩
    have hl := ((hw.graph.indexed _ _).mp hj).1
    cases hd : (b.slots j).data with
    | real id' =>
      simp only [hd] at hm
      split at hm
      · rename_i heq
        cases hm
        exact ⟨mem_realSet_of_data hl hd, id', by rw [hd, heq]⟩
      · cases hm
    | ghost | free => simp [hd] at hm
  · rintro ⟨hi, id, hd⟩
    have hk := hw.graph.realKey i id h (realSet_live hi) hd
    exact ⟨i, (hw.graph.indexed _ _).mpr ⟨realSet_live hi, hk⟩, by simp [hd]⟩

theorem realIndex_eq_some (hw : Wf b) :
    b.realIndex h id = some i ↔ i ∈ b.realSet ∧ (b.slots i).data = .real id h := by
  have hhash : b.realIndex h id = some i ↔
      b.hashIndex h = some i ∧ (b.slots i).data = .real id h := by
    unfold realIndex hashIndex
    cases b.index h.key with
    | none => simp
    | some j =>
      simp only [Option.bind_some]
      cases hd : (b.slots j).data <;> simp
      grind
  rw [hhash, hashIndex_eq_some hw]
  exact ⟨fun hboth => ⟨hboth.1.1, hboth.2⟩, fun hboth => ⟨⟨hboth.1, id, hboth.2⟩, hboth.2⟩⟩

theorem hashIndex_eq_none (hw : Wf b) : b.hashIndex h = none ↔ ∀ id, (h, id) ∉ b.entries := by
  rw [Option.eq_none_iff_forall_ne_some]
  simp only [ne_eq, hashIndex_eq_some hw, mem_entries]
  exact ⟨fun hn id ⟨i, hi, hd⟩ => hn i ⟨hi, id, hd⟩, fun hn i ⟨hi, id, hd⟩ => hn id ⟨i, hi, hd⟩⟩

theorem realIndex_eq_none (hw : Wf b) : b.realIndex h id = none ↔ (h, id) ∉ b.entries := by
  rw [Option.eq_none_iff_forall_ne_some]
  simp only [ne_eq, realIndex_eq_some hw, mem_entries]
  exact ⟨fun hn ⟨i, hi, hd⟩ => hn i ⟨hi, hd⟩, fun hn i ⟨hi, hd⟩ => hn ⟨i, hi, hd⟩⟩

variable (hQ : Stable Q)

include hQ

theorem removeByHash_pops : (view Q).Pops removeByHash := by
  intro b h hw
  unfold removeByHash
  cases hi : b.hashIndex h with
  | none =>
    exact ⟨none, b, rfl, IndexView.Taken.refl hw, by simp, fun _ => (hashIndex_eq_none hw.1).mp hi⟩
  | some =>
    obtain ⟨hr, id, hd⟩ := (hashIndex_eq_some hw.1).mp hi
    obtain ⟨b', hb', ht, -⟩ := removeNodeAt_taken hQ hw hr hd
    refine ⟨some (h, id), b', by simp [hb'], ht, ?_, by simp⟩
    rintro e he
    cases he
    rfl

/-! ### By eviction -/

omit hQ in
/-- **While a real node is left there is a leaf among them.** -/
theorem WfWith.exists_leaf (hw : WfWith b kids frees) (hi : i ∈ b.realSet) :
    ∃ m, m ∈ b.leafSet kids := by
  classical
  have hlive : ∀ j, j ∈ (range b.size).filter b.Live ↔ b.Live j := by
    intro j
    rw [mem_filter, mem_range]
    exact ⟨fun hj => hj.2, fun hj => ⟨hj.1, hj⟩⟩
  obtain ⟨m, hm, hmax⟩ := exists_max_image ((range b.size).filter b.Live)
    (fun j => (b.slots j).position) ⟨i, (hlive i).mpr (realSet_live hi)⟩
  have hml := (hlive m).mp hm
  have hk : kids m = [] := by
    by_contra hne
    obtain ⟨c, hc⟩ := List.exists_mem_of_ne_nil _ hne
    have hpos := hw.graph.kid_position hml hc
    have := hmax c ((hlive c).mpr (hw.graph.kid_live hml hc).1)
    omega
  refine ⟨m, ?_, hk⟩
  cases hd : (b.slots m).data with
  | real => exact mem_realSet_of_data hml hd
  | ghost => exact absurd hk (hw.graph.ghostKids m hml hd (by simp))
  | free => exact absurd hd hml.2

/-- **A victim is a real leaf**, and there is one while anything is left. -/
theorem victim_spec (hw : (view Q).Wf b) :
    ∃ r b', b.victim = some (r, b') ∧ (view Q).Taken b r.toList b' ∧
      (r = none → b.entries = ∅) ∧
      ∀ h id, r = some (h, id) → ∀ kids frees, WfWith b kids frees →
        ∃ i ∈ b.leafSet kids, (b.slots i).data = .real id h := by
  obtain ⟨hwf, hq⟩ := hw
  obtain ⟨kids, frees, hwf'⟩ := hwf
  have hpol : ∀ kids frees, WfWith b kids frees →
      b.leaves.nextVictim.2.Wf b.realSet (b.leafSet kids) :=
    fun kids frees hwk => (LeafPolicy.nextVictim_wf hwk.policy).1
  have ht := setLeaves_taken hQ ⟨⟨kids, frees, hwf'⟩, hq⟩ hpol
  unfold victim
  cases hv : b.leaves.nextVictim.1 with
  | none =>
    refine ⟨none, { b with leaves := b.leaves.nextVictim.2 }, by simp [hv], ht, fun _ => ?_,
      by simp⟩
    have hleaf := (LeafPolicy.nextVictim_wf hwf'.policy).2.2 hv
    rw [eq_empty_iff_forall_notMem]
    rintro ⟨h, id⟩ he
    obtain ⟨i, hi, -⟩ := mem_entries.mp he
    obtain ⟨m, hm⟩ := hwf'.exists_leaf hi
    rw [hleaf] at hm
    exact hm
  | some i =>
    have hleaf := fun kids frees (hwk : WfWith b kids frees) =>
      (LeafPolicy.nextVictim_wf hwk.policy).2.1 i hv
    have hi : i ∈ b.realSet := (hleaf kids frees hwf').1
    obtain ⟨-, id, h, hd⟩ := mem_realSet.mp hi
    obtain ⟨b', hb', ht', -⟩ :=
      removeNodeAt_taken (b := { b with leaves := b.leaves.nextVictim.2 }) hQ ht.wf hi hd
    refine ⟨some (h, id), b', by simp [hv, hb'], ht.trans ht', by simp, ?_⟩
    intro h' id' he kids' frees' hwk
    cases he
    exact ⟨i, hleaf kids' frees' hwk, hd⟩

theorem victim_evicts : (view Q).Evicts victim := by
  intro b hw
  obtain ⟨r, b', hv, ht, hnone, -⟩ := victim_spec hQ hw
  exact ⟨r, b', hv, ht, hnone⟩

/-! ### By slot -/

theorem removeNodes_taken :
    ∀ (order : List Nat) (b : LineageBackend), (view Q).Wf b → order.Nodup →
      (∀ i ∈ order, i ∈ b.realSet) →
      ∃ b', b.removeNodes order = some (order.filterMap fun i => (b.slots i).data.entry?, b') ∧
        (view Q).Taken b (order.filterMap fun i => (b.slots i).data.entry?) b' := by
  intro order
  induction order with
  | nil => exact fun b hw _ _ => ⟨b, rfl, IndexView.Taken.refl hw⟩
  | cons i rest ih =>
    intro b hw hnd hreal
    obtain ⟨hni, hnd⟩ := List.nodup_cons.mp hnd
    obtain ⟨-, id, h, hd⟩ := mem_realSet.mp (hreal i (by simp))
    obtain ⟨c, hc, ht, hrem⟩ := removeNodeAt_taken hQ hw (hreal i (by simp)) hd
    have hrest : ∀ j ∈ rest, j ∈ c.realSet := by
      intro j hj
      rw [hrem.real, mem_erase]
      exact ⟨fun hji => hni (hji ▸ hj), hreal j (by simp [hj])⟩
    obtain ⟨b', hb', ht'⟩ := ih c ht.wf hnd hrest
    -- the nodes that are left carry the same payload as before
    have hsame : (rest.filterMap fun j => (c.slots j).data.entry?) =
        rest.filterMap fun j => (b.slots j).data.entry? := by
      refine List.filterMap_congr fun j hj => ?_
      rw [(hrem.kept.data j (hrest j hj)).2]
    rw [hsame] at hb' ht'
    have hcons : ((i :: rest).filterMap fun j => (b.slots j).data.entry?) =
        (h, id) :: rest.filterMap fun j => (b.slots j).data.entry? := by
      rw [List.filterMap_cons, hd]
      rfl
    rw [hcons]
    refine ⟨b', ?_, ht.trans ht'⟩
    simp [removeNodes, hc, hb']

theorem take_taken (hw : (view Q).Wf b) (he : (h, id) ∈ b.entries) :
    ∃ b', b.take h id = some (true, b') ∧ (view Q).Taken b [(h, id)] b' := by
  obtain ⟨r, b', hr, ht, hhash, hnone⟩ := removeByHash_pops hQ b h hw
  have hri : b.realIndex h id ≠ none := fun hn => (realIndex_eq_none hw.1).mp hn he
  obtain ⟨i, hi⟩ := Option.ne_none_iff_exists'.mp hri
  cases r with
  | none => exact absurd he (hnone rfl id)
  | some e =>
    obtain ⟨g, id'⟩ := e
    obtain rfl : g = h := hhash _ rfl
    obtain rfl : id' = id := entries_unique hw.1 (ht.mem _ (by simp)) he
    refine ⟨b', ?_, ht⟩
    unfold take
    rw [hi, hr]
    rfl

omit hQ in
theorem take_absent (hw : Wf b) (he : (h, id) ∉ b.entries) : b.take h id = some (false, b) := by
  unfold take
  rw [(realIndex_eq_none hw).mpr he]

theorem rebind_spec (hw : (view Q).Wf b) (he : (h, src) ∈ b.entries) :
    ∃ b', b.rebind h src dst = (true, b') ∧ (view Q).Wf b' ∧
      b'.entries = insert (h, dst) (b.entries.erase (h, src)) := by
  have hri : b.realIndex h src ≠ none := fun hn => (realIndex_eq_none hw.1).mp hn he
  obtain ⟨i, hri⟩ := Option.ne_none_iff_exists'.mp hri
  obtain ⟨hi, hd⟩ := (realIndex_eq_some hw.1).mp hri
  obtain ⟨⟨kids, frees, hwf⟩, hq⟩ := hw
  have hl := realSet_live hi
  generalize hc : b.modify i (fun s => { s with data := .real dst h }) = c
  have hdata : ∀ j, (c.slots j).data = if j = i then .real dst h else (b.slots j).data :=
    hc ▸ modify_data
  have hsize : c.size = b.size := by rw [← hc]; rfl
  have hreal : c.realSet = b.realSet := by
    ext j
    rw [mem_realSet, mem_realSet, hdata, hsize]
    by_cases hji : j = i
    · simp [hji, hd]
    · simp [hji]
  have hg : Graph c kids frees ∅ ∅ := by
    rw [← hc]
    refine hwf.graph.setData hl (by simp) subset_rfl subset_rfl (by simp) ?_ ?_
    · intro id' h' hr
      cases hr
      exact hwf.graph.realKey i src h hl hd
    · intro id' h' hr hpos
      cases hr
      exact .inr (hwf.graph.realLinked i src h hl hd (by simp) hpos)
  have hleaf : c.leafSet kids = b.leafSet kids := by
    unfold leafSet
    rw [hreal]
  have hwc : Wf c := by
    refine ⟨kids, frees, hg, ?_, ?_⟩
    · rw [hleaf, hreal, ← hc]
      exact hwf.policy
    · rw [hreal, ← hc]
      exact hwf.count
  have hshrunk : Shrunk b c := by
    refine ⟨fun j hj id' h' hdj => ?_, fun j hj => ?_⟩
    · rw [hreal] at hj
      rw [hdata] at hdj
      by_cases hji : j = i
      · rw [if_pos hji] at hdj
        cases hdj
        exact ⟨hj, src, by rw [hji, hd]⟩
      · rw [if_neg hji] at hdj
        exact ⟨hj, id', hdj⟩
    · rw [← hc] at hj ⊢
      exact ⟨(live_modify hl (by simp) j).mp hj, modify_field LineageSlot.parent (by intro; rfl) j,
        modify_field (fun s => (s.position, s.fragment)) (by intro; rfl) j⟩
  refine ⟨c, ?_, ⟨hwc, hQ b c ⟨kids, frees, hwf⟩ hwc hshrunk hq⟩, ?_⟩
  · unfold rebind
    rw [hri, ← hc]
  · ext ⟨h', id'⟩
    rw [mem_insert, mem_erase, mem_entries, mem_entries, hreal]
    refine ⟨?_, ?_⟩
    · rintro ⟨j, hj, hdj⟩
      rw [hdata] at hdj
      by_cases hji : j = i
      · rw [if_pos hji] at hdj
        cases hdj
        exact Or.inl rfl
      · rw [if_neg hji] at hdj
        refine Or.inr ⟨fun heq => ?_, j, hj, hdj⟩
        obtain ⟨rfl, rfl⟩ := Prod.mk.inj heq
        exact hji (hwf.node_unique hj hdj hi hd)
    · rintro (heq | ⟨hne, j, hj, hdj⟩)
      · obtain ⟨rfl, rfl⟩ := Prod.mk.inj heq
        exact ⟨i, hi, by rw [hdata, if_pos rfl]⟩
      · have hji : j ≠ i := by
          rintro rfl
          rw [hd] at hdj
          cases hdj
          exact hne rfl
        exact ⟨j, hj, by rw [hdata, if_neg hji, hdj]⟩

end LineageBackend

end Kvbm
