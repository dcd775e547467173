/-
The hash map backend is a lawful index.

The map and the reuse policy hold the same pairs, and the policy numbers every block
once; so whatever the policy gives up is in the map, and whatever is looked up in the
map is known to the policy.
-/
import Kvbm.Index.HashMap
import Kvbm.Proofs.Index.Lawful

namespace Kvbm

open Lib Function List Option FifoReusePolicy HashMapBackend

/-! ### The policy -/

namespace FifoReusePolicy

variable {p p' : FifoReusePolicy} {h : SequenceHash} {id src dst : BlockId} {e x : Entry} {k : Nat}

/-- Numbers ascend, are below the next one, and every block has the number it is listed under. -/
structure Wf (p : FifoReusePolicy) : Prop where
  ord : OrdKeys p.blocks
  below : ∀ q ∈ p.blocks, q.1 < p.nextSeq
  keys : ∀ id k, p.keys id = some k ↔ ∃ h, (k, (h, id)) ∈ p.blocks

/-- The policy knows the pair. -/
def Has (p : FifoReusePolicy) (e : Entry) : Prop := ∃ k, (k, e) ∈ p.blocks

theorem new_wf : new.Wf := ⟨List.Pairwise.nil, by simp [new], by simp [new]⟩

variable (hw : p.Wf)

include hw

theorem Wf.id_unique {k' : Nat} {g : SequenceHash} (h1 : (k, (h, id)) ∈ p.blocks)
    (h2 : (k', (g, id)) ∈ p.blocks) : k = k' ∧ h = g := by
  have hk := (hw.keys id k).mpr ⟨h, h1⟩
  have hk' := (hw.keys id k').mpr ⟨g, h2⟩
  obtain rfl : k = k' := some.inj (hk.symm.trans hk')
  exact ⟨rfl, (Prod.mk.inj (hw.ord.key_unique h1 h2)).1⟩

/-- Dropping the pair under one number. -/
theorem Wf.drop {blocks : List (Nat × Entry)} (hm : (k, (h, id)) ∈ p.blocks)
    (hord : OrdKeys blocks) (hblocks : ∀ q, q ∈ blocks ↔ q ∈ p.blocks ∧ q.1 ≠ k) :
    Wf { p with keys := update p.keys id none, blocks := blocks } ∧
      ∀ x, Has { p with keys := update p.keys id none, blocks := blocks } x ↔
        p.Has x ∧ x ≠ (h, id) := by
  -- a number and its block determine each other
  have hiff : ∀ {k' g id'}, (k', (g, id')) ∈ p.blocks → (k' = k ↔ id' = id) := fun hq =>
    ⟨fun hc => (Prod.mk.inj (hw.ord.key_unique (hc ▸ hq) hm)).2,
      fun hc => (hw.id_unique (hc ▸ hq) hm).1⟩
  refine ⟨⟨hord, fun q hq => hw.below q ((hblocks q).mp hq).1, fun id' k' => ?_⟩, fun x => ?_⟩
  · show update p.keys id none id' = some k' ↔ ∃ g, (k', (g, id')) ∈ blocks
    simp only [hblocks]
    by_cases hid : id' = id
    · rw [hid, update_self]
      exact ⟨by simp, fun ⟨g, hg, hne⟩ => absurd ((hiff hg).mpr rfl) hne⟩
    · rw [update_of_ne hid, hw.keys]
      exact exists_congr fun g => ⟨fun hg => ⟨hg, mt (hiff hg).mp hid⟩, And.left⟩
  · show (∃ k', (k', x) ∈ blocks) ↔ _
    simp only [hblocks, Has]
    refine ⟨fun ⟨k', hx, hne⟩ => ⟨⟨k', hx⟩, fun he => ?_⟩,
      fun ⟨⟨k', hx⟩, hne⟩ => ⟨k', hx, fun hk => ?_⟩⟩
    · exact hne ((hiff (he ▸ hx)).mpr rfl)
    · cases hk
      exact hne (hw.ord.key_unique hx hm)

theorem Wf.remove_spec (hh : p.Has (h, id)) :
    ∃ p', p.remove id = some (true, p') ∧ p'.Wf ∧ ∀ x, p'.Has x ↔ p.Has x ∧ x ≠ (h, id) := by
  obtain ⟨k, hk⟩ := hh
  have hkey := (hw.keys id k).mpr ⟨h, hk⟩
  obtain ⟨hw', hhas⟩ := hw.drop hk (hw.ord.remove (k := k)) fun q => by simp [ordRemove]
  refine ⟨_, ?_, hw', hhas⟩
  unfold remove
  simp only [hkey, (ordGet_eq_some hw.ord).mpr hk, isSome_some, if_true]

/-- Listing a new block under a number of its own. -/
theorem Wf.add {blocks : List (Nat × Entry)} {n : Nat} (hnew : ∀ g, ¬ p.Has (g, id))
    (hord : OrdKeys blocks) (hblocks : ∀ q, q ∈ blocks ↔ q ∈ p.blocks ∨ q = (k, (h, id)))
    (hk : k < n) (hn : p.nextSeq ≤ n) :
    Wf ⟨update p.keys id (some k), blocks, n⟩ ∧
      ∀ x, Has ⟨update p.keys id (some k), blocks, n⟩ x ↔ x = (h, id) ∨ p.Has x := by
  refine ⟨⟨hord, fun q hq => ?_, fun id' k' => ?_⟩, fun x => ?_⟩
  · rcases (hblocks q).mp hq with hq | rfl
    · exact (hw.below q hq).trans_le hn
    · exact hk
  · show update p.keys id (some k) id' = some k' ↔ ∃ g, (k', (g, id')) ∈ blocks
    simp only [hblocks, Prod.mk.injEq]
    by_cases hid : id' = id
    · subst hid
      rw [update_self]
      refine ⟨fun hk => ⟨h, Or.inr ⟨(some.inj hk).symm, rfl, rfl⟩⟩, ?_⟩
      rintro ⟨g, hg | ⟨rfl, -, -⟩⟩
      · exact absurd ⟨k', hg⟩ (hnew g)
      · rfl
    · rw [update_of_ne hid, hw.keys]
      simp [hid]
  · show (∃ k', (k', x) ∈ blocks) ↔ _
    simp only [hblocks, Has, Prod.mk.injEq, exists_or, exists_eq_left]
    exact or_comm

theorem Wf.keys_eq_none (hnew : ∀ g, ¬ p.Has (g, id)) : p.keys id = none := by
  by_contra hc
  obtain ⟨k, hk⟩ := ne_none_iff_exists'.mp hc
  obtain ⟨g, hg⟩ := (hw.keys id k).mp hk
  exact hnew g ⟨k, hg⟩

theorem Wf.insert_spec (hnew : ∀ g, ¬ p.Has (g, id)) :
    ∃ p', p.insert (h, id) = some p' ∧ p'.Wf ∧ ∀ x, p'.Has x ↔ x = (h, id) ∨ p.Has x := by
  have hins : ordInsert p.nextSeq (h, id) p.blocks = p.blocks ++ [(p.nextSeq, (h, id))] :=
    ordInsert_of_lt hw.below
  obtain ⟨hw', hhas⟩ := hw.add (h := h) hnew (hw.ord.append (v := (h, id)) hw.below) (by simp)
    (Nat.lt_succ_self p.nextSeq) (Nat.le_succ _)
  refine ⟨_, ?_, hw', hhas⟩
  unfold insert
  simp only [hw.keys_eq_none hnew, isSome_none, Bool.false_eq_true, if_false, hins]

omit hw in
theorem nextFree_nil (hb : p.blocks = []) : p.nextFree = some (none, p) := by
  unfold nextFree
  rw [hb]

/-- The pair under the smallest number is given up. -/
theorem Wf.nextFree_cons {rest : List (Nat × Entry)} (hb : p.blocks = (k, e) :: rest) :
    ∃ p', p.nextFree = some (some e, p') ∧ p'.Wf ∧ p'.blocks = rest ∧
      ∀ x, p'.Has x ↔ p.Has x ∧ x ≠ e := by
  have hm : (k, (e.1, e.2)) ∈ p.blocks := by rw [hb]; exact mem_cons_self
  have hkey := (hw.keys e.2 k).mpr ⟨e.1, hm⟩
  have hord := hw.ord
  rw [hb] at hord
  obtain ⟨hlt, hord⟩ := pairwise_cons.mp hord
  obtain ⟨hw', hhas⟩ := hw.drop hm hord fun q => by
    rw [hb, mem_cons]
    refine ⟨fun hq => ⟨Or.inr hq, fun hc => ?_⟩, fun hq => hq.1.resolve_left fun hc => hq.2 ?_⟩
    · have : k < q.1 := hlt q hq
      omega
    · rw [hc]
  refine ⟨_, ?_, hw', rfl, hhas⟩
  unfold nextFree
  rw [hb]
  simp only [hkey, isSome_some, if_true]

theorem Wf.rebind_spec (hh : p.Has (h, src)) (hnew : ∀ g, ¬ p.Has (g, dst)) :
    ∃ p', p.rebind h src dst = (true, p') ∧ p'.Wf ∧
      ∀ x, p'.Has x ↔ x = (h, dst) ∨ p.Has x ∧ x ≠ (h, src) := by
  obtain ⟨k, hk⟩ := hh
  have hkey := (hw.keys src k).mpr ⟨h, hk⟩
  -- the block leaves, and the other one takes its number
  obtain ⟨hw0, hhas0⟩ := hw.drop hk (hw.ord.remove (k := k)) fun q => by simp [ordRemove]
  have hset : ∀ q, q ∈ ordSet k (h, dst) p.blocks ↔
      q ∈ ordRemove k p.blocks ∨ q = (k, (h, dst)) := by
    intro q
    unfold ordSet ordRemove
    rw [List.mem_map, mem_filter]
    refine ⟨?_, ?_⟩
    · rintro ⟨q', hq, rfl⟩
      by_cases hqk : q'.1 = k
      · rw [if_pos hqk]
        exact Or.inr rfl
      · rw [if_neg hqk]
        exact Or.inl ⟨hq, by simpa using hqk⟩
    · rintro (⟨hq, hqk⟩ | rfl)
      · exact ⟨q, hq, if_neg (by simpa using hqk)⟩
      · exact ⟨_, hk, if_pos rfl⟩
  obtain ⟨hw', hhas⟩ := hw0.add (fun g hg => hnew g ((hhas0 _).mp hg).1) hw.ord.set hset
    (hw.below _ hk) le_rfl
  refine ⟨_, ?_, hw', fun x => by rw [hhas, hhas0]⟩
  unfold rebind
  simp [hkey, hw.keys_eq_none hnew, (ordGet_eq_some hw.ord).mpr hk]

end FifoReusePolicy

/-! ### The backend -/

namespace HashMapBackend

variable {s s' : HashMapBackend} {h : SequenceHash} {id src dst : BlockId} {e x : Entry}

/-- The map and the policy hold the same pairs, and no hash twice. -/
structure Wf (s : HashMapBackend) : Prop where
  keys : (s.blocks.map Prod.fst).Nodup
  policy : s.reusePolicy.Wf
  same : ∀ e, e ∈ s.blocks ↔ s.reusePolicy.Has e

theorem new_wf (d : DrainOrder) : (new d).Wf :=
  ⟨nodup_nil, FifoReusePolicy.new_wf, by simp [new, FifoReusePolicy.new, FifoReusePolicy.Has]⟩

def view : IndexView HashMapBackend where
  Wf := Wf
  entries := fun s => s.blocks.toFinset
  Fits := fun _ _ => True
  Admits := fun _ _ _ => True

theorem lookup_eq_some {l : List Entry} (hk : KeysNodup l) :
    l.lookup h = some id ↔ (h, id) ∈ l := by
  induction l with
  | nil => simp
  | cons e l ih =>
    obtain ⟨hnew, hk⟩ := nodup_cons.mp hk
    grind

variable (hw : s.Wf)

include hw

theorem get_eq_some : s.get h = some id ↔ (h, id) ∈ s.blocks := lookup_eq_some hw.keys

theorem get_eq_none : s.get h = none ↔ ∀ b, (h, b) ∉ s.blocks := by
  rw [eq_none_iff_forall_ne_some]
  simp only [ne_eq, get_eq_some hw]

theorem hash_unique {a b : BlockId} (ha : (h, a) ∈ s.blocks) (hb : (h, b) ∈ s.blocks) : a = b :=
  some.inj (((get_eq_some hw).mpr ha).symm.trans ((get_eq_some hw).mpr hb))

theorem mem_without (hm : (h, id) ∈ s.blocks) : x ∈ s.without h ↔ x ∈ s.blocks ∧ x ≠ (h, id) := by
  unfold without
  rw [mem_filter]
  refine and_congr_right fun hx => ?_
  simp only [ne_eq, decide_eq_true_eq]
  refine not_congr ⟨fun hxh => ?_, fun hc => by rw [hc]⟩
  obtain ⟨g, a⟩ := x
  have hxh : g = h := hxh
  subst hxh
  rw [hash_unique hw hx hm]

theorem without_keys : ((s.without h).map Prod.fst).Nodup := hw.keys.sublist (filter_sublist.map _)

theorem taken_of_remove {q : FifoReusePolicy} (hm : (h, id) ∈ s.blocks) (hq : q.Wf)
    (hhas : ∀ x, q.Has x ↔ s.reusePolicy.Has x ∧ x ≠ (h, id)) :
    view.Taken s [(h, id)] { s with blocks := s.without h, reusePolicy := q } := by
  have hmem : ∀ x, x ∈ s.without h ↔ x ∈ s.blocks ∧ x ≠ (h, id) := fun x => mem_without hw hm
  refine IndexView.Taken.single ⟨without_keys hw, hq, fun x => ?_⟩ (mem_toFinset.mpr hm) ?_
    (fun _ hn => hn) rfl
  · rw [hhas, ← hw.same]
    exact hmem x
  · ext x
    show x ∈ (s.without h).toFinset ↔ _
    rw [Finset.mem_erase, List.mem_toFinset, hmem]
    show _ ↔ x ≠ _ ∧ x ∈ s.blocks.toFinset
    rw [List.mem_toFinset, and_comm]

omit hw in
theorem findMatch_pops : view.Pops findMatch := by
  intro s h hw
  have hw : s.Wf := hw
  unfold findMatch
  cases hg : s.get h with
  | none =>
    refine ⟨none, s, rfl, IndexView.Taken.refl hw, by simp, fun _ id he => ?_⟩
    exact (get_eq_none hw).mp hg id (mem_toFinset.mp he)
  | some id =>
    have hm := (get_eq_some hw).mp hg
    obtain ⟨q, hq, hqw, hhas⟩ := hw.policy.remove_spec ((hw.same _).mp hm)
    refine ⟨some (h, id), _, by simp only [hq, map_some], taken_of_remove hw hm hqw hhas, ?_,
      by simp⟩
    rintro e he
    cases he
    rfl

omit hw in
/-- **The policy gives up as many blocks as asked for**, or all there are. -/
theorem allocate_taken :
    ∀ (n : Nat) (s : HashMapBackend), s.Wf →
      ∃ l s', s.allocate n = some (l, s') ∧ view.Taken s l s' ∧
        l.length = min n s.blocks.toFinset.card := by
  intro n
  induction n with
  | zero => exact fun s hw => ⟨[], s, rfl, IndexView.Taken.refl hw, by simp⟩
  | succ n ih =>
    intro s hw
    unfold allocate
    cases hb : s.reusePolicy.blocks with
    | nil =>
      have hempty : s.blocks.toFinset = ∅ := by
        rw [Finset.eq_empty_iff_forall_notMem]
        intro e he
        obtain ⟨k, hk⟩ := (hw.same e).mp (mem_toFinset.mp he)
        rw [hb] at hk
        cases hk
      rw [nextFree_nil hb, bind_some]
      exact ⟨[], s, rfl, IndexView.Taken.refl hw, by simp [hempty]⟩
    | cons q =>
      obtain ⟨k, e⟩ := q
      obtain ⟨p', hp', hpw, -, hhas⟩ := hw.policy.nextFree_cons hb
      have hm : (e.1, e.2) ∈ s.blocks := (hw.same e).mpr ⟨k, by rw [hb]; exact mem_cons_self⟩
      have ht := taken_of_remove hw hm hpw hhas
      obtain ⟨l, s', hl, ht', hlen⟩ := ih _ ht.wf
      have hcard := ht.card
      simp only [length_singleton] at hcard
      rw [hp', bind_some]
      simp only [(get_eq_some hw).mpr hm, isSome_some, if_true, hl, map_some]
      refine ⟨e :: l, s', rfl, ht.trans ht', ?_⟩
      rw [length_cons, hlen]
      show min n (view.entries _).card + 1 = min (n + 1) (view.entries s).card
      omega

omit hw in
theorem drainPolicy_spec :
    ∀ (n : Nat) (p : FifoReusePolicy), p.Wf → p.blocks.length = n →
      ∃ p', drainPolicy n p = some p' ∧ p'.Wf ∧ p'.blocks = [] := by
  intro n
  induction n with
  | zero => exact fun p hw hl => ⟨p, rfl, hw, length_eq_zero_iff.mp hl⟩
  | succ n ih =>
    intro p hw hl
    cases hb : p.blocks with
    | nil => simp [hb] at hl
    | cons q =>
      obtain ⟨k, e⟩ := q
      obtain ⟨p', hp', hpw, hrest, -⟩ := hw.nextFree_cons hb
      obtain ⟨p'', hd, hres⟩ := ih p' hpw (by rw [hrest]; simpa [hb] using hl)
      refine ⟨p'', ?_, hres⟩
      unfold drainPolicy
      rw [hp', bind_some]
      exact hd

theorem take_taken (he : (h, id) ∈ s.blocks) :
    ∃ s', s.take h id = some (true, s') ∧ view.Taken s [(h, id)] s' := by
  obtain ⟨q, hq, hqw, hhas⟩ := hw.policy.remove_spec ((hw.same _).mp he)
  refine ⟨_, ?_, taken_of_remove hw he hqw hhas⟩
  unfold take
  rw [if_pos ((get_eq_some hw).mpr he), hq]
  rfl

theorem take_absent (he : (h, id) ∉ s.blocks) : s.take h id = some (false, s) := by
  unfold take
  rw [if_neg fun hg => he ((get_eq_some hw).mp hg)]

end HashMapBackend

open HashMapBackend in
instance : LawfulIndex HashMapBackend where
  view := view
  hash_unique := fun hw ha hb =>
    hash_unique hw (mem_toFinset.mp ha) (mem_toFinset.mp hb)
  len_eq := fun hw => (toFinset_card_of_nodup (hw.keys.of_map _)).symm
  has_iff := by
    intro s h hw
    show (s.get h).isSome = true ↔ ∃ id, (h, id) ∈ s.blocks.toFinset
    simp only [isSome_iff_exists, get_eq_some hw, List.mem_toFinset]
  findMatch_spec := findMatch_pops
  findMatches_spec := fun hs hw => IndexView.findLoop_taken findMatch_pops hs _ hw
  scanMatches_spec := fun hs hw => IndexView.scanLoop_taken findMatch_pops hs _ hw
  allocate_spec := fun n hw => allocate_taken n _ hw
  allocateAll_spec := by
    intro s hw
    obtain ⟨p, hp, hpw, hpb⟩ := drainPolicy_spec _ s.reusePolicy hw.policy rfl
    have hperm := s.drainOrder.perm s.blocks
    refine ⟨s.drainOrder.order s.blocks, { s with blocks := [], reusePolicy := p },
      by simp only [InactiveIndex.allocateAll, allocateAll, hp, map_some], ⟨⟨nodup_nil, hpw, ?_⟩,
        ?_, ?_, ?_, fun _ hn => hn, rfl⟩, rfl⟩
    · simp [FifoReusePolicy.Has, hpb]
    · exact hperm.nodup_iff.mpr (hw.keys.of_map _)
    · exact fun e he => mem_toFinset.mpr (hperm.mem_iff.mp he)
    · show (∅ : Finset Entry) = s.blocks.toFinset \ _
      rw [toFinset_eq_of_perm _ _ hperm, Finset.sdiff_self]
  insert_spec := by
    intro s h id n hw hnew hid _ _ _
    obtain ⟨p, hp, hpw, hhas⟩ := hw.policy.insert_spec (h := h)
      fun g hg => hid g (mem_toFinset.mpr ((hw.same _).mpr hg))
    have hne : ∀ e ∈ s.blocks, e.1 ≠ h := by
      rintro e he rfl
      exact hnew e.2 (mem_toFinset.mpr he)
    have hwithout : s.without h = s.blocks := filter_eq_self.mpr (by simpa using hne)
    refine ⟨{ s with blocks := (h, id) :: s.blocks, reusePolicy := p },
      by simp only [InactiveIndex.insert, HashMapBackend.insert, hp, hwithout, map_some],
      ⟨?_, hpw, fun e => ?_⟩, toFinset_cons, fun _ hm => hm, rfl⟩
    · refine nodup_cons.mpr ⟨fun hm => ?_, hw.keys⟩
      obtain ⟨e, he, heq⟩ := mem_map.mp hm
      exact hne e he heq
    · rw [hhas, mem_cons, hw.same]
  insert_admits := fun _ _ _ _ => trivial
  rebind_spec := by
    intro s h src dst hw he hid
    have he := mem_toFinset.mp he
    obtain ⟨p, hp, hpw, hhas⟩ := hw.policy.rebind_spec ((hw.same _).mp he)
      fun g hg => hid g (mem_toFinset.mpr ((hw.same _).mpr hg))
    refine ⟨{ s with blocks := (h, dst) :: s.without h, reusePolicy := p }, ?_,
      ⟨?_, hpw, fun e => ?_⟩, ?_, fun _ hm => hm, rfl⟩
    · simp [InactiveIndex.rebind, HashMapBackend.rebind, (get_eq_some hw).mpr he, hp]
    · refine nodup_cons.mpr ⟨fun hm => ?_, without_keys hw⟩
      obtain ⟨e, hmem, heq⟩ := mem_map.mp hm
      have hne := (mem_filter.mp hmem).2
      simp [heq] at hne
    · rw [hhas, mem_cons, ← hw.same, mem_without hw he]
    · ext e
      simp only [view, toFinset_cons, Finset.mem_insert, Finset.mem_erase, List.mem_toFinset,
        mem_without hw he]
      tauto
  take_spec := fun hw he => take_taken hw (mem_toFinset.mp he)
  take_absent := fun hw he => take_absent hw fun hm => he (mem_toFinset.mpr hm)
  takeWithDescendants_spec := fun _ _ hw => IndexView.Taken.alone hw
    (fun he => take_taken hw (mem_toFinset.mp he))
    fun he => take_absent hw fun hm => he (mem_toFinset.mpr hm)
  takeCompleteLineage_spec := fun _ _ _ => ⟨none, _, rfl, rfl, fun _ => rfl, by simp⟩
  poison_spec := fun _ hw => ⟨_, rfl, IndexView.Taken.refl hw⟩
  growCapacity_spec := fun hw _ _ => ⟨hw, rfl, trivial, rfl⟩

end Kvbm
