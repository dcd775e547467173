/-
Whichever backend is configured, the store gets a lawful index.
-/
import Kvbm.Index.Backend
import Kvbm.Proofs.Index.Lru
import Kvbm.Proofs.Index.HashMap
import Kvbm.Proofs.Index.LineageRun

namespace Kvbm

open LruCache

section Sum

variable {α β : Type} {v : IndexView α} {w : IndexView β}

/-- A boxed index is read as what is in the box. -/
def IndexView.sum (v : IndexView α) (w : IndexView β) : IndexView (α ⊕ β) where
  Wf := Sum.elim v.Wf w.Wf
  entries := Sum.elim v.entries w.entries
  Fits := Sum.elim v.Fits w.Fits
  Admits := Sum.elim v.Admits w.Admits

variable {γ : Type} {s s' : α} {t t' : β} {l : List Entry}

theorem IndexView.Taken.inl (ht : v.Taken s l s') : (v.sum w).Taken (.inl s) l (.inl s') :=
  ⟨ht.wf, ht.nodup, ht.mem, ht.rest, ht.fits, ht.admits⟩

theorem IndexView.Taken.inr (ht : w.Taken t l t') : (v.sum w).Taken (.inr t) l (.inr t') :=
  ⟨ht.wf, ht.nodup, ht.mem, ht.rest, ht.fits, ht.admits⟩

/-- A method that takes entries out does so in the box. -/
theorem boxed_inl {f : γ → List Entry} {P : γ → α ⊕ β → Prop} {x : Option (γ × α)}
    (h : ∃ r s', x = some (r, s') ∧ v.Taken s (f r) s' ∧ P r (.inl s')) :
    ∃ r t, boxed .inl x = some (r, t) ∧ (v.sum w).Taken (.inl s) (f r) t ∧ P r t := by
  obtain ⟨r, s', rfl, ht, hspec⟩ := h
  exact ⟨r, .inl s', rfl, ht.inl, hspec⟩

theorem boxed_inr {f : γ → List Entry} {P : γ → α ⊕ β → Prop} {x : Option (γ × β)}
    (h : ∃ r t', x = some (r, t') ∧ w.Taken t (f r) t' ∧ P r (.inr t')) :
    ∃ r s, boxed .inr x = some (r, s) ∧ (v.sum w).Taken (.inr t) (f r) s ∧ P r s := by
  obtain ⟨r, t', rfl, ht, hspec⟩ := h
  exact ⟨r, .inr t', rfl, ht.inr, hspec⟩

variable [InactiveIndex α] [InactiveIndex β] [LawfulIndex α] [LawfulIndex β]

open LawfulIndex in
instance : LawfulIndex (α ⊕ β) where
  view := (view (ι := α)).sum (view (ι := β))
  hash_unique := by
    rintro (s | s) h a b hw ha hb
    · exact hash_unique (ι := α) hw ha hb
    · exact hash_unique (ι := β) hw ha hb
  len_eq := by
    rintro (s | s) hw
    · exact len_eq (ι := α) hw
    · exact len_eq (ι := β) hw
  has_iff := by
    rintro (s | s) h hw
    · exact has_iff (ι := α) hw
    · exact has_iff (ι := β) hw
  findMatch_spec := by
    rintro (s | s) h hw
    · exact boxed_inl (findMatch_spec (ι := α) s h hw)
    · exact boxed_inr (findMatch_spec (ι := β) s h hw)
  findMatches_spec := by
    rintro (s | s) hs hw
    · exact boxed_inl (findMatches_spec (ι := α) hs hw)
    · exact boxed_inr (findMatches_spec (ι := β) hs hw)
  scanMatches_spec := by
    rintro (s | s) hs hw
    · exact boxed_inl (scanMatches_spec (ι := α) hs hw)
    · exact boxed_inr (scanMatches_spec (ι := β) hs hw)
  allocate_spec := by
    rintro (s | s) n hw
    · exact boxed_inl (allocate_spec (ι := α) n hw)
    · exact boxed_inr (allocate_spec (ι := β) n hw)
  allocateAll_spec := by
    rintro (s | s) hw
    · exact boxed_inl (allocateAll_spec (ι := α) hw)
    · exact boxed_inr (allocateAll_spec (ι := β) hw)
  insert_spec := by
    rintro (s | s) h id n hw hh hid hf hc ha
    · obtain ⟨s', hr, hspec⟩ := insert_spec (ι := α) hw hh hid hf hc ha
      exact ⟨.inl s', congrArg (Option.map Sum.inl) hr, hspec⟩
    · obtain ⟨s', hr, hspec⟩ := insert_spec (ι := β) hw hh hid hf hc ha
      exact ⟨.inr s', congrArg (Option.map Sum.inr) hr, hspec⟩
  insert_admits := by
    rintro (s | s) s' h id hw hi
    · obtain ⟨c, hc, -⟩ := Option.map_eq_some_iff.mp hi
      exact insert_admits (ι := α) hw hc
    · obtain ⟨c, hc, -⟩ := Option.map_eq_some_iff.mp hi
      exact insert_admits (ι := β) hw hc
  rebind_spec := by
    rintro (s | s) h src dst hw he hd
    · obtain ⟨s', hr, hspec⟩ := rebind_spec (ι := α) hw he hd
      exact ⟨.inl s', congrArg (Prod.map id Sum.inl) hr, hspec⟩
    · obtain ⟨s', hr, hspec⟩ := rebind_spec (ι := β) hw he hd
      exact ⟨.inr s', congrArg (Prod.map id Sum.inr) hr, hspec⟩
  take_spec := by
    rintro (s | s) h id hw he
    · obtain ⟨s', hr, ht⟩ := take_spec (ι := α) hw he
      exact ⟨.inl s', congrArg (boxed Sum.inl) hr, ht.inl⟩
    · obtain ⟨s', hr, ht⟩ := take_spec (ι := β) hw he
      exact ⟨.inr s', congrArg (boxed Sum.inr) hr, ht.inr⟩
  take_absent := by
    rintro (s | s) h id hw he
    · exact congrArg (boxed Sum.inl) (take_absent (ι := α) hw he)
    · exact congrArg (boxed Sum.inr) (take_absent (ι := β) hw he)
  takeWithDescendants_spec := by
    rintro (s | s) h id hw
    · exact boxed_inl (takeWithDescendants_spec (ι := α) h id hw)
    · exact boxed_inr (takeWithDescendants_spec (ι := β) h id hw)
  takeCompleteLineage_spec := by
    rintro (s | s) h id hw
    · obtain ⟨r, s', hr, hsame, hnone, hsome⟩ := takeCompleteLineage_spec (ι := α) h id hw
      exact ⟨r, .inl s', congrArg (boxed Sum.inl) hr, hsame, fun hn => congrArg _ (hnone hn),
        fun l hl => ⟨(hsome l hl).1.inl, (hsome l hl).2⟩⟩
    · obtain ⟨r, s', hr, hsame, hnone, hsome⟩ := takeCompleteLineage_spec (ι := β) h id hw
      exact ⟨r, .inr s', congrArg (boxed Sum.inr) hr, hsame, fun hn => congrArg _ (hnone hn),
        fun l hl => ⟨(hsome l hl).1.inr, (hsome l hl).2⟩⟩
  poison_spec := by
    rintro (s | s) h hw
    · obtain ⟨s', hr, ht⟩ := poison_spec (ι := α) h hw
      exact ⟨.inl s', congrArg (Option.map Sum.inl) hr, ht.inl⟩
    · obtain ⟨s', hr, ht⟩ := poison_spec (ι := β) h hw
      exact ⟨.inr s', congrArg (Option.map Sum.inr) hr, ht.inr⟩
  growCapacity_spec := by
    rintro (s | s) n hw hn hc
    · exact growCapacity_spec (ι := α) hw hn hc
    · exact growCapacity_spec (ι := β) hw hn hc

end Sum

/-! ### New backends -/

/-- In order, empty, and with room for `n` entries. -/
structure LawfulIndex.Empty {ι : Type} [InactiveIndex ι] [LawfulIndex ι] (s : ι) (n : Nat) :
    Prop where
  wf : LawfulIndex.view.Wf s
  entries : LawfulIndex.view.entries s = ∅
  fits : LawfulIndex.view.Fits s n

variable {C : Type} [LruCache C]

/-- **Every backend that can be configured starts in order and empty.** -/
theorem InactiveBackendConfig.build_empty {cfg : InactiveBackendConfig} {blockCount : Nat}
    {s : Backend C} (hs : cfg.build blockCount = .ok s) : LawfulIndex.Empty s blockCount := by
  have hline : ∀ p : LeafPolicy, p.Fresh →
      LawfulIndex.Empty (.inr (.inr (.withPolicy p)) : Backend C) blockCount := by
    intro p hp
    have hf : LineageBackend.Fresh (.withPolicy p) := ⟨p, hp, rfl⟩
    refine ⟨⟨hf.wf, trivial⟩, ?_, trivial⟩
    show (LineageBackend.withPolicy p).entries = ∅
    unfold LineageBackend.entries
    rw [hf.realSet]
    rfl
  have hcache : content (withCap blockCount : C) = ∅ := by
    unfold content
    rw [entries_withCap]
    rfl
  cases cfg with
  | hashMap d =>
    cases hs
    exact ⟨HashMapBackend.new_wf d, rfl, trivial⟩
  | lru =>
    cases hs
    refine ⟨trivial, hcache, ?_⟩
    show blockCount ≤ cap (withCap blockCount : C)
    rw [cap_withCap]
  | multiLru thresholds tracker =>
    simp only [build, MultiLruBackend.newWithThresholds] at hs
    split_ifs at hs
    all_goals cases hs
    refine ⟨?_, ?_, fun k => ?_⟩
    · intro j k h a b ha
      have ha : (h, a) ∈ content (withCap blockCount : C) := ha
      rw [hcache] at ha
      exact absurd ha (Finset.notMem_empty _)
    · show MultiLruBackend.all (fun _ => (withCap blockCount : C)) = ∅
      rw [Finset.eq_empty_iff_forall_notMem]
      intro e he
      obtain ⟨k, hk⟩ := MultiLruBackend.mem_all.mp he
      rw [hcache] at hk
      exact Finset.notMem_empty e hk
    · show blockCount ≤ cap (withCap blockCount : C)
      rw [cap_withCap]
  | lineage eviction =>
    cases hs
    cases eviction with
    | tick => exact hline _ .tick
    | fifo => exact hline _ .fifo
  | valuedLineage sketch oracle params =>
    cases hs
    exact hline _ (.valued sketch oracle params)

end Kvbm
