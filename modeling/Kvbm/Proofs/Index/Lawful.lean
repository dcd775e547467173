/-
What the store relies on, whatever the backend.

A backend is read through a view: when its state is in order, which pairs of hash and
block it holds, how many it is sure to have room for, and which hashes it can hold
next to each other.  Everything that takes blocks out is then one relation, `Taken`:
the pairs returned were there, once each, and are gone.  The loops that the backends
share keep it, so a backend has to prove it for one removal only.
-/
import Kvbm.Index.Basic
import Mathlib.Data.Finset.Card

namespace Kvbm

open List Option InactiveIndex

/-- How the state of a backend is read. -/
structure IndexView (ι : Type) where
  /-- The state is in order. -/
  Wf : ι → Prop
  entries : ι → Finset Entry
  /-- There is room for that many entries in all. -/
  Fits : ι → Nat → Prop
  /-- The second hash can be inserted while the first is there. -/
  Admits : ι → SequenceHash → SequenceHash → Prop

namespace IndexView

variable {ι : Type} {v : IndexView ι} {s s' s'' : ι} {l l' : List Entry} {e : Entry}

/-- `s'` is `s` without the entries `l`. -/
structure Taken (v : IndexView ι) (s : ι) (l : List Entry) (s' : ι) : Prop where
  wf : v.Wf s'
  nodup : l.Nodup
  mem : ∀ e ∈ l, e ∈ v.entries s
  rest : v.entries s' = v.entries s \ l.toFinset
  fits : ∀ n, v.Fits s n → v.Fits s' n
  admits : v.Admits s' = v.Admits s

theorem Taken.refl (hw : v.Wf s) : v.Taken s [] s :=
  ⟨hw, nodup_nil, by simp, by simp, fun _ hn => hn, rfl⟩

theorem Taken.mem_rest (ht : v.Taken s l s') : e ∈ v.entries s' ↔ e ∈ v.entries s ∧ e ∉ l := by
  rw [ht.rest, Finset.mem_sdiff, List.mem_toFinset]

theorem Taken.card (ht : v.Taken s l s') : (v.entries s').card + l.length = (v.entries s).card := by
  have hsub : l.toFinset ⊆ v.entries s := fun e he => ht.mem e (mem_toFinset.mp he)
  have hcard := Finset.card_le_card hsub
  rw [ht.rest, Finset.card_sdiff_of_subset hsub, toFinset_card_of_nodup ht.nodup]
  rw [toFinset_card_of_nodup ht.nodup] at hcard
  omega

/-- Two removals in a row. -/
theorem Taken.trans (h1 : v.Taken s l s') (h2 : v.Taken s' l' s'') : v.Taken s (l ++ l') s'' := by
  refine ⟨h2.wf, ?_, ?_, ?_, fun n hn => h2.fits n (h1.fits n hn), h2.admits.trans h1.admits⟩
  · refine nodup_append'.mpr ⟨h1.nodup, h2.nodup, fun e he he' => ?_⟩
    exact (h1.mem_rest.mp (h2.mem e he')).2 he
  · intro e he
    rcases mem_append.mp he with he | he
    · exact h1.mem e he
    · exact (h1.mem_rest.mp (h2.mem e he)).1
  · rw [h2.rest, h1.rest, toFinset_append]
    exact sdiff_sdiff_left

/-- The order in which the entries are named does not matter. -/
theorem Taken.perm (ht : v.Taken s l s') (hp : l.Perm l') : v.Taken s l' s' := by
  refine ⟨ht.wf, hp.nodup_iff.mp ht.nodup, fun e he => ht.mem e (hp.mem_iff.mpr he), ?_, ht.fits,
    ht.admits⟩
  rw [ht.rest, toFinset_eq_of_perm _ _ hp]

/-- Removing one entry. -/
theorem Taken.single (hw : v.Wf s') (he : e ∈ v.entries s)
    (hrest : v.entries s' = (v.entries s).erase e) (hfits : ∀ n, v.Fits s n → v.Fits s' n)
    (hadm : v.Admits s' = v.Admits s) : v.Taken s [e] s' := by
  refine ⟨hw, by simp, by simpa using he, ?_, hfits, hadm⟩
  rw [hrest]
  ext x
  simp [and_comm]

theorem Taken.same (hw : v.Wf s') (hrest : v.entries s' = v.entries s)
    (hfits : ∀ n, v.Fits s n → v.Fits s' n) (hadm : v.Admits s' = v.Admits s) :
    v.Taken s [] s' :=
  ⟨hw, nodup_nil, by simp, by simp [hrest], hfits, hadm⟩

/-- A block taken with its descendants, where there are none. -/
theorem Taken.alone {r : Option (Bool × ι)} (hw : v.Wf s)
    (htake : e ∈ v.entries s → ∃ s', r = some (true, s') ∧ v.Taken s [e] s')
    (habsent : e ∉ v.entries s → r = some (false, s)) :
    ∃ l s', (r.map fun r => (if r.1 then [e] else [], r.2)) = some (l, s') ∧ v.Taken s l s' ∧
      (e ∈ v.entries s → e ∈ l) := by
  by_cases he : e ∈ v.entries s
  · obtain ⟨s', rfl, ht⟩ := htake he
    exact ⟨[e], s', rfl, ht, fun _ => mem_singleton_self e⟩
  · rw [habsent he]
    exact ⟨[], s, rfl, .refl hw, fun hc => absurd hc he⟩

/-! ### The loops of the backends -/

/-- What one lookup by hash has to do. -/
def Pops (v : IndexView ι) (pop : ι → SequenceHash → Option (Option Entry × ι)) : Prop :=
  ∀ s h, v.Wf s → ∃ r s', pop s h = some (r, s') ∧ v.Taken s r.toList s' ∧
    (∀ e, r = some e → e.1 = h) ∧ (r = none → ∀ id, (h, id) ∉ v.entries s)

/-- What one turn of an eviction has to do. -/
def Evicts (v : IndexView ι) (victim : ι → Option (Option Entry × ι)) : Prop :=
  ∀ s, v.Wf s → ∃ r s', victim s = some (r, s') ∧ v.Taken s r.toList s' ∧
    (r = none → v.entries s = ∅)

variable {pop : ι → SequenceHash → Option (Option Entry × ι)}

theorem findLoop_taken (hpop : v.Pops pop) :
    ∀ (hs : List SequenceHash) (s : ι), v.Wf s →
      ∃ l s', findLoop pop s hs = some (l, s') ∧ v.Taken s l s' ∧ ∀ e ∈ l, e.1 ∈ hs := by
  intro hs
  induction hs with
  | nil => exact fun s hw => ⟨[], s, rfl, Taken.refl hw, by simp⟩
  | cons h hs ih =>
    intro s hw
    obtain ⟨r, s1, hr, ht, hhash, -⟩ := hpop s h hw
    unfold findLoop
    rw [hr, bind_some]
    cases r with
    | none => exact ⟨[], s1, rfl, ht, by simp⟩
    | some e =>
      obtain ⟨l, s2, hl, ht', hmem⟩ := ih s1 ht.wf
      refine ⟨e :: l, s2, by simp [hl], ht.trans ht', ?_⟩
      simp only [mem_cons, forall_eq_or_imp]
      exact ⟨Or.inl (hhash e rfl), fun e' he' => Or.inr (hmem e' he')⟩

theorem scanLoop_taken (hpop : v.Pops pop) :
    ∀ (hs : List SequenceHash) (s : ι), v.Wf s →
      ∃ l s', scanLoop pop s hs = some (l, s') ∧ v.Taken s l s' ∧ ∀ e ∈ l, e.1 ∈ hs := by
  intro hs
  induction hs with
  | nil => exact fun s hw => ⟨[], s, rfl, Taken.refl hw, by simp⟩
  | cons h hs ih =>
    intro s hw
    obtain ⟨r, s1, hr, ht, hhash, -⟩ := hpop s h hw
    obtain ⟨l, s2, hl, ht', hmem⟩ := ih s1 ht.wf
    unfold scanLoop
    rw [hr, bind_some]
    refine ⟨r.toList ++ l, s2, by simp [hl], ht.trans ht', fun e he => ?_⟩
    rcases mem_append.mp he with he | he
    · rw [hhash e (mem_toList.mp he)]
      exact mem_cons_self
    · exact mem_cons_of_mem _ (hmem e he)

variable {victim : ι → Option (Option Entry × ι)}

/-- **An eviction loop returns as many entries as it is asked for**, or all there are. -/
theorem victimLoop_taken (hev : v.Evicts victim) :
    ∀ (n : Nat) (s : ι), v.Wf s →
      ∃ l s', victimLoop victim n s = some (l, s') ∧ v.Taken s l s' ∧
        l.length = min n (v.entries s).card := by
  intro n
  induction n with
  | zero => exact fun s hw => ⟨[], s, rfl, Taken.refl hw, by simp⟩
  | succ n ih =>
    intro s hw
    obtain ⟨r, s1, hr, ht, hnone⟩ := hev s hw
    unfold victimLoop
    rw [hr, bind_some]
    cases r with
    | none => exact ⟨[], s1, rfl, ht, by simp [hnone rfl]⟩
    | some e =>
      obtain ⟨l, s2, hl, ht', hlen⟩ := ih s1 ht.wf
      have hcard := ht.card
      simp only [toList_some, length_singleton] at hcard
      refine ⟨e :: l, s2, by simp [hl], ht.trans ht', ?_⟩
      rw [length_cons, hlen]
      omega

/-- Asking for as many as there are empties the index. -/
theorem victimLoop_all (hev : v.Evicts victim) {n : Nat} (hw : v.Wf s)
    (hn : n = (v.entries s).card) :
    ∃ l s', victimLoop victim n s = some (l, s') ∧ v.Taken s l s' ∧ v.entries s' = ∅ := by
  obtain ⟨l, s', hl, ht, hlen⟩ := victimLoop_taken hev n s hw
  have := ht.card
  exact ⟨l, s', hl, ht, Finset.card_eq_zero.mp (by omega)⟩

end IndexView

/-- A backend that does what the store expects of it. -/
class LawfulIndex (ι : Type) [InactiveIndex ι] where
  view : IndexView ι
  hash_unique : ∀ {s : ι} {h : SequenceHash} {a b : BlockId}, view.Wf s →
    (h, a) ∈ view.entries s → (h, b) ∈ view.entries s → a = b
  len_eq : ∀ {s : ι}, view.Wf s → len s = (view.entries s).card
  has_iff : ∀ {s : ι} {h : SequenceHash}, view.Wf s →
    (has s h = true ↔ ∃ id, (h, id) ∈ view.entries s)
  findMatch_spec : view.Pops findMatch
  findMatches_spec : ∀ {s : ι} (hs : List SequenceHash), view.Wf s →
    ∃ l s', findMatches s hs = some (l, s') ∧ view.Taken s l s' ∧ ∀ e ∈ l, e.1 ∈ hs
  scanMatches_spec : ∀ {s : ι} (hs : List SequenceHash), view.Wf s →
    ∃ l s', scanMatches s hs = some (l, s') ∧ view.Taken s l s' ∧ ∀ e ∈ l, e.1 ∈ hs
  allocate_spec : ∀ {s : ι} (n : Nat), view.Wf s →
    ∃ l s', allocate s n = some (l, s') ∧ view.Taken s l s' ∧ l.length = min n (view.entries s).card
  allocateAll_spec : ∀ {s : ι}, view.Wf s →
    ∃ l s', allocateAll s = some (l, s') ∧ view.Taken s l s' ∧ view.entries s' = ∅
  /-- A new pair is inserted when there is room and the hashes there admit it. -/
  insert_spec : ∀ {s : ι} {h : SequenceHash} {id n : Nat}, view.Wf s →
    (∀ b, (h, b) ∉ view.entries s) → (∀ g, (g, id) ∉ view.entries s) →
    view.Fits s n → (view.entries s).card < n → (∀ e ∈ view.entries s, view.Admits s e.1 h) →
    ∃ s', insert s h id = some s' ∧ view.Wf s' ∧
      view.entries s' = insert (h, id) (view.entries s) ∧ (∀ m, view.Fits s m → view.Fits s' m) ∧
      view.Admits s' = view.Admits s
  /-- An insertion that comes back was admitted. -/
  insert_admits : ∀ {s s' : ι} {h : SequenceHash} {id : BlockId}, view.Wf s →
    insert s h id = some s' → ∀ e ∈ view.entries s, view.Admits s e.1 h
  rebind_spec : ∀ {s : ι} {h : SequenceHash} {src dst : BlockId}, view.Wf s →
    (h, src) ∈ view.entries s → (∀ g, (g, dst) ∉ view.entries s) →
    ∃ s', rebind s h src dst = (true, s') ∧ view.Wf s' ∧
      view.entries s' = insert (h, dst) ((view.entries s).erase (h, src)) ∧
      (∀ m, view.Fits s m → view.Fits s' m) ∧ view.Admits s' = view.Admits s
  take_spec : ∀ {s : ι} {h : SequenceHash} {id : BlockId}, view.Wf s → (h, id) ∈ view.entries s →
    ∃ s', take s h id = some (true, s') ∧ view.Taken s [(h, id)] s'
  take_absent : ∀ {s : ι} {h : SequenceHash} {id : BlockId}, view.Wf s →
    (h, id) ∉ view.entries s → take s h id = some (false, s)
  takeWithDescendants_spec : ∀ {s : ι} (h : SequenceHash) (id : BlockId), view.Wf s →
    ∃ l s', takeWithDescendants s h id = some (l, s') ∧ view.Taken s l s' ∧
      ((h, id) ∈ view.entries s → (h, id) ∈ l)
  /-- Either nothing happens, or the complete lineage is taken; it ends in the block asked for. -/
  takeCompleteLineage_spec : ∀ {s : ι} (h : SequenceHash) (id : BlockId), view.Wf s →
    ∃ r s', takeCompleteLineage s h id = some (r, s') ∧
      r = completeLineage s h id ∧ (r = none → s' = s) ∧
      ∀ l, r = some l → view.Taken s l s' ∧ l.getLast? = some (h, id)
  poison_spec : ∀ {s : ι} (h : SequenceHash), view.Wf s →
    ∃ s', poison s h = some s' ∧ view.Taken s [] s'
  growCapacity_spec : ∀ {s : ι} {n : Nat}, view.Wf s → 0 < n → (view.entries s).card ≤ n →
    view.Wf (growCapacity s n) ∧
      view.entries (growCapacity s n) = view.entries s ∧
      view.Fits (growCapacity s n) n ∧
      view.Admits (growCapacity s n) = view.Admits s

end Kvbm
