/-
The history of expired keys.

The order in which keys go lists every key of the history once, under the time until which it is
kept, and there are never more keys than the capacity.
-/
import Kvbm.Hub.Bundle.Expiry

namespace Kvbm.Hub.Bundle

open Lib Bundle.SequenceHash

namespace ExpiredAdvertisementHistory

variable {H : Type} [DecidableEq H] [SequenceHash H]

omit [DecidableEq H] in
theorem expiryOrder_injective {k k' : BundleKey H} {t t' : Nat}
    (h : expiryOrder k t = expiryOrder k' t') : k = k' ∧ t = t' := by
  obtain ⟨ht, hrest⟩ := Prod.mk.inj (toLex.injective h)
  obtain ⟨hm, hrest⟩ := Prod.mk.inj (toLex.injective hrest)
  obtain ⟨hb, hh⟩ := Prod.mk.inj (toLex.injective hrest)
  obtain ⟨m, x, b, hx⟩ := k
  obtain ⟨m', x', b', hx'⟩ := k'
  obtain rfl : m = m' := hm
  obtain rfl : b = b' := hb
  obtain rfl : x = x' := asU128_injective x x' hh
  exact ⟨rfl, ht⟩

/-- The order lists the keys and their times, and nothing else. -/
structure Listing (order : List (ExpiryOrder × BundleKey H)) (entries : Listed (BundleKey H) Nat) :
    Prop where
  ordered : OrdKeys order
  listed : ∀ o k, ordGet o order = some k ↔ ∃ t, entries.lookup k = some t ∧ o = expiryOrder k t

/-- **The order of eviction says exactly what is stored**, and there is room for it. -/
structure Exact (s : ExpiredAdvertisementHistory H) : Prop where
  listing : Listing s.evictionOrder s.entries
  bounded : s.entries.entries.length ≤ s.capacity

variable {s : ExpiredAdvertisementHistory H} {order : List (ExpiryOrder × BundleKey H)}
  {entries : Listed (BundleKey H) Nat} {key : BundleKey H} {t : Nat}

theorem listing_empty : Listing [] (∅ : Listed (BundleKey H) Nat) := by
  refine ⟨List.Pairwise.nil, ?_⟩
  intro o k
  simp [ordGet]

theorem exact_new {retention : Nat} : (new retention : ExpiredAdvertisementHistory H).Exact :=
  ⟨listing_empty, Nat.zero_le _⟩

theorem Listing.remove (h : Listing order entries) (hkey : entries.lookup key = some t) :
    Listing (ordRemove (expiryOrder key t) order) (entries.erase key) := by
  refine ⟨h.ordered.remove, ?_⟩
  intro o k
  rw [ordGet_ordRemove, Listed.lookup_erase]
  by_cases hk : k = key
  · subst hk
    rw [if_pos rfl]
    simp only [reduceCtorEq, false_and, exists_false, iff_false]
    intro hget
    split_ifs at hget with ho
    obtain ⟨u, hu, rfl⟩ := (h.listed o k).mp hget
    rw [hkey] at hu
    exact ho (Option.some.inj hu ▸ rfl)
  · rw [if_neg hk, ← h.listed o k]
    by_cases ho : o = expiryOrder key t
    · rw [if_pos ho]
      simp only [reduceCtorEq, false_iff]
      intro hget
      obtain ⟨u, -, hu⟩ := (h.listed o k).mp hget
      exact hk (expiryOrder_injective (hu.symm.trans ho)).1
    · rw [if_neg ho]

theorem Listing.insert (h : Listing order entries) (hkey : entries.lookup key = none) :
    Listing (ordInsert (expiryOrder key t) key order) (entries.insert key t) := by
  refine ⟨h.ordered.insert, ?_⟩
  intro o k
  rw [ordGet_ordInsert, Listed.lookup_insert]
  by_cases ho : o = expiryOrder key t
  · rw [if_pos ho]
    constructor
    · intro hk
      obtain rfl := Option.some.inj hk
      exact ⟨t, if_pos rfl, ho⟩
    · intro ⟨u, _, hu⟩
      rw [(expiryOrder_injective (hu.symm.trans ho)).1]
  · rw [if_neg ho, h.listed o k]
    by_cases hk : k = key
    · subst hk
      rw [if_pos rfl, hkey]
      constructor
      · intro ⟨u, hu, _⟩
        cases hu
      · intro ⟨u, hu, hou⟩
        exact absurd (Option.some.inj hu ▸ hou) ho
    · rw [if_neg hk]

/-- The first of the order goes, and its key with it. -/
theorem Listing.pop {o : ExpiryOrder} (h : Listing ((o, key) :: order) entries) :
    Listing order (entries.erase key) ∧ ∃ t, entries.lookup key = some t := by
  have hfirst : ordGet o ((o, key) :: order) = some key := by rw [ordGet_cons, if_pos rfl]
  obtain ⟨t, ht, ho⟩ := (h.listed o key).mp hfirst
  have hremove : ordRemove (expiryOrder key t) ((o, key) :: order) = order := by
    obtain ⟨hlt, -⟩ := List.pairwise_cons.mp h.ordered
    rw [← ho, ordRemove, List.filter_cons, if_neg (by simp)]
    exact List.filter_eq_self.mpr fun p hp => by simpa using (hlt p hp).ne'
  have hlisting := h.remove ht
  rw [hremove] at hlisting
  exact ⟨hlisting, t, ht⟩

theorem Listing.popWhile (p : ExpiryOrder → Listed (BundleKey H) Nat → Bool)
    (h : Listing order entries) :
    Listing (popWhile p order entries).1 (popWhile p order entries).2 := by
  induction order generalizing entries with
  | nil => exact h
  | cons first rest ih =>
    unfold ExpiredAdvertisementHistory.popWhile
    split_ifs
    · exact ih h.pop.1
    · exact h

/-- Taking keys while there are too many leaves no more than the capacity. -/
theorem popWhile_bounded {capacity : Nat} (h : Listing order entries) :
    (popWhile (fun _ entries => decide (capacity < entries.entries.length)) order
      entries).2.entries.length ≤ capacity := by
  induction order generalizing entries with
  | nil =>
    have hempty : entries.entries = [] := by
      apply List.eq_nil_iff_forall_not_mem.mpr
      intro e he
      have hget := (h.listed _ e.1).mpr ⟨e.2, Listed.mem_entries.mp he, rfl⟩
      cases hget
    simp [ExpiredAdvertisementHistory.popWhile, hempty]
  | cons first rest ih =>
    unfold ExpiredAdvertisementHistory.popWhile
    split_ifs with hp
    · exact ih h.pop.1
    · exact not_lt.mp (of_decide_eq_false (Bool.eq_false_iff.mpr hp))

/-! ### The operations -/

theorem forget_capacity : (s.forget key).capacity = s.capacity := by
  unfold forget
  split <;> rfl

theorem listing_forget (h : Listing s.evictionOrder s.entries) :
    Listing (s.forget key).evictionOrder (s.forget key).entries ∧
      (s.forget key).entries.lookup key = none ∧
      (s.forget key).entries.entries.length ≤ s.entries.entries.length := by
  unfold forget
  cases hkey : s.entries.lookup key with
  | none => exact ⟨h, hkey, le_rfl⟩
  | some =>
    have hlen := Listed.length_erase hkey
    refine ⟨h.remove hkey, by rw [Listed.lookup_erase, if_pos rfl], ?_⟩
    show (s.entries.erase key).entries.length ≤ s.entries.entries.length
    omega

theorem Exact.forget (h : s.Exact) : (s.forget key).Exact := by
  obtain ⟨hlisting, -, hlen⟩ := listing_forget h.listing
  refine ⟨hlisting, ?_⟩
  rw [forget_capacity]
  exact hlen.trans h.bounded

theorem listing_recordOne {now keep : Nat} (h : Listing s.evictionOrder s.entries) :
    Listing (recordOne now keep s key).evictionOrder (recordOne now keep s key).entries := by
  obtain ⟨hlisting, hnone, -⟩ := listing_forget h
  simp only [recordOne]
  split_ifs
  · exact hlisting
  · exact hlisting.insert hnone

/-- **Recording expired keys** keeps the history exact. -/
theorem Exact.record {keys : List (BundleKey H)} {now : Nat} (h : s.Exact) :
    (s.record keys now).Exact := by
  have hpruned : Listing (s.prune now).evictionOrder (s.prune now).entries := h.listing.popWhile _
  have hlisting := keys.foldlRecOn (motive := fun s => Listing s.evictionOrder s.entries)
    (recordOne now (saturatingAdd now (s.prune now).retentionMs)) hpruned
    fun _ h _ _ => listing_recordOne h
  exact ⟨hlisting.popWhile _, popWhile_bounded hlisting⟩

end ExpiredAdvertisementHistory

end Kvbm.Hub.Bundle
