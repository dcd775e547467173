/-
Finite maps that are walked through and counted.

The maps are Mathlib's association lists with distinct keys.  What is added is how many entries
satisfy a predicate, and how one change of the map changes that number.
-/
import Mathlib.Data.List.AList

namespace Kvbm.Lib

open List

abbrev Listed (κ β : Type*) := AList fun _ : κ => β

namespace Listed

variable {κ β : Type*} [DecidableEq κ] {m : Listed κ β} {k j : κ} {v u : β} {p : κ → β → Bool}

/-- How many entries satisfy `p`. -/
def count (p : κ → β → Bool) (m : Listed κ β) : Nat := m.entries.countP fun e => p e.1 e.2

/-- One if `p` holds. -/
def one (p : Bool) : Nat := if p then 1 else 0

omit [DecidableEq κ] in
theorem countP_cons (l : List (Sigma fun _ : κ => β)) :
    (⟨k, v⟩ :: l).countP (fun e => p e.1 e.2) = l.countP (fun e => p e.1 e.2) + one (p k v) :=
  List.countP_cons

theorem lookup_insert : (m.insert k v).lookup j = if j = k then some v else m.lookup j := by
  split_ifs with h
  · subst h
    exact AList.lookup_insert m
  · exact AList.lookup_insert_ne h

theorem lookup_erase : (m.erase k).lookup j = if j = k then none else m.lookup j := by
  split_ifs with h
  · subst h
    exact AList.lookup_erase j m
  · exact AList.lookup_erase_ne h

theorem mem_entries : (⟨k, v⟩ : Sigma fun _ : κ => β) ∈ m.entries ↔ m.lookup k = some v :=
  AList.mem_lookup_iff.symm

theorem notMem (h : m.lookup k = none) : k ∉ m := AList.lookup_eq_none.mp h

theorem count_erase (h : m.lookup k = some v) : count p (m.erase k) + one (p k v) = count p m := by
  have hmem : k ∈ m.entries.keys := by
    rw [← AList.keys, ← AList.mem_keys, ← AList.lookup_isSome, h]
    rfl
  obtain ⟨u, l1, l2, -, hsplit, herase⟩ := exists_of_kerase hmem
  have hu : m.lookup k = some u := mem_entries.mp (by simp [hsplit])
  obtain rfl : u = v := Option.some.inj (hu.symm.trans h)
  have herase : (m.erase k).entries = l1 ++ l2 := herase
  rw [count, count, herase, hsplit, countP_append, countP_append, countP_cons]
  omega

theorem count_insert_new (h : m.lookup k = none) :
    count p (m.insert k v) = count p m + one (p k v) := by
  rw [count, count, AList.entries_insert_of_notMem (notMem h), countP_cons]

theorem count_replace (h : m.lookup k = some u) :
    count p (m.insert k v) + one (p k u) = count p m + one (p k v) := by
  have herase := count_erase (p := p) h
  have hentries : (m.insert k v).entries = ⟨k, v⟩ :: (m.erase k).entries := rfl
  rw [count, hentries, countP_cons, ← herase, count]
  omega

theorem length_erase (h : m.lookup k = some v) :
    (m.erase k).entries.length + 1 = m.entries.length := by
  have hcount := count_erase (p := fun _ _ => true) h
  simpa [count, one] using hcount

theorem length_replace (h : m.lookup k = some u) :
    (m.insert k v).entries.length = m.entries.length := by
  have hcount := count_replace (p := fun _ _ => true) (v := v) h
  simpa [count, one] using hcount

omit [DecidableEq κ] in
/-- The order of the entries does not matter for what is found and what is counted. -/
theorem count_perm {m' : Listed κ β} (h : m.entries.Perm m'.entries) : count p m = count p m' :=
  h.countP_eq _

end Listed

/-! ### Taking entries away one after the other -/

section Sweep

variable {σ τ κ β : Type*} [DecidableEq κ] {look : σ → κ → Option β} {key : τ → κ}
  {drop : σ → τ → σ} {P : σ → Prop} {fits : τ → β → Prop} {s : σ} {l : List τ}

/-- Dropping an entry that is there keeps `P` and drops nothing else. -/
def Drops (look : σ → κ → Option β) (key : τ → κ) (fits : τ → β → Prop) (drop : σ → τ → σ)
    (P : σ → Prop) : Prop :=
  ∀ s t v, P s → look s (key t) = some v → fits t v →
    P (drop s t) ∧ ∀ j, look (drop s t) j = if j = key t then none else look s j

/-- **What dropping one entry keeps, dropping the entries of a list keeps.** -/
theorem Drops.foldl (h : Drops look key fits drop P) (hs : P s) (hnodup : (l.map key).Nodup)
    (hl : ∀ t ∈ l, ∃ v, look s (key t) = some v ∧ fits t v) :
    P (l.foldl drop s) ∧
      ∀ j, look (l.foldl drop s) j = if j ∈ l.map key then none else look s j := by
  induction l generalizing s with
  | nil => exact ⟨hs, fun j => by simp⟩
  | cons t l ih =>
    obtain ⟨hnotin, hnodup⟩ := nodup_cons.mp (map_cons ▸ hnodup)
    obtain ⟨v, hv, hfits⟩ := hl t (by simp)
    obtain ⟨hP, hlook⟩ := h s t v hs hv hfits
    have hrest : ∀ u ∈ l, ∃ w, look (drop s t) (key u) = some w ∧ fits u w := by
      intro u hu
      have hne : key u ≠ key t := fun he => hnotin (he ▸ mem_map_of_mem hu)
      rw [hlook, if_neg hne]
      exact hl u (by simp [hu])
    obtain ⟨hfinal, hkept⟩ := ih hP hnodup hrest
    refine ⟨hfinal, fun j => ?_⟩
    rw [foldl_cons, hkept, hlook, map_cons]
    by_cases hj : j = key t
    · simp [hj]
    · simp [hj]

end Sweep

end Kvbm.Lib
