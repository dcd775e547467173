/-
A map kept in the order of its keys.

The map is the list of its pairs with the keys ascending, which is all that can be
seen of a B-tree: what a key is mapped to, and which key is the first.
-/
import Kvbm.Lib.Assoc
import Mathlib.Data.List.Sort

namespace Kvbm.Lib

open List Option

variable {κ β : Type*} [LinearOrder κ]

/-- Put a pair at its place; a pair with the same key gives way. -/
def ordInsert (k : κ) (v : β) : List (κ × β) → List (κ × β)
  | [] => [(k, v)]
  | p :: l =>
    if k < p.1 then (k, v) :: p :: l
    else if k = p.1 then (k, v) :: l
    else p :: ordInsert k v l

def ordGet (k : κ) (l : List (κ × β)) : Option β := (l.find? fun p => p.1 = k).map Prod.snd

def ordRemove (k : κ) (l : List (κ × β)) : List (κ × β) := l.filter fun p => p.1 ≠ k

/-- Replace the value of a key that is there. -/
def ordSet (k : κ) (v : β) (l : List (κ × β)) : List (κ × β) :=
  l.map fun p => if p.1 = k then (k, v) else p

/-- The keys ascend. -/
abbrev OrdKeys (l : List (κ × β)) : Prop := l.Pairwise fun p q => p.1 < q.1

variable {l : List (κ × β)} {k j : κ} {v : β}

theorem OrdKeys.nodup (h : OrdKeys l) : KeysNodup l := pairwise_map.mpr (h.imp ne_of_lt)

theorem ordGet_eq_some (h : OrdKeys l) : ordGet k l = some v ↔ (k, v) ∈ l :=
  assocGet_eq_some h.nodup

theorem OrdKeys.key_unique (h : OrdKeys l) {v w : β} (hv : (k, v) ∈ l) (hw : (k, w) ∈ l) : v = w :=
  some.inj (((ordGet_eq_some h).mpr hv).symm.trans ((ordGet_eq_some h).mpr hw))

/-- A key above all others goes to the end. -/
theorem ordInsert_of_lt (h : ∀ p ∈ l, p.1 < k) : ordInsert k v l = l ++ [(k, v)] := by
  induction l with
  | nil => rfl
  | cons p l ih =>
    have hp : p.1 < k := h p (by simp)
    unfold ordInsert
    rw [if_neg hp.not_gt, if_neg hp.ne', ih fun q hq => h q (by simp [hq])]
    rfl

theorem OrdKeys.append (h : OrdKeys l) (hk : ∀ p ∈ l, p.1 < k) : OrdKeys (l ++ [(k, v)]) := by
  rw [OrdKeys, pairwise_append]
  exact ⟨h, by simp, by simpa using fun p b hpb => hk (p, b) hpb⟩

theorem OrdKeys.remove (h : OrdKeys l) : OrdKeys (ordRemove k l) := h.filter _

theorem ordSet_fst (p : κ × β) : (if p.1 = k then (k, v) else p).1 = p.1 := by
  split_ifs with hp
  · exact hp.symm
  · rfl

theorem OrdKeys.set (h : OrdKeys l) : OrdKeys (ordSet k v l) := by
  unfold ordSet
  rw [OrdKeys, pairwise_map]
  refine h.imp ?_
  intro p q hpq
  rw [ordSet_fst, ordSet_fst]
  exact hpq

/-! ### What a key is mapped to after a change -/

variable {p : κ × β}

theorem ordGet_cons : ordGet j (p :: l) = if p.1 = j then some p.2 else ordGet j l := by
  unfold ordGet
  rw [find?_cons]
  by_cases hp : p.1 = j
  · rw [if_pos hp]
    simp [hp]
  · rw [if_neg hp]
    simp [hp]

theorem ordGet_ordInsert : ordGet j (ordInsert k v l) = if j = k then some v else ordGet j l := by
  induction l with
  | nil =>
    rw [ordInsert, ordGet_cons]
    exact if_congr eq_comm rfl rfl
  | cons p l ih =>
    rw [ordInsert]
    rcases lt_trichotomy k p.1 with hlt | heq | hgt
    · rw [if_pos hlt, ordGet_cons]
      exact if_congr eq_comm rfl rfl
    · rw [if_neg heq.not_lt, if_pos heq, ordGet_cons, ordGet_cons]
      by_cases hj : j = k
      · simp [hj]
      · rw [if_neg (Ne.symm hj), if_neg hj, if_neg fun h => hj (h.symm.trans heq.symm)]
    · rw [if_neg hgt.not_gt, if_neg hgt.ne', ordGet_cons, ordGet_cons, ih]
      by_cases hj : p.1 = j
      · rw [if_pos hj, if_neg fun h => hgt.ne (hj.trans h)]
        simp [hj]
      · simp [hj]

theorem ordGet_ordRemove : ordGet j (ordRemove k l) = if j = k then none else ordGet j l := by
  unfold ordGet ordRemove
  rw [find?_filter]
  split_ifs with hj
  · rw [find?_eq_none.mpr (by simp [hj]), map_none]
  congr 2
  funext p
  by_cases hp : p.1 = j
  · simp [hp, hj]
  · simp [hp]

theorem ordGet_ordSet : ordGet j (ordSet k v l) =
    if j = k then (ordGet k l).map fun _ => v else ordGet j l := by
  unfold ordGet ordSet
  simp only [find?_map, Function.comp_def, ordSet_fst, Option.map_map]
  have hfound : ∀ p, p ∈ l.find? (fun q => q.1 = j) → p.1 = j := by
    intro p hp
    simpa using find?_some hp
  split_ifs with hj
  · subst hj
    exact Option.map_congr fun p hp => by simp [hfound p hp]
  · exact Option.map_congr fun p hp => by simp [hfound p hp, hj]

theorem mem_ordInsert (h : p ∈ ordInsert k v l) : p = (k, v) ∨ p ∈ l := by
  induction l with
  | nil => exact .inl (mem_singleton.mp h)
  | cons q l ih =>
    rw [ordInsert] at h
    split_ifs at h
    · exact mem_cons.mp h
    · rcases mem_cons.mp h with rfl | hmem
      · exact .inl rfl
      · exact .inr (mem_cons_of_mem _ hmem)
    · rcases mem_cons.mp h with rfl | hmem
      · exact .inr mem_cons_self
      · exact (ih hmem).imp id (mem_cons_of_mem _)

theorem OrdKeys.insert (h : OrdKeys l) : OrdKeys (ordInsert k v l) := by
  induction l with
  | nil => exact pairwise_singleton _ _
  | cons p l ih =>
    obtain ⟨hlt, hl⟩ := pairwise_cons.mp h
    rw [ordInsert]
    split_ifs with hk heq
    · refine pairwise_cons.mpr ⟨?_, h⟩
      intro q hq
      rcases mem_cons.mp hq with rfl | hq
      · exact hk
      · exact hk.trans (hlt q hq)
    · exact pairwise_cons.mpr ⟨fun q hq => heq.trans_lt (hlt q hq), hl⟩
    · refine pairwise_cons.mpr ⟨?_, ih hl⟩
      intro q hq
      rcases mem_ordInsert hq with rfl | hq
      · exact lt_of_le_of_ne (not_lt.mp hk) (Ne.symm heq)
      · exact hlt q hq

/-- What is left when the first pair is taken. -/
theorem OrdKeys.get_tail (h : OrdKeys (p :: l)) :
    ordGet j l = if j = p.1 then none else ordGet j (p :: l) := by
  obtain ⟨hlt, -⟩ := pairwise_cons.mp h
  rw [ordGet_cons]
  by_cases hj : j = p.1
  · rw [if_pos hj, ordGet, find?_eq_none.mpr, map_none]
    intro q hq
    simpa [hj] using (hlt q hq).ne'
  · rw [if_neg hj, if_neg (Ne.symm hj)]

end Kvbm.Lib
