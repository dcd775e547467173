/-
Lists of pairs with distinct keys.

Such a list is a small map: what a key is mapped to does not depend on the order of the
pairs, so changing one pair in place, or removing one by putting the last in its place,
has the effect one expects.
-/
import Kvbm.Lib.Dense
import Mathlib.Data.List.Perm.Basic

namespace Kvbm.Lib

open List Option

variable {α κ β : Type*}

/-! ### Changing a list in one place -/

/-- Change the first item that satisfies `p`. -/
def modifyFirst (p : α → Bool) (f : α → α) : List α → List α
  | [] => []
  | x :: l => if p x then f x :: l else x :: modifyFirst p f l

theorem modifyFirst_split {p : α → Bool} {l : List α} (h : l.any p = true) :
    ∃ a x b, l = a ++ x :: b ∧ p x = true ∧ (∀ y ∈ a, p y = false) ∧
      ∀ f, modifyFirst p f l = a ++ f x :: b := by
  induction l with
  | nil => cases h
  | cons x l ih =>
    by_cases hx : p x = true
    · exact ⟨[], x, l, rfl, hx, by simp, fun f => by simp [modifyFirst, hx]⟩
    have hx : p x = false := by simpa using hx
    obtain ⟨a, y, b, rfl, hy, ha, hf⟩ := ih (by simpa [hx] using h)
    refine ⟨x :: a, y, b, rfl, hy, ?_, fun f => by simp [modifyFirst, hx, hf f]⟩
    intro z hz
    rcases mem_cons.mp hz with rfl | hz
    · exact hx
    · exact ha z hz

theorem swapRemove_perm {a b : List α} {x : α} :
    (swapRemove (a ++ x :: b) a.length).Perm (a ++ b) := by
  have hset : ∀ (b : List α) (y : α), (a ++ x :: b).set a.length y = a ++ y :: b := by
    intro b y
    rw [set_append_right _ _ (Nat.le_refl _)]
    simp
  rcases eq_nil_or_concat b with rfl | ⟨b, y, rfl⟩
  · simp [swapRemove]
  have hlast : (a ++ x :: (b ++ [y])).getLast? = some y := by
    rw [← cons_append, ← append_assoc, getLast?_concat]
  have hdrop : (a ++ y :: (b ++ [y])).dropLast = a ++ y :: b := by
    rw [← cons_append, ← append_assoc, dropLast_concat]
  simp only [swapRemove, concat_eq_append, hlast, hset, hdrop]
  refine List.Perm.append_left a ?_
  exact (perm_append_singleton y b).symm

/-! ### Looking a key up -/

abbrev KeysNodup (l : List (κ × β)) : Prop := (l.map Prod.fst).Nodup

theorem KeysNodup.perm {l l' : List (κ × β)} (hn : KeysNodup l) (hp : l.Perm l') : KeysNodup l' :=
  (hp.map _).nodup_iff.mp hn

theorem KeysNodup.sublist {l l' : List (κ × β)} (hn : KeysNodup l) (hs : l'.Sublist l) :
    KeysNodup l' := List.Nodup.sublist (hs.map _) hn

variable [DecidableEq κ] {l l' a b : List (κ × β)} {k j : κ} {v : β}

def assocGet (k : κ) (l : List (κ × β)) : Option β := (l.find? fun p => p.1 = k).map Prod.snd

theorem assocGet_eq_some (hn : KeysNodup l) : assocGet k l = some v ↔ (k, v) ∈ l := by
  induction l with
  | nil => simp [assocGet]
  | cons e l ih =>
    obtain ⟨hnew, hn⟩ := nodup_cons.mp hn
    have ih := ih hn
    unfold assocGet at ih ⊢
    by_cases he : e.1 = k
    · have hno : (k, v) ∉ l := fun hmem => hnew (he ▸ mem_map_of_mem hmem)
      rw [find?_cons_of_pos (by simpa using he), mem_cons]
      simp only [map_some, some.injEq, hno, or_false]
      exact ⟨fun hv => Prod.ext he.symm hv.symm, fun heq => heq ▸ rfl⟩
    · have hne : (k, v) ≠ e := fun hc => he (hc ▸ rfl)
      rw [find?_cons_of_neg (by simpa using he), ih, mem_cons]
      simp [hne]

theorem assocGet_perm (hn : KeysNodup l) (hp : l.Perm l') : assocGet k l = assocGet k l' := by
  refine ext fun v => ?_
  rw [assocGet_eq_some hn, assocGet_eq_some (hn.perm hp), hp.mem_iff]

variable (hn : KeysNodup (a ++ (k, v) :: b))

include hn

/-- One pair decides what its key is mapped to, and no other. -/
theorem assocGet_middle :
    assocGet j (a ++ (k, v) :: b) = if j = k then some v else assocGet j (a ++ b) := by
  split_ifs with hj
  · subst hj
    exact (assocGet_eq_some hn).mpr (by simp)
  have hrest : KeysNodup (a ++ b) := hn.sublist (List.Sublist.append_left (sublist_cons_self _ _) a)
  refine ext fun u => ?_
  rw [assocGet_eq_some hn, assocGet_eq_some hrest]
  simp [hj]

/-- The key of a pair in the middle is nowhere else. -/
theorem KeysNodup.middle : assocGet k (a ++ b) = none := by
  cases hget : assocGet k (a ++ b) with
  | none => rfl
  | some u =>
    have hrest : KeysNodup (a ++ b) :=
      hn.sublist (List.Sublist.append_left (sublist_cons_self _ _) a)
    have hmem := (assocGet_eq_some hrest).mp hget
    have hnd := (perm_middle.map Prod.fst).nodup_iff.mp hn
    exact absurd (mem_map_of_mem hmem) (nodup_cons.mp hnd).1

omit [DecidableEq κ] in
/-- A pair that changes its value keeps the keys distinct. -/
theorem KeysNodup.set (u : β) : KeysNodup (a ++ (k, u) :: b) := by
  rw [KeysNodup, map_append, map_cons] at hn ⊢
  exact hn

end Kvbm.Lib
