/-
Tables.

A table is a list of which entries are replaced and to which entries are added.  A shared
object is counted where it is held: every entry of a table holds some number of clones of it,
and the sum over the table is its number of owners.
-/
import Mathlib.Algebra.Order.BigOperators.Group.List
import Mathlib.Algebra.Order.Ring.Nat

namespace Kvbm.Lib

open List

variable {α : Type*} {f g : α → Nat} {l : List α} {a b c : α} {i j : Nat}

/-! ### Entries -/

/-- An entry after one was replaced. -/
theorem getElem?_set_cases (ha : l[i]? = some a) (hc : (l.set i b)[j]? = some c) :
    j = i ∧ c = b ∨ j ≠ i ∧ l[j]? = some c := by
  by_cases hj : j = i
  · subst hj
    rw [List.getElem?_set_self (List.getElem?_eq_some_iff.mp ha).1] at hc
    exact .inl ⟨rfl, (Option.some.inj hc).symm⟩
  · rw [List.getElem?_set_ne (Ne.symm hj)] at hc
    exact .inr ⟨hj, hc⟩

theorem getElem?_set_of (ha : l[i]? = some a) (hc : l[j]? = some c) :
    (l.set i b)[j]? = some (if j = i then b else c) := by
  by_cases hj : j = i
  · subst hj
    rw [List.getElem?_set_self (List.getElem?_eq_some_iff.mp ha).1, if_pos rfl]
  · rw [List.getElem?_set_ne (Ne.symm hj), if_neg hj, hc]

/-- An entry after one was added. -/
theorem getElem?_concat_cases (hc : (l ++ [b])[i]? = some c) :
    l[i]? = some c ∨ i = l.length ∧ c = b := by
  by_cases hlt : i < l.length
  · rw [getElem?_append_left hlt] at hc
    exact .inl hc
  rw [List.getElem?_append_right (Nat.le_of_not_lt hlt)] at hc
  obtain ⟨h0, hc⟩ := List.getElem?_eq_some_iff.mp hc
  simp only [List.length_singleton] at h0
  exact .inr ⟨by omega, by simpa using hc.symm⟩

theorem getElem?_concat_of (hc : l[i]? = some c) : (l ++ [b])[i]? = some c := by
  rw [List.getElem?_append_left (List.getElem?_eq_some_iff.mp hc).1, hc]

/-- The entries are still there, up to `R`; others may have been added. -/
def Extends (R : α → α → Prop) (l l' : List α) : Prop :=
  ∀ (i : Nat) a, l[i]? = some a → ∃ b, l'[i]? = some b ∧ R a b

namespace Extends

variable {R : α → α → Prop} {l' : List α}

theorem mem (h : Extends R l l') (ha : a ∈ l) : ∃ b ∈ l', R a b := by
  obtain ⟨i, hi⟩ := mem_iff_getElem?.mp ha
  obtain ⟨b, hb, hr⟩ := h i a hi
  exact ⟨b, mem_of_getElem? hb, hr⟩

theorem length_le (h : Extends R l l') : l.length ≤ l'.length := by
  by_contra hlt
  obtain ⟨b, hb, -⟩ := h l'.length _ (getElem?_eq_getElem (Nat.lt_of_not_le hlt))
  rw [getElem?_eq_none (Nat.le_refl _)] at hb
  cases hb

variable [Std.Refl R]

theorem of_getElem? (h : ∀ (i : Nat) a, l[i]? = some a → l'[i]? = some a) : Extends R l l' :=
  fun i a ha => ⟨a, h i a ha, Std.Refl.refl a⟩

theorem refl (l : List α) : Extends R l l := of_getElem? fun _ _ h => h

theorem concat : Extends R l (l ++ [b]) := of_getElem? fun _ _ h => getElem?_concat_of h

theorem set (ha : l[i]? = some a) (hab : R a b) : Extends R l (l.set i b) := by
  intro j c hc
  refine ⟨_, getElem?_set_of ha hc, ?_⟩
  split_ifs with hj
  · subst hj
    cases ha.symm.trans hc
    exact hab
  · exact Std.Refl.refl c

end Extends

/-! ### Counting -/

/-- The sum of `f` over the entries. -/
def tally (f : α → Nat) (l : List α) : Nat := (l.map f).sum

@[simp] theorem tally_nil : tally f [] = 0 := rfl

@[simp] theorem tally_cons : tally f (a :: l) = f a + tally f l := by
  simp [tally]

@[simp] theorem tally_append {l' : List α} : tally f (l ++ l') = tally f l + tally f l' := by
  simp [tally]

/-- One entry is replaced. -/
theorem tally_set (h : l[i]? = some a) : tally f (l.set i b) + f a = tally f l + f b := by
  induction l generalizing i with
  | nil => cases h
  | cons c l ih =>
    cases i with
    | zero =>
      cases h
      simp only [set_cons_zero, tally_cons]
      omega
    | succ i =>
      have := ih (i := i) h
      simp only [set_cons_succ, tally_cons]
      omega

theorem le_tally (h : a ∈ l) : f a ≤ tally f l := le_sum_of_mem (mem_map_of_mem h)

/-- Nothing is counted where no entry counts. -/
theorem tally_eq_zero : tally f l = 0 ↔ ∀ a ∈ l, f a = 0 := by
  induction l with
  | nil => simp
  | cons c l ih => simp [ih]

end Kvbm.Lib
