/-
Slices of a list.

`slice l i j` is what the source writes `l[i..j]`, as long as `i ≤ j ≤ l.len()`; outside of that
the source stops, and the slice is cut off.
-/
import Mathlib.Data.List.Basic

namespace Kvbm.Lib

open List

variable {α β : Type*} {l l' : List α} {i j k n : Nat}

def slice (l : List α) (i j : Nat) : List α := (l.take j).drop i

theorem length_slice_of_le (hj : j ≤ l.length) : (slice l i j).length = j - i := by
  simp [slice, hj]

theorem getElem?_slice : (slice l i j)[k]? = if i + k < j then l[i + k]? else none := by
  rw [slice, getElem?_drop, getElem?_take]

theorem slice_self : slice l i i = [] := by
  simp [slice]

/-- Two slices side by side are one. -/
theorem slice_append (hij : i ≤ j) (hjk : j ≤ k) (hk : k ≤ l.length) :
    slice l i j ++ slice l j k = slice l i k := by
  refine ext_getElem? fun n => ?_
  rw [getElem?_append, length_slice_of_le (Nat.le_trans hjk hk)]
  simp only [getElem?_slice]
  by_cases hn : n < j - i
  · rw [if_pos hn, if_pos (by omega), if_pos (by omega)]
  · rw [if_neg hn, show j + (n - (j - i)) = i + n by omega]

theorem take_add_eq_append (h : i + j ≤ l.length) :
    l.take (i + j) = l.take i ++ slice l i (i + j) := by
  have := slice_append (Nat.zero_le i) (Nat.le_add_right i j) h
  simpa [slice] using this.symm

theorem take_slice : (slice l i j).take n = slice l i (min (i + n) j) := by
  rw [slice, slice, take_drop, take_take]

theorem drop_slice : (slice l i j).drop n = slice l (i + n) j := by
  rw [slice, slice, drop_drop]

/-- Lists that agree on a range have the same slice of it. -/
theorem slice_congr (h : ∀ k, i ≤ k → k < j → l[k]? = l'[k]?) : slice l i j = slice l' i j := by
  refine ext_getElem? fun n => ?_
  simp only [getElem?_slice]
  split
  · exact h _ (Nat.le_add_right i n) ‹_›
  · rfl

/-- A list and one it begins begin alike. -/
theorem take_eq_of_begins (h : l <+: l') (hn : n ≤ l.length) : l.take n = l'.take n := by
  obtain ⟨t, rfl⟩ := h
  rw [take_append_of_le_length hn]

end Kvbm.Lib
