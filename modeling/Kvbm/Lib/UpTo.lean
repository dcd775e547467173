/-
Lists of items that are numbered upwards.

The items up to some number are a first part of the list, and the item with the next number, if
there is one, comes right after them.
-/
import Mathlib.Data.List.Basic
import Mathlib.Order.Nat

namespace Kvbm.Lib

open List

variable {α : Type*} {f : α → Nat} {l : List α} {a : α} {n : Nat}

/-- The items numbered up to `n`. -/
def upTo (f : α → Nat) (n : Nat) (l : List α) : List α := l.filter fun a => f a ≤ n

theorem upTo_of_lt (h : ∀ a ∈ l, n < f a) : upTo f n l = [] := by
  refine filter_eq_nil_iff.mpr fun a ha => ?_
  simpa using h a ha

theorem upTo_of_le (h : ∀ a ∈ l, f a ≤ n) : upTo f n l = l := by
  refine filter_eq_self.mpr fun a ha => ?_
  simpa using h a ha

theorem upTo_append {l' : List α} : upTo f n (l ++ l') = upTo f n l ++ upTo f n l' :=
  filter_append ..

theorem upTo_cons : upTo f n (a :: l) = if f a ≤ n then a :: upTo f n l else upTo f n l := by
  simp [upTo, filter_cons]

theorem upTo_rest (h : l.Pairwise (f · < f ·)) : ∃ rest, l = upTo f n l ++ rest := by
  induction l with
  | nil => exact ⟨[], rfl⟩
  | cons a l ih =>
    obtain ⟨ha, hl⟩ := pairwise_cons.mp h
    rw [upTo_cons]
    by_cases hn : f a ≤ n
    · obtain ⟨rest, hrest⟩ := ih hl
      refine ⟨rest, ?_⟩
      rw [if_pos hn, cons_append, ← hrest]
    · -- everything after `a` is numbered higher still
      refine ⟨a :: l, ?_⟩
      rw [if_neg hn, upTo_of_lt fun b hb => (not_le.mp hn).trans (ha b hb), nil_append]

theorem upTo_succ (h : l.Pairwise (f · < f ·)) (ha : a ∈ l) (hn : f a = n + 1) :
    upTo f (n + 1) l = upTo f n l ++ [a] := by
  obtain ⟨before, after, rfl⟩ := append_of_mem ha
  obtain ⟨-, hafter, hbefore⟩ := pairwise_append.mp h
  have hlow : ∀ b ∈ before, f b ≤ n := by
    intro b hb
    have := hbefore b hb a (by simp)
    omega
  have hhigh : ∀ b ∈ after, n + 1 < f b := by
    intro b hb
    have := (pairwise_cons.mp hafter).1 b hb
    omega
  rw [upTo_append, upTo_append, upTo_cons, upTo_cons, if_pos (Nat.le_of_eq hn), if_neg (by omega),
    upTo_of_lt hhigh, upTo_of_lt fun b hb => Nat.lt_of_succ_lt (hhigh b hb), upTo_of_le hlow,
    upTo_of_le fun b hb => (hlow b hb).trans (Nat.le_succ n), append_nil]

end Kvbm.Lib
