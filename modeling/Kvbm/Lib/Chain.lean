/-
Linked lists kept inside an arena.

The cells of the list are numbers, and a cell holds the number of the next one.
`Chain next a l` says that starting at `a` and following `next` one meets exactly
the cells of `l`, in that order, and then nothing.  The list `l` is not stored
anywhere: it is what the links mean.  The lemmas here say what the list is after
one link has been written.
-/
import Mathlib.Data.List.Nodup

namespace Kvbm.Lib

/-- Following `next` from `a` meets the cells of `l` in order and then ends. -/
def Chain (next : Nat → Option Nat) : Option Nat → List Nat → Prop
  | a, [] => a = none
  | a, i :: l => a = some i ∧ Chain next (next i) l

variable {next next' : Nat → Option Nat} {a : Option Nat} {l l' : List Nat}

theorem Chain.head_eq (h : Chain next a l) : a = l.head? := by
  cases l with
  | nil => exact h
  | cons i l => exact h.1

theorem Chain.nil_iff (h : Chain next a l) : l = [] ↔ a = none := by
  rw [h.head_eq, List.head?_eq_none_iff]

/-- Links that no cell of the chain holds do not matter to it. -/
theorem Chain.congr (h : Chain next a l) (hn : ∀ i ∈ l, next' i = next i) : Chain next' a l := by
  induction l generalizing a with
  | nil => exact h
  | cons i l ih =>
    refine ⟨h.1, ?_⟩
    rw [hn i (by simp)]
    exact ih h.2 fun j hj => hn j (by simp [hj])

/-- Pointing the cell before `c` past it takes `c` out of the chain. -/
theorem Chain.unlink {l1 l2 : List Nat} {p c : Nat} (h : Chain next a (l1 ++ p :: c :: l2))
    (hnd : (l1 ++ p :: c :: l2).Nodup) (hp : next' p = next c)
    (hn : ∀ i, i ≠ p → next' i = next i) : Chain next' a (l1 ++ p :: l2) := by
  induction l1 generalizing a with
  | nil =>
    have hpl : p ∉ l2 := fun hc => (List.nodup_cons.mp hnd).1 (List.mem_cons_of_mem _ hc)
    refine ⟨h.1, ?_⟩
    rw [hp]
    exact h.2.2.congr fun i hi => hn i fun hc => hpl (hc ▸ hi)
  | cons j l1 ih =>
    have hjp : j ≠ p := by
      rintro rfl
      simp at hnd
    refine ⟨h.1, ?_⟩
    rw [hn j hjp]
    exact ih h.2 (List.nodup_cons.mp hnd).2

end Kvbm.Lib
