/-
Rows of bytes.

`run a b n` pairs the `n` addresses from `a` on with the `n` addresses from `b` on.  Runs that
continue each other are one run, and so are the rows of a grid whose rows lie end to end.
-/
import Mathlib.Data.List.Range

namespace Kvbm.Lib

open List

variable {a b m n : Nat}

def run (a b n : Nat) : List (Nat × Nat) := (range n).map fun k => (a + k, b + k)

theorem mem_run {p : Nat × Nat} : p ∈ run a b n ↔ ∃ k < n, p = (a + k, b + k) := by
  simp [run, eq_comm]

theorem run_eq_nil : run a b n = [] ↔ n = 0 := by
  simp [run]

theorem run_append : run a b n ++ run (a + n) (b + n) m = run a b (n + m) := by
  simp only [run, range_add, map_append, map_map]
  congr 1
  refine map_congr_left fun k _ => ?_
  simp [Nat.add_assoc]

/-- `n` rows of `m` bytes each, end to end. -/
theorem flatMap_run_rows :
    ((range n).flatMap fun v => run (a + m * v) (b + m * v) m) = run a b (m * n) := by
  induction n with
  | zero => simp [run]
  | succ n ih =>
    rw [range_succ, flatMap_append, ih, flatMap_singleton, run_append]
    congr 1

end Kvbm.Lib
