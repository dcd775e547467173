/-
Finite maps with values of one type.

The maps are Mathlib's finite maps.  What is added is how to keep only some of the entries, and
what a lookup gives after each change, for any key at once.
-/
import Mathlib.Data.Finmap

namespace Kvbm.Lib

abbrev Keyed (κ β : Type*) := Finmap fun _ : κ => β

namespace Keyed

variable {κ β : Type*} [DecidableEq κ] {m : Keyed κ β} {k j : κ} {v : β}

omit [DecidableEq κ] in
def len (m : Keyed κ β) : Nat := m.keys.card

/-- Keep the entries that satisfy `p`. -/
def retain (p : κ → β → Bool) (m : Keyed κ β) : Keyed κ β :=
  Finmap.keysLookupEquiv.symm
    ⟨(m.keys.filter fun k => (m.lookup k).any (p k), fun k => (m.lookup k).filter (p k)), by
      intro k
      cases hk : m.lookup k with
      | none => simp [hk]
      | some v => simp [hk, Finmap.mem_keys, Finmap.mem_of_lookup_eq_some hk, Option.filter]⟩

theorem lookup_insert : (m.insert k v).lookup j = if j = k then some v else m.lookup j := by
  split_ifs with h
  · subst h
    exact Finmap.lookup_insert m
  · exact Finmap.lookup_insert_of_ne m h

theorem lookup_erase : (m.erase k).lookup j = if j = k then none else m.lookup j := by
  split_ifs with h
  · subst h
    exact Finmap.lookup_erase j m
  · exact Finmap.lookup_erase_ne h

theorem mem_keys : k ∈ m.keys ↔ (m.lookup k).isSome := by
  rw [Finmap.mem_keys, Finmap.lookup_isSome]

end Keyed

end Kvbm.Lib
