/-
A dense vector with a back index.

A set of numbers is kept as a vector without gaps, so that a member can be drawn
by its place, and each member remembers its place, so that it can be taken out in
constant time: the last member moves into the gap and has its place corrected.
`Dense` says that the places the members remember are the places they have.
-/
import Mathlib.Data.List.Nodup
import Kvbm.Lib.Table

namespace Kvbm.Lib

open List Option

/-- `Vec::swap_remove`: the last member has moved to place `k`. -/
def swapRemove {α : Type*} (l : List α) (k : Nat) : List α :=
  match l.getLast? with
  | none => []
  | some last => (l.set k last).dropLast

/-- `place` is where each member of `l` stands, and nothing else has a place. -/
def Dense (l : List Nat) (place : Nat → Option Nat) : Prop :=
  ∀ i k, place i = some k ↔ l[k]? = some i

variable {l : List Nat} {place place' : Nat → Option Nat} {i k : Nat}

theorem Dense.empty : Dense [] fun _ => none := by
  intro i k
  simp

variable (h : Dense l place)

include h

theorem Dense.mem_iff : i ∈ l ↔ place i ≠ none := by
  rw [mem_iff_getElem?, ne_none_iff_exists']
  exact exists_congr fun k => (h i k).symm

theorem Dense.lt (hk : place i = some k) : k < l.length := by
  have hl := (h i k).mp hk
  exact (List.getElem?_eq_some_iff.mp hl).1

theorem Dense.push (hi : place i = none) (hself : place' i = some l.length)
    (hrest : ∀ j, j ≠ i → place' j = place j) : Dense (l ++ [i]) place' := by
  intro j k
  constructor
  · intro hk
    by_cases hji : j = i
    · subst hji
      cases hself.symm.trans hk
      exact getElem?_concat_length
    · rw [hrest j hji] at hk
      exact getElem?_concat_of ((h j k).mp hk)
  · intro hk
    rcases getElem?_concat_cases hk with hl | ⟨rfl, rfl⟩
    · have hj := (h j k).mpr hl
      rw [hrest j (fun hc => by simp [← hc, hj] at hi), hj]
    · exact hself

omit h in
theorem swapRemove_eq {last : Nat} (hlast : l.getLast? = some last) :
    swapRemove l k = (l.set k last).dropLast := by
  unfold swapRemove
  rw [hlast]

omit h in
/-- What stands where once the last member has moved to place `k`. -/
theorem getElem?_swapRemove {last m : Nat} (hlast : l.getLast? = some last) (hk : k < l.length) :
    (swapRemove l k)[m]? =
      if m < l.length - 1 then (if k = m then some last else l[m]?) else none := by
  rw [swapRemove_eq hlast, getElem?_dropLast, length_set]
  split
  · rw [getElem?_set]
    simp [hk]
  · rfl

theorem Dense.exists_last (hk : place i = some k) :
    ∃ last, l.getLast? = some last ∧ place last = some (l.length - 1) := by
  have hlt := h.lt hk
  obtain ⟨last, hlast⟩ : ∃ last, l.getLast? = some last := by
    refine ne_none_iff_exists'.mp fun hc => ?_
    rw [getLast?_eq_none_iff.mp hc] at hlt
    cases hlt
  exact ⟨last, hlast, by rw [h, ← hlast, getLast?_eq_getElem?]⟩

theorem Dense.unique {m : Nat} (hk : l[k]? = some i) (hm : l[m]? = some i) : k = m :=
  some.inj (((h i k).mpr hk).symm.trans ((h i m).mpr hm))

theorem Dense.nodup : l.Nodup := by
  refine nodup_iff_getElem?_ne_getElem?.mpr fun k m hkm hm heq => ?_
  have := h.unique (heq.trans (getElem?_eq_getElem hm)) (getElem?_eq_getElem hm)
  omega

/-- **Taking a member out leaves the places right**: its own is cleared, and the last
member's is the gap. -/
theorem Dense.swapRemove {last : Nat} (hk : place i = some k) (hlast : l.getLast? = some last)
    (hplace : ∀ j, place' j = if j = i then none else if j = last then some k else place j) :
    Dense (swapRemove l k) place' := by
  have hlt := h.lt hk
  have hik := (h i k).mp hk
  have hend : l[l.length - 1]? = some last := by rw [← getLast?_eq_getElem?, hlast]
  intro j m
  rw [hplace j, getElem?_swapRemove hlast hlt]
  by_cases hji : j = i
  · -- the member taken out has no place, and no place holds it
    subst hji
    rw [if_pos rfl]
    refine ⟨nofun, fun hc => ?_⟩
    split_ifs at hc with hm hkm
    · cases hc
      have := h.unique hik hend
      omega
    · exact absurd (h.unique hik hc) hkm
  · rw [if_neg hji]
    by_cases hjl : j = last
    · subst hjl
      rw [if_pos rfl]
      have hkl : k ≠ l.length - 1 := by
        rintro rfl
        exact hji (some.inj (hend.symm.trans hik))
      constructor
      · intro hc
        cases hc
        rw [if_pos (by omega), if_pos rfl]
      · intro hc
        split_ifs at hc with hm hkm
        · rw [hkm]
        · have := h.unique hc hend
          omega
    · rw [if_neg hjl, h j m]
      constructor
      · intro hc
        have hm := (List.getElem?_eq_some_iff.mp hc).1
        have hml : m ≠ l.length - 1 := by
          rintro rfl
          exact hjl (some.inj (hc.symm.trans hend))
        have hkm : k ≠ m := by
          rintro rfl
          exact hji (some.inj (hc.symm.trans hik))
        rw [if_pos (by omega), if_neg hkm, hc]
      · intro hc
        split_ifs at hc
        · exact absurd (some.inj hc).symm hjl
        · exact hc

end Kvbm.Lib
