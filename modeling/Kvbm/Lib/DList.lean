/-
Doubly linked lists kept inside an arena.

Every cell of the list holds the number of the cell before it and of the cell
behind it, and a cell that is not in the list holds nothing.  `Linked` says what
the links mean: they are the neighbours each cell has in one list `l`.  Writing a
cell at the end and taking a cell out of the middle are the two operations, and
each is a few writes of links; the lemmas say that the list follows.
-/
import Mathlib.Data.List.Nodup

namespace Kvbm.Lib

open List Option

/-- The two links of a cell. -/
structure Link where
  prev : Option Nat
  next : Option Nat
  deriving DecidableEq, Repr

/-- The links are the neighbours of each cell of `l`, and no other cell has links. -/
structure Linked (links : Nat → Option Link) (head tail : Option Nat) (l : List Nat) : Prop where
  nodup : l.Nodup
  headEq : head = l.head?
  tailEq : tail = l.getLast?
  outside : ∀ i, i ∉ l → links i = none
  inside : ∀ l1 i l2, l = l1 ++ i :: l2 → links i = some ⟨l1.getLast?, l2.head?⟩

variable {links links' : Nat → Option Link} {head tail : Option Nat} {l : List Nat} {i : Nat}

theorem Linked.empty : Linked (fun _ => none) none none [] where
  nodup := nodup_nil
  headEq := rfl
  tailEq := rfl
  outside := fun _ _ => rfl
  inside := by simp

theorem Linked.mem_iff (h : Linked links head tail l) : i ∈ l ↔ links i ≠ none := by
  constructor
  · intro hi
    obtain ⟨l1, l2, hl⟩ := append_of_mem hi
    simp [h.inside l1 i l2 hl]
  · intro hi
    by_contra hc
    exact hi (h.outside i hc)

/-- It is enough to give the links along one way of writing each cell's place. -/
theorem Linked.mk' (hnd : l.Nodup) (hhead : head = l.head?) (htail : tail = l.getLast?)
    (hout : ∀ i, i ∉ l → links i = none)
    (hin : ∀ i ∈ l, ∃ l1 l2, l = l1 ++ i :: l2 ∧ links i = some ⟨l1.getLast?, l2.head?⟩) :
    Linked links head tail l where
  nodup := hnd
  headEq := hhead
  tailEq := htail
  outside := hout
  inside := by
    intro l1 i l2 hl
    obtain ⟨l3, l4, hl', hlink⟩ := hin i (hl ▸ by simp)
    have hcell : i ∉ l1 ∧ i ∉ l2 := by
      rw [hl, nodup_middle, nodup_cons, mem_append, not_or] at hnd
      exact hnd.1
    obtain ⟨rfl, -, rfl⟩ := (append_cons_inj_of_notMem hcell.1 hcell.2).mp (hl ▸ hl')
    exact hlink

theorem getLast?_ne_of_nodup {l1 l2 : List Nat} {k : Nat} (h : (l1 ++ i :: k :: l2).Nodup) :
    (l1 ++ i :: k :: l2).getLast? ≠ some i := by
  intro hc
  have hi : i ∈ k :: l2 := by
    apply mem_of_getLast?
    simpa [getLast?_append] using hc
  rw [nodup_middle, nodup_cons] at h
  exact h.1 (mem_append_right _ hi)

/-- Hanging a new cell behind the last one appends it to the list. -/
theorem Linked.push (h : Linked links head tail l) (hi : i ∉ l)
    (hself : links' i = some ⟨tail, none⟩)
    (hlast : ∀ t, tail = some t → links' t = (links t).map fun k => { k with next := some i })
    (hrest : ∀ j, j ≠ i → tail ≠ some j → links' j = links j) :
    Linked links' (tail.elim (some i) fun _ => head) (some i) (l ++ [i]) := by
  refine Linked.mk' ?_ ?_ (by simp) ?_ ?_
  · rw [nodup_append_comm]
    exact nodup_cons.mpr ⟨hi, h.nodup⟩
  · rw [h.headEq, h.tailEq]
    cases l <;> simp [getLast?_cons]
  · intro j hj
    simp only [mem_append, mem_singleton, not_or] at hj
    have hjt : tail ≠ some j := by
      rw [h.tailEq]
      exact fun hc => hj.1 (mem_of_getLast? hc)
    rw [hrest j hj.2 hjt]
    exact h.outside j hj.1
  · intro j hj
    rcases mem_append.mp hj with hjl | hji
    · obtain ⟨l1, l2, rfl⟩ := append_of_mem hjl
      refine ⟨l1, l2 ++ [i], by simp, ?_⟩
      have hji : j ≠ i := fun hc => hi (hc ▸ hjl)
      -- only the last cell of the old list has its link written
      cases l2 with
      | nil =>
        rw [hlast j (by simp [h.tailEq]), h.inside l1 j [] rfl]
        rfl
      | cons k l2 =>
        have hjt : tail ≠ some j := h.tailEq ▸ getLast?_ne_of_nodup h.nodup
        rw [hrest j hji hjt, h.inside l1 j (k :: l2) rfl]
        rfl
    · rw [mem_singleton.mp hji]
      exact ⟨l, [], rfl, by rw [hself, h.tailEq]; rfl⟩

/-- Pointing the two neighbours of a cell past it takes it out of the list. -/
theorem Linked.unlink {l1 l2 : List Nat} {head' tail' : Option Nat}
    (h : Linked links head tail (l1 ++ i :: l2)) (hself : links' i = none)
    (hprev : ∀ p, l1.getLast? = some p →
      links' p = (links p).map fun k => { k with next := l2.head? })
    (hnext : ∀ n, l2.head? = some n →
      links' n = (links n).map fun k => { k with prev := l1.getLast? })
    (hrest : ∀ j, j ≠ i → l1.getLast? ≠ some j → l2.head? ≠ some j → links' j = links j)
    (hhead : head' = (l1 ++ l2).head?) (htail : tail' = (l1 ++ l2).getLast?) :
    Linked links' head' tail' (l1 ++ l2) := by
  have hnd := h.nodup
  rw [nodup_middle, nodup_cons] at hnd
  obtain ⟨hi, hnd⟩ := hnd
  have hdis := disjoint_of_nodup_append hnd
  refine Linked.mk' hnd hhead htail ?_ ?_
  · intro j hj
    by_cases hji : j = i
    · rw [hji]; exact hself
    have hj1 : l1.getLast? ≠ some j := fun hc =>
      hj (mem_append_left _ (mem_of_getLast? hc))
    have hj2 : l2.head? ≠ some j := fun hc =>
      hj (mem_append_right _ (mem_of_head? hc))
    rw [hrest j hji hj1 hj2]
    refine h.outside j ?_
    simp only [mem_append, mem_cons, not_or] at hj ⊢
    exact ⟨hj.1, hji, hj.2⟩
  · intro j hj
    have hji : j ≠ i := fun hc => hi (hc ▸ hj)
    rcases mem_append.mp hj with hj1 | hj2
    · obtain ⟨a, b, rfl⟩ := append_of_mem hj1
      refine ⟨a, b ++ l2, by simp, ?_⟩
      cases b with
      | nil =>
        rw [hprev j (by simp), h.inside a j (i :: l2) (by simp)]
        rfl
      | cons k b =>
        have hjl : (a ++ j :: k :: b).getLast? ≠ some j :=
          getLast?_ne_of_nodup (nodup_append.mp hnd).1
        have hjh : l2.head? ≠ some j := fun hc => hdis hj1 (mem_of_head? hc)
        rw [hrest j hji hjl hjh, h.inside a j (k :: b ++ i :: l2) (by simp)]
        rfl
    · obtain ⟨a, b, rfl⟩ := append_of_mem hj2
      refine ⟨l1 ++ a, b, by simp, ?_⟩
      cases a with
      | nil =>
        rw [hnext j (by simp), h.inside (l1 ++ [i]) j b (by simp)]
        simp
      | cons k a =>
        have hjl : l1.getLast? ≠ some j := fun hc => hdis (mem_of_getLast? hc) hj2
        have hjh : (k :: a ++ j :: b).head? ≠ some j := by
          simp only [cons_append, head?_cons, ne_eq, some.injEq]
          rintro rfl
          have hnb := (nodup_append.mp hnd).2.1
          simp at hnb
        rw [hrest j hji hjl hjh, h.inside (l1 ++ i :: k :: a) j b (by simp)]
        simp [getLast?_append]

end Kvbm.Lib
