/-
Shared objects that tell the world when they go.

An object lives as long as somebody owns a clone of it, and its owners are counted.  With the
last clone the object is dropped, and the drop emits its signals.  The count is right as
long as it is the number of places that hold a clone; then the signals of an object are out
exactly when nobody holds one, and they are out once.
-/
import Mathlib.Data.List.Count
import Mathlib.Data.List.Nodup
import Kvbm.Lib.Table

namespace Kvbm.Lib

open List Option

/-- An object with the number of its clones. -/
structure Shared (κ : Type*) where
  obj : κ
  strong : Nat
  deriving DecidableEq, Repr

variable {κ σ : Type*}

/-- A new object comes with one clone. -/
def mintShared (l : List (Shared κ)) (obj : κ) : List (Shared κ) := l ++ [⟨obj, 1⟩]

def addClone (l : List (Shared κ)) (i : Nat) : List (Shared κ) :=
  l.modify i fun w => { w with strong := w.strong + 1 }

/-- Drop one clone, and the object with its last one. -/
def dropShared (emits : Nat → κ → List σ) (l : List (Shared κ)) (i : Nat) :
    List (Shared κ) × List σ :=
  match l[i]? with
  | none => (l, [])
  | some w =>
    (l.set i { w with strong := w.strong - 1 }, if w.strong = 1 then emits i w.obj else [])

variable {l : List (Shared κ)} {emits : Nat → κ → List σ} {v : Shared κ} {i : Nat}

theorem getElem?_addClone {i j : Nat} {w : Shared κ} (h : (addClone l i)[j]? = some w) :
    ∃ v, l[j]? = some v ∧ w = ⟨v.obj, if i = j then v.strong + 1 else v.strong⟩ := by
  rw [addClone, getElem?_modify] at h
  obtain ⟨v, hv, hw⟩ := map_eq_some_iff.mp h
  refine ⟨v, hv, ?_⟩
  split <;> simp_all

theorem dropShared_fst
    (hv : l[i]? = some v) : (dropShared emits l i).1 = l.set i ⟨v.obj, v.strong - 1⟩ := by
  simp [dropShared, hv]

theorem dropShared_snd (hv : l[i]? = some v) :
    (dropShared emits l i).2 = if v.strong = 1 then emits i v.obj else [] := by
  simp [dropShared, hv]

/-- The objects stay what they are; others may have been added. -/
abbrev Keeps : List (Shared κ) → List (Shared κ) → Prop := Extends fun v w => w.obj = v.obj

instance : Std.Refl fun v w : Shared κ => w.obj = v.obj := ⟨fun _ => rfl⟩

theorem mintShared_keeps {obj : κ} : Keeps l (mintShared l obj) := .concat

theorem addClone_keeps : Keeps l (addClone l i) := by
  intro j v hv
  refine ⟨_, by rw [addClone, getElem?_modify, hv]; rfl, ?_⟩
  split <;> rfl

theorem dropShared_keeps {i : Nat} : Keeps l (dropShared emits l i).1 := by
  unfold dropShared
  split
  · exact .refl l
  · rename_i w hw
    exact .set hw rfl

/-- `holders i` places hold a clone of object `i`, and `log` is what has been emitted. -/
structure Books [BEq σ] (emits : Nat → κ → List σ) (tag : σ → Option Nat)
    (l : List (Shared κ)) (log : List σ) (holders : Nat → Nat) : Prop where
  counted : ∀ i w, l[i]? = some w → w.strong = holders i
  fresh : ∀ i, l.length ≤ i → holders i = 0
  tagged : ∀ i w, l[i]? = some w → (emits i w.obj).Nodup ∧ ∀ e ∈ emits i w.obj, tag e = some i
  fired : ∀ i w, l[i]? = some w → ∀ e ∈ emits i w.obj, log.count e = if holders i = 0 then 1 else 0
  logged : ∀ e ∈ log, ∀ i, tag e = some i → i < l.length

namespace Books

variable [BEq σ] [LawfulBEq σ] {emits : Nat → κ → List σ} {tag : σ → Option Nat}
  {l : List (Shared κ)} {log more : List σ} {holders holders' : Nat → Nat} {i : Nat} {obj : κ}

omit [LawfulBEq σ] in
theorem nil : Books emits tag [] [] fun _ => 0 := ⟨nofun, fun _ _ => rfl, nofun, nofun, nofun⟩

variable (h : Books emits tag l log holders)

include h

omit [LawfulBEq σ] in
theorem lt_of_holds (hi : 0 < holders i) : i < l.length := by
  by_contra hc
  have := h.fresh i (Nat.le_of_not_lt hc)
  omega

/-- Signals of other kinds do not matter. -/
theorem log_other (hm : ∀ e ∈ more, tag e = none) : Books emits tag l (log ++ more) holders where
  counted := h.counted
  fresh := h.fresh
  tagged := h.tagged
  fired i w hw e he := by
    have hnot : e ∉ more := fun hc => by
      have := (h.tagged i w hw).2 e he
      rw [hm e hc] at this
      cases this
    rw [count_append, count_eq_zero.mpr hnot, h.fired i w hw e he, Nat.add_zero]
  logged e he i ht := by
    rcases mem_append.mp he with hl | hl
    · exact h.logged e hl i ht
    · rw [hm e hl] at ht
      cases ht

/-- A new object: its maker holds the clone. -/
theorem mint (htag : (emits l.length obj).Nodup ∧ ∀ e ∈ emits l.length obj, tag e = some l.length)
    (hnew : holders' l.length = 1) (hold : ∀ i, i ≠ l.length → holders' i = holders i) :
    Books emits tag (mintShared l obj) log holders' where
  counted i w hw := by
    rcases getElem?_concat_cases hw with hl | ⟨rfl, rfl⟩
    · rw [hold i (Nat.ne_of_lt (List.getElem?_eq_some_iff.mp hl).1)]
      exact h.counted i w hl
    · exact hnew.symm
  fresh i hi := by
    simp only [mintShared, length_append, length_singleton] at hi
    rw [hold i (by omega)]
    exact h.fresh i (by omega)
  tagged i w hw := by
    rcases getElem?_concat_cases hw with hl | ⟨rfl, rfl⟩
    · exact h.tagged i w hl
    · exact htag
  fired i w hw e he := by
    rcases getElem?_concat_cases hw with hl | ⟨rfl, rfl⟩
    · rw [hold i (Nat.ne_of_lt (List.getElem?_eq_some_iff.mp hl).1)]
      exact h.fired i w hl e he
    rw [hnew, if_neg Nat.one_ne_zero]
    refine count_eq_zero.mpr fun hc => ?_
    exact absurd (h.logged e hc _ (htag.2 e he)) (Nat.lt_irrefl _)
  logged e he i ht := by
    have := h.logged e he i ht
    simp only [mintShared, length_append, length_singleton]
    omega

omit [LawfulBEq σ] in
/-- Another place holds a clone of an object that somebody holds. -/
theorem add (hi : 0 < holders i) (hnew : holders' i = holders i + 1)
    (hold : ∀ j, j ≠ i → holders' j = holders j) : Books emits tag (addClone l i) log holders' where
  counted j w hw := by
    obtain ⟨v, hv, rfl⟩ := getElem?_addClone hw
    have := h.counted j v hv
    by_cases hj : j = i
    · subst hj
      rw [if_pos rfl, hnew, this]
    · rw [if_neg (Ne.symm hj), hold j hj, this]
  fresh j hj := by
    simp only [addClone, length_modify] at hj
    have hlt := h.lt_of_holds hi
    rw [hold j (by omega)]
    exact h.fresh j hj
  tagged j w hw := by
    obtain ⟨v, hv, rfl⟩ := getElem?_addClone hw
    exact h.tagged j v hv
  fired j w hw e he := by
    obtain ⟨v, hv, rfl⟩ := getElem?_addClone hw
    rw [h.fired j v hv e he]
    by_cases hj : j = i
    · subst hj
      rw [if_neg (by omega), if_neg (by omega)]
    · rw [hold j hj]
  logged e he j ht := by
    simp only [addClone, length_modify]
    exact h.logged e he j ht

/-- A place lets go of a clone. -/
theorem drop (hnew : holders' i + 1 = holders i) (hold : ∀ j, j ≠ i → holders' j = holders j) :
    Books emits tag (dropShared emits l i).1 (log ++ (dropShared emits l i).2) holders' := by
  have hlt : i < l.length := h.lt_of_holds (by omega)
  obtain ⟨v, hv⟩ : ∃ v, l[i]? = some v := ⟨_, getElem?_eq_getElem hlt⟩
  have hstrong := h.counted i v hv
  rw [dropShared_fst hv, dropShared_snd hv]
  -- the drop emits when it is the last clone, and then nobody holds the object
  have hlast : v.strong = 1 ↔ holders' i = 0 := by omega
  have hemit : ∀ e ∈ (if v.strong = 1 then emits i v.obj else []), tag e = some i := by
    intro e he
    split at he
    · exact (h.tagged i v hv).2 e he
    · cases he
  refine ⟨?_, ?_, ?_, ?_, ?_⟩
  · intro j w hw
    rcases getElem?_set_cases hv hw with ⟨rfl, rfl⟩ | ⟨hj, hl⟩
    · show v.strong - 1 = holders' j
      omega
    · rw [hold j hj]
      exact h.counted j w hl
  · intro j hj
    rw [length_set] at hj
    rw [hold j (by omega)]
    exact h.fresh j hj
  · intro j w hw
    rcases getElem?_set_cases hv hw with ⟨rfl, rfl⟩ | ⟨-, hl⟩
    · exact h.tagged j v hv
    · exact h.tagged j w hl
  · intro j w hw e he
    rw [count_append]
    rcases getElem?_set_cases hv hw with ⟨rfl, rfl⟩ | ⟨hj, hl⟩
    · have hnodup := (h.tagged j v hv).1
      rw [h.fired j v hv e he, if_neg (by omega)]
      by_cases hz : holders' j = 0
      · rw [if_pos (hlast.mpr hz), if_pos hz, count_eq_one_of_mem hnodup he]
      · rw [if_neg (fun hc => hz (hlast.mp hc)), if_neg hz, count_nil]
    · have hnot : e ∉ (if v.strong = 1 then emits i v.obj else []) := by
        intro hc
        have ht := (h.tagged j w hl).2 e he
        exact hj (some.inj (ht.symm.trans (hemit e hc)))
      rw [h.fired j w hl e he, count_eq_zero.mpr hnot, hold j hj, Nat.add_zero]
  · intro e he j ht
    rw [length_set]
    rcases mem_append.mp he with hl | hl
    · exact h.logged e hl j ht
    · cases ht.symm.trans (hemit e hl)
      exact hlt

end Books

end Kvbm.Lib
