/-
An agenda: what falls due at which time.

The times are in order, and each has the things that fall due then.  A time with nothing left is
dropped.  The agenda mirrors a function that says when each thing falls due if it lists everything
under its time and nothing else.
-/
import Kvbm.Lib.OrdMap

namespace Kvbm.Lib

open Function List Option

abbrev Agenda (ι : Type*) := List (Nat × List ι)

namespace Agenda

variable {ι : Type*} [DecidableEq ι]

def put (a : Agenda ι) (time : Nat) (i : ι) : Agenda ι :=
  ordInsert time (((ordGet time a).getD []).insert i) a

def strike (a : Agenda ι) (time : Nat) (i : ι) : Agenda ι :=
  match ordGet time a with
  | none => a
  | some l => if (l.erase i).isEmpty then ordRemove time a else ordSet time (l.erase i) a

/-- The agenda lists `i` under `time` exactly if it falls due then. -/
structure Mirrors (a : Agenda ι) (due : ι → Option Nat) : Prop where
  ordered : OrdKeys a
  distinct : ∀ time l, ordGet time a = some l → l ≠ [] ∧ l.Nodup
  listed : ∀ time i, (∃ l, ordGet time a = some l ∧ i ∈ l) ↔ due i = some time

variable {a : Agenda ι} {due : ι → Option Nat} {time : Nat} {i : ι}

omit [DecidableEq ι] in
theorem mirrors_nil : Mirrors ([] : Agenda ι) fun _ => none := by
  refine ⟨List.Pairwise.nil, ?_, ?_⟩
  · intro time l h
    cases h
  · intro time i
    simp [ordGet]

omit [DecidableEq ι] in
theorem Mirrors.congr (h : Mirrors a due) {due' : ι → Option Nat} (hdue : ∀ i, due' i = due i) :
    Mirrors a due' := by
  rw [show due' = due from funext hdue]
  exact h

theorem Mirrors.put (h : Mirrors a due) (time : Nat) (i : ι) (hi : due i = none) :
    Mirrors (a.put time i) (update due i (some time)) := by
  have hget : ∀ t, ordGet t (a.put time i) =
      if t = time then some (((ordGet time a).getD []).insert i) else ordGet t a :=
    fun t => ordGet_ordInsert
  have hnodup : ((ordGet time a).getD []).Nodup := by
    cases hl : ordGet time a with
    | none => exact nodup_nil
    | some l => exact (h.distinct time l hl).2
  refine ⟨h.ordered.insert, ?_, ?_⟩
  · intro t l hl
    rw [hget] at hl
    split_ifs at hl with ht
    · obtain rfl := some.inj hl
      exact ⟨ne_nil_of_mem mem_insert_self, hnodup.insert⟩
    · exact h.distinct t l hl
  · intro t j
    rw [hget]
    have hold : (∃ l, ordGet t a = some l ∧ j ∈ l) ↔ due j = some t := h.listed t j
    by_cases ht : t = time
    · subst ht
      rw [if_pos rfl]
      by_cases hj : j = i
      · subst hj
        simp
      · rw [update_of_ne hj, ← hold]
        cases hl : ordGet t a <;> simp [hj]
    · rw [if_neg ht, hold]
      by_cases hj : j = i
      · subst hj
        simp [hi, Ne.symm ht]
      · rw [update_of_ne hj]

/-- Striking what is listed, or what is not listed at all. -/
theorem Mirrors.strike (h : Mirrors a due) (time : Nat) (i : ι)
    (hi : due i = some time ∨ due i = none) : Mirrors (a.strike time i) (update due i none) := by
  cases hl : ordGet time a with
  | none =>
    have hnone : due i = none := by
      refine hi.resolve_left fun hdue => ?_
      obtain ⟨l, hl', -⟩ := (h.listed time i).mpr hdue
      rw [hl] at hl'
      cases hl'
    rw [Agenda.strike, hl, ← hnone, update_eq_self]
    exact h
  | some l =>
    obtain ⟨-, hnodup⟩ := h.distinct time l hl
    have hstrike : a.strike time i =
        if (l.erase i).isEmpty then ordRemove time a else ordSet time (l.erase i) a := by
      rw [Agenda.strike, hl]
    have hget : ∀ t, ordGet t (a.strike time i) =
        if t = time then (if (l.erase i).isEmpty then none else some (l.erase i))
        else ordGet t a := by
      intro t
      rw [hstrike]
      by_cases hempty : (l.erase i).isEmpty
      · rw [if_pos hempty, if_pos hempty, ordGet_ordRemove]
      · rw [if_neg hempty, if_neg hempty, ordGet_ordSet, hl, map_some]
    refine ⟨?_, ?_, ?_⟩
    · rw [hstrike]
      split_ifs
      · exact h.ordered.remove
      · exact h.ordered.set
    · intro t m hm
      rw [hget] at hm
      split_ifs at hm with ht hempty
      · obtain rfl := some.inj hm
        exact ⟨by simpa using hempty, hnodup.erase i⟩
      · exact h.distinct t m hm
    · intro t j
      rw [hget]
      by_cases hj : j = i
      · subst hj
        rw [update_self]
        simp only [reduceCtorEq, iff_false]
        intro ⟨m, hm, hmem⟩
        split_ifs at hm with ht hempty
        · obtain rfl := some.inj hm
          exact (hnodup.mem_erase_iff.mp hmem).1 rfl
        have hdue := (h.listed t j).mp ⟨m, hm, hmem⟩
        rcases hi with hi | hi
        · exact ht (some.inj (hdue.symm.trans hi))
        · rw [hi] at hdue
          cases hdue
      · rw [update_of_ne hj, ← h.listed t j]
        by_cases ht : t = time
        · subst ht
          rw [if_pos rfl, hl]
          by_cases hempty : (l.erase i).isEmpty
          · have hnotin : j ∉ l := fun hmem => by
              have := (hnodup.mem_erase_iff (b := i)).mpr ⟨hj, hmem⟩
              rw [isEmpty_iff.mp hempty] at this
              cases this
            simp [hempty, hnotin]
          · simp [hempty, hnodup.mem_erase_iff, hj]
        · rw [if_neg ht]

theorem length_strike_le : (a.strike time i).length ≤ a.length := by
  unfold Agenda.strike
  split
  · exact le_rfl
  split_ifs
  · exact length_filter_le _ _
  · rw [ordSet, length_map]

/-- The first time is taken off. -/
theorem Mirrors.pop {l : List ι} (h : Mirrors ((time, l) :: a) due) :
    Mirrors a fun i => if i ∈ l then none else due i := by
  have hget : ∀ t, ordGet t a = if t = time then none else ordGet t ((time, l) :: a) :=
    fun t => h.ordered.get_tail
  have hfirst : ordGet time ((time, l) :: a) = some l := by rw [ordGet_cons, if_pos rfl]
  refine ⟨(pairwise_cons.mp h.ordered).2, ?_, ?_⟩
  · intro t m hm
    rw [hget] at hm
    split_ifs at hm
    exact h.distinct t m hm
  · intro t j
    rw [hget]
    by_cases hj : j ∈ l
    · have hdue : due j = some time := (h.listed time j).mp ⟨l, hfirst, hj⟩
      rw [if_pos hj]
      by_cases ht : t = time
      · simp [ht]
      · rw [if_neg ht, h.listed t j, hdue]
        simp [Ne.symm ht]
    · rw [if_neg hj, ← h.listed t j]
      by_cases ht : t = time
      · subst ht
        rw [hfirst]
        simp [hj]
      · rw [if_neg ht]

omit [DecidableEq ι] in
/-- If the first time is after `now`, nothing is due by then. -/
theorem Mirrors.lt_of_first {l : List ι} {now : Nat} (h : Mirrors ((time, l) :: a) due)
    (hnow : now < time) {t : Nat} (hi : due i = some t) : now < t := by
  obtain ⟨m, hm, -⟩ := (h.listed t i).mpr hi
  rcases mem_cons.mp ((ordGet_eq_some h.ordered).mp hm) with heq | hmem
  · exact (Prod.mk.inj heq).1 ▸ hnow
  · exact hnow.trans ((pairwise_cons.mp h.ordered).1 _ hmem)

end Agenda

end Kvbm.Lib
