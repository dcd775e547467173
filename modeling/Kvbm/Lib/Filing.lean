/-
Items that are filed by what they are.

Each item has at most one place it belongs to, and for each place there is a structure
that lists the items filed there.  In order means that the structures list exactly the
items that belong to them, except for a few items that have been taken out and are
being worked on.  An operation takes items out, changes them, and files them again; the
rules below are those three moves.
-/
import Mathlib.Data.List.Nodup
import Mathlib.Data.List.Perm.Basic

namespace Kvbm.Lib

open List Option

variable {κ π : Type*}

/-- The lists agree with the places, but for the items in `out`, which are in no list. -/
structure Filed (place : κ → Option π) (lists : κ → π → Prop) (out : List κ) : Prop where
  nodup : out.Nodup
  iff : ∀ k p, lists k p ↔ k ∉ out ∧ place k = some p

namespace Filed

variable {place place' : κ → Option π} {lists lists' : κ → π → Prop} {out out' : List κ}
variable {j k : κ} {p q : π}

section

variable (hf : Filed place lists out)

include hf

theorem place_eq (hk : lists k p) : place k = some p := ((hf.iff k p).mp hk).2

theorem not_out (hk : lists k p) : k ∉ out := ((hf.iff k p).mp hk).1

/-- An item is in one list. -/
theorem unique (hk : lists k p) (hkq : lists k q) : p = q := by
  have h := hf.place_eq hk
  rw [hf.place_eq hkq] at h
  exact (some.inj h).symm

theorem perm (hp : out.Perm out') : Filed place lists out' := by
  refine ⟨hp.nodup_iff.mp hf.nodup, fun k p => ?_⟩
  rw [hf.iff, hp.mem_iff]

/-- Take an item out of its list. -/
theorem unfile (hk : lists k q) (h : ∀ j p, lists' j p ↔ lists j p ∧ ¬(p = q ∧ j = k)) :
    Filed place lists' (k :: out) := by
  refine ⟨nodup_cons.mpr ⟨hf.not_out hk, hf.nodup⟩, fun j p => ?_⟩
  rw [h, hf.iff, mem_cons]
  by_cases hj : j = k
  · subst hj
    refine iff_of_false (fun hc => hc.2 ⟨?_, rfl⟩) fun hc => hc.1 (.inl rfl)
    exact hf.unique ((hf.iff j p).mpr hc.1) hk
  · simp [hj]

/-- An item that belongs nowhere is out as soon as one says so. -/
theorem unfile_none (hk : k ∉ out) (hp : place k = none) : Filed place lists (k :: out) := by
  refine ⟨nodup_cons.mpr ⟨hk, hf.nodup⟩, fun j p => ?_⟩
  rw [hf.iff, mem_cons]
  by_cases hj : j = k
  · subst hj
    simp [hp]
  · simp [hj]

/-- Take several items out. -/
theorem unfile_many {l : List (κ × π)} (hl : ∀ e ∈ l, lists e.1 e.2) (hn : l.Nodup)
    (h : ∀ j p, lists' j p ↔ lists j p ∧ (j, p) ∉ l) :
    Filed place lists' (l.map Prod.fst ++ out) := by
  have hinj : ∀ e ∈ l, ∀ e' ∈ l, e.1 = e'.1 → e = e' := fun e he e' he' hfst =>
    Prod.ext hfst (hf.unique (hl e he) (hfst ▸ hl e' he'))
  refine ⟨?_, fun j p => ?_⟩
  · refine nodup_append'.mpr ⟨hn.map_on hinj, hf.nodup, fun k hk hout => ?_⟩
    obtain ⟨e, he, rfl⟩ := mem_map.mp hk
    exact hf.not_out (hl e he) hout
  · rw [h, hf.iff, mem_append]
    refine ⟨fun ⟨⟨hj, hp⟩, hnot⟩ => ⟨fun hc => ?_, hp⟩, fun ⟨hj, hp⟩ => ⟨⟨?_, hp⟩, fun hc => ?_⟩⟩
    · rcases hc with hc | hc
      · obtain ⟨e, he, rfl⟩ := mem_map.mp hc
        have hpe := hf.place_eq (hl e he)
        rw [hp] at hpe
        exact hnot (some.inj hpe ▸ he)
      · exact hj hc
    · exact fun hc => hj (.inr hc)
    · exact hj (.inl (mem_map.mpr ⟨_, hc, rfl⟩))

/-- Change an item that is out. -/
theorem change (hk : k ∈ out) (h : ∀ j, j ≠ k → place' j = place j) : Filed place' lists out := by
  refine ⟨hf.nodup, fun j p => ?_⟩
  rw [hf.iff]
  by_cases hj : j = k
  · subst hj
    simp [hk]
  · rw [h j hj]

end

variable (hf : Filed place lists (k :: out))

include hf

/-- File an item where it now belongs. -/
theorem file (hp : place k = some q) (h : ∀ j p, lists' j p ↔ lists j p ∨ (p = q ∧ j = k)) :
    Filed place lists' out := by
  obtain ⟨hk, hn⟩ := nodup_cons.mp hf.nodup
  refine ⟨hn, fun j p => ?_⟩
  rw [h, hf.iff, mem_cons]
  by_cases hj : j = k
  · subst hj
    simp [hk, hp, eq_comm]
  · simp [hj]

/-- An item that now belongs nowhere needs no filing. -/
theorem file_none (hp : place k = none) : Filed place lists out := by
  refine ⟨(nodup_cons.mp hf.nodup).2, fun j p => ?_⟩
  rw [hf.iff, mem_cons]
  by_cases hj : j = k
  · subst hj
    simp [hp]
  · simp [hj]

/-- One item takes the place of another. -/
theorem replace (hj : lists j q) (hp : place k = some q)
    (h : ∀ i p, lists' i p ↔ (lists i p ∧ ¬(p = q ∧ i = j)) ∨ (p = q ∧ i = k)) :
    Filed place lists' (j :: out) := by
  have hboth : Filed place (fun i p => lists i p ∧ ¬(p = q ∧ i = j)) (j :: k :: out) :=
    hf.unfile hj fun _ _ => Iff.rfl
  exact (hboth.perm (List.Perm.swap k j out)).file hp h

end Filed

end Kvbm.Lib
