/-
The retired generations and what is kept beside them.

The counters are the numbers of the owners' records, and of those that were made without an
advertisement to retire.  Retiring a generation raises the mark of its identity and touches no
other; only time and the end of a lifecycle take a mark away.
-/
import Kvbm.Hub.Bundle.Generation

namespace Kvbm.Hub.Bundle

open Lib Listed RetiredGeneration

namespace RetiredGenerations

variable {H : Type} [DecidableEq H]

def isAbsent (_ : Identity H) (retired : RetiredGeneration) : Bool := retired.source = .absent

/-- The counters say exactly what is stored. -/
structure Exact (r : RetiredGenerations H) : Prop where
  owners : Tallies r.ownerCounts (countBy Prod.snd (fun _ _ => true) r.entries)
  absents : Tallies r.absentCounts (countBy Prod.snd isAbsent r.entries)
  absentTotal : r.absentLen = count isAbsent r.entries

variable {r r' : RetiredGenerations H} {i : Identity H} {key : BundleKey H} {owner : InstanceId}
  {m : RetiredGeneration}

omit [DecidableEq H] in
theorem exact_new {a b c d e : Nat} : (new a b c d e : RetiredGenerations H).Exact :=
  ⟨tallies_empty, tallies_empty, rfl⟩

/-! ### Dropping records -/

/-- Dropping a record keeps the counters exact. -/
theorem drops_drop : Drops (fun r : RetiredGenerations H => r.entries.lookup) Prod.fst
    (fun e m => m.source = e.2) drop Exact := by
  intro r e m hr hm hsource
  have howners := hr.owners.erase hm
  have habsents := hr.absents.erase hm
  have htotal := count_erase (p := isAbsent) hm
  by_cases habsent : e.2 = .absent
  · have hq : isAbsent e.1 m = true := by simp [isAbsent, hsource, habsent]
    have hdrop : r.drop e = { r with
        entries := r.entries.erase e.1
        ownerCounts := decrement r.ownerCounts e.1.2
        absentLen := r.absentLen - 1
        absentCounts := decrement r.absentCounts e.1.2 } := by
      simp only [drop, if_pos habsent, decrementAbsent]
    rw [hq, if_pos rfl] at habsents
    rw [hq, one, if_pos rfl] at htotal
    rw [hdrop]
    refine ⟨⟨howners, habsents, ?_⟩, fun j => lookup_erase⟩
    show r.absentLen - 1 = count isAbsent (r.entries.erase e.1)
    rw [hr.absentTotal, ← htotal, Nat.add_sub_cancel]
  · have hq : isAbsent e.1 m = false := by simp [isAbsent, hsource, habsent]
    have hdrop : r.drop e = { r with
        entries := r.entries.erase e.1
        ownerCounts := decrement r.ownerCounts e.1.2 } := by
      simp only [drop, if_neg habsent]
    rw [hq, if_neg Bool.false_ne_true] at habsents
    rw [hq, one, if_neg Bool.false_ne_true, Nat.add_zero] at htotal
    rw [hdrop]
    exact ⟨⟨howners, habsents, hr.absentTotal.trans htotal.symm⟩, fun j => lookup_erase⟩

section

variable (h : r.Exact)

include h

/-- Dropping the records that satisfy `p` leaves the others. -/
theorem Exact.dropSelected (p : Identity H → RetiredGeneration → Bool) :
    ((r.select p).foldl drop r).Exact ∧
      ∀ j, ((r.select p).foldl drop r).entries.lookup j =
        (r.entries.lookup j).filter fun m => !p j m := by
  have hkeys : (r.select p).map Prod.fst =
      (r.entries.entries.filter fun e => p e.1 e.2).map Sigma.fst := by
    rw [select, List.map_map]
    rfl
  have hnodup : ((r.select p).map Prod.fst).Nodup := by
    have hall : (r.entries.entries.map Sigma.fst).Nodup := r.entries.nodupKeys
    rw [hkeys]
    exact List.Nodup.sublist (List.filter_sublist.map _) hall
  have hmem : ∀ j, j ∈ (r.select p).map Prod.fst ↔
      ∃ m, r.entries.lookup j = some m ∧ p j m = true := by
    intro j
    rw [hkeys, List.mem_map]
    constructor
    · intro ⟨e, he, hj⟩
      obtain ⟨hentry, hp⟩ := List.mem_filter.mp he
      subst hj
      exact ⟨e.2, mem_entries.mp hentry, hp⟩
    · intro ⟨m, hm, hp⟩
      exact ⟨⟨j, m⟩, List.mem_filter.mpr ⟨mem_entries.mpr hm, hp⟩, rfl⟩
  have hfits : ∀ e ∈ r.select p, ∃ m, r.entries.lookup e.1 = some m ∧ m.source = e.2 := by
    intro e he
    obtain ⟨x, hx, rfl⟩ := List.mem_map.mp he
    exact ⟨x.2, mem_entries.mp (List.mem_filter.mp hx).1, rfl⟩
  obtain ⟨hexact, hlook⟩ := drops_drop.foldl h hnodup hfits
  refine ⟨hexact, fun j => (hlook j).trans ?_⟩
  cases hj : r.entries.lookup j with
  | none => exact ite_self _
  | some m =>
    rw [Option.filter_some]
    by_cases hp : p j m = true
    · rw [if_pos ((hmem j).mpr ⟨m, hj, hp⟩), if_neg (by simp [hp])]
    rw [if_neg, if_pos (by simpa using hp)]
    intro hin
    obtain ⟨u, hu, hpu⟩ := (hmem j).mp hin
    rw [hj] at hu
    exact hp (Option.some.inj hu ▸ hpu)

/-- **Pruning** leaves exactly the records that are still to be kept. -/
theorem Exact.prune (now : Nat) :
    (r.prune now).Exact ∧
      ∀ j, (r.prune now).entries.lookup j =
        (r.entries.lookup j).filter fun m => decide (now < m.retainUntilUnixMs) := by
  obtain ⟨hexact, hlook⟩ := h.dropSelected fun _ m => decide (m.retainUntilUnixMs ≤ now)
  refine ⟨hexact, fun j => (hlook j).trans ?_⟩
  congr 1
  funext m
  rw [← decide_not]
  exact decide_eq_decide.mpr not_le

theorem Exact.removeOwner (owner : InstanceId) :
    (r.removeOwner owner).2.Exact ∧
      ∀ j, (r.removeOwner owner).2.entries.lookup j =
        if j.2 = owner then none else r.entries.lookup j := by
  obtain ⟨hexact, hlook⟩ := h.dropSelected fun i _ => decide (i.2 = owner)
  refine ⟨hexact, fun j => (hlook j).trans ?_⟩
  cases r.entries.lookup j with
  | none => exact (ite_self _).symm
  | some =>
    by_cases hj : j.2 = owner
    · simp [hj]
    · simp [hj]

/-! ### Retiring a generation -/

theorem Exact.insertNew (hnew : r.entries.lookup i = none) :
    ({ r with
      entries := r.entries.insert i m
      ownerCounts := bump r.ownerCounts i.2
      absentCounts := if isAbsent i m then bump r.absentCounts i.2 else r.absentCounts
      absentLen := r.absentLen + one (isAbsent i m) } : RetiredGenerations H).Exact := by
  refine ⟨h.owners.insertNew hnew, h.absents.insertNew hnew, ?_⟩
  rw [count_insert_new hnew, h.absentTotal]

/-- A record gives way to one that counts as it did. -/
theorem Exact.replace {old : RetiredGeneration} (hold : r.entries.lookup i = some old)
    (hsame : isAbsent i m = isAbsent i old) :
    ({ r with entries := r.entries.insert i m } : RetiredGenerations H).Exact := by
  have habsents := h.absents.replace hold (v := m) fun hm => hsame ▸ hm
  have htotal := count_replace (p := isAbsent) (v := m) hold
  rw [hsame, Bool.and_not_self, if_neg Bool.false_ne_true] at habsents
  refine ⟨h.owners.replace hold id, habsents, h.absentTotal.trans ?_⟩
  rw [hsame] at htotal
  exact (Nat.add_right_cancel htotal).symm

/-- A record that was made without an advertisement gives way to one made with it. -/
theorem Exact.upgrade {old : RetiredGeneration} (hold : r.entries.lookup i = some old)
    (habsent : isAbsent i old = true) (hlive : isAbsent i m = false) :
    ({ r with entries := r.entries.insert i m } : RetiredGenerations H).decrementAbsent i.2 |>.Exact
    := by
  have habsents := h.absents.replace hold (v := m) fun _ => habsent
  have htotal := count_replace (p := isAbsent) (v := m) hold
  rw [habsent, hlive] at habsents htotal
  refine ⟨h.owners.replace hold id, habsents, ?_⟩
  have hone : count isAbsent (r.entries.insert i m) + 1 = count isAbsent r.entries := htotal
  show r.absentLen - 1 = count isAbsent (r.entries.insert i m)
  rw [h.absentTotal, ← hone, Nat.add_sub_cancel]

end

/-- The mark of `i` is raised to `generation`, and kept at least until `keep`, unless that has
passed. -/
structure Retires (r r' : RetiredGenerations H) (i : Identity H) (generation keep now : Nat) :
    Prop where
  exact : r.Exact → r'.Exact
  others : ∀ j, j ≠ i → r'.entries.lookup j = r.entries.lookup j
  passed : keep ≤ now → r'.entries.lookup i = r.entries.lookup i
  marked : now < keep → ∃ m, r'.entries.lookup i = some m ∧
    m.generation = max ((r.entries.lookup i).elim 0 RetiredGeneration.generation) generation ∧
    m.retainUntilUnixMs = max ((r.entries.lookup i).elim 0 retainUntilUnixMs) keep

variable {generation keep now : Nat}

/-- No mark is taken away or lowered. -/
theorem Retires.rises (h : Retires r r' i generation keep now) {j : Identity H}
    (hm : r.entries.lookup j = some m) : ∃ m', r'.entries.lookup j = some m' ∧
      m.generation ≤ m'.generation ∧ m.retainUntilUnixMs ≤ m'.retainUntilUnixMs := by
  by_cases hj : j = i
  · subst hj
    rcases Nat.lt_or_ge now keep with hkeep | hkeep
    · obtain ⟨m', hm', hgen, hret⟩ := h.marked hkeep
      rw [hm] at hgen hret
      exact ⟨m', hm', hgen ▸ le_max_left _ _, hret ▸ le_max_left _ _⟩
    · exact ⟨m, (h.passed hkeep).trans hm, le_rfl, le_rfl⟩
  · exact ⟨m, (h.others j hj).trans hm, le_rfl, le_rfl⟩

/-- The mark is not raised above what was there and what is retired. -/
theorem Retires.below (h : Retires r r' i generation keep now) {bound : Nat}
    (hold : ∀ m, r.entries.lookup i = some m → m.generation < bound) (hnew : generation < bound)
    (hm : r'.entries.lookup i = some m) : m.generation < bound := by
  rcases Nat.lt_or_ge now keep with hkeep | hkeep
  · obtain ⟨m', hm', hgen, -⟩ := h.marked hkeep
    obtain rfl : m = m' := Option.some.inj (hm.symm.trans hm')
    rw [hgen]
    refine max_lt ?_ hnew
    cases hr : r.entries.lookup i with
    | none => exact (Nat.zero_le _).trans_lt hnew
    | some old => exact hold old hr
  · exact hold m ((h.passed hkeep).symm.trans hm)

theorem Retires.of_passed (hkeep : keep ≤ now) : Retires r r i generation keep now where
  exact := id
  others _ _ := rfl
  passed _ := rfl
  marked h := absurd hkeep (not_le.mpr h)

/-- A record is put at `i` that is as new and kept as long as both. -/
theorem Retires.of_insert (hkeep : now < keep) (hentries : r'.entries = r.entries.insert i m)
    (hexact : r.Exact → r'.Exact)
    (hmark : m.generation =
        max ((r.entries.lookup i).elim 0 RetiredGeneration.generation) generation ∧
      m.retainUntilUnixMs = max ((r.entries.lookup i).elim 0 retainUntilUnixMs) keep) :
    Retires r r' i generation keep now where
  exact := hexact
  others j hj := by rw [hentries, lookup_insert, if_neg hj]
  passed h := absurd hkeep (not_lt.mpr h)
  marked _ := ⟨m, by rw [hentries, lookup_insert, if_pos rfl], hmark⟩

theorem retires_retireAbsent {requested : Nat}
    (h : r.retireAbsent key owner generation requested now = .ok r') :
    Retires r r' (key, owner) generation (r.boundedAbsentDeadline requested now) now := by
  simp only [retireAbsent] at h
  by_cases hkeep : r.boundedAbsentDeadline requested now ≤ now
  · rw [if_pos hkeep] at h
    obtain rfl := Except.ok.inj h
    exact .of_passed hkeep
  rw [if_neg hkeep] at h
  cases hold : r.entries.lookup (key, owner) with
  | some =>
    simp only [hold] at h
    obtain rfl := Except.ok.inj h
    exact .of_insert (not_le.mp hkeep) rfl (fun hr => hr.replace hold rfl)
      (by simp [hold, RetiredGeneration.merge])
  | none =>
    simp only [hold] at h
    obtain ⟨-, -, rfl⟩ := map_eq_ok.mp h
    exact .of_insert (not_le.mp hkeep) rfl
      (fun hr => hr.insertNew (m := ⟨generation, _, .absent⟩) hold) (by simp [hold])

theorem retires_retireLive {expires requested : Nat}
    (h : r.retireLive key owner generation expires requested now = .ok r') :
    Retires r r' (key, owner) generation
      (max expires (r.boundedAbsentDeadline requested now)) now := by
  simp only [retireLive] at h
  by_cases hkeep : max expires (r.boundedAbsentDeadline requested now) ≤ now
  · rw [if_pos hkeep] at h
    obtain rfl := Except.ok.inj h
    exact .of_passed hkeep
  rw [if_neg hkeep] at h
  cases hold : r.entries.lookup (key, owner) with
  | some old =>
    simp only [hold] at h
    obtain rfl := Except.ok.inj h
    by_cases habsent : old.source = .absent
    · rw [if_pos habsent]
      exact .of_insert (not_le.mp hkeep) rfl
        (fun hr => hr.upgrade hold (decide_eq_true habsent) rfl)
        (by simp [hold, RetiredGeneration.merge])
    · rw [if_neg habsent]
      exact .of_insert (not_le.mp hkeep) rfl
        (fun hr => hr.replace hold (decide_eq_false habsent).symm)
        (by simp [hold, RetiredGeneration.merge])
  | none =>
    simp only [hold] at h
    obtain ⟨-, -, rfl⟩ := map_eq_ok.mp h
    exact .of_insert (not_le.mp hkeep) rfl
      (fun hr => hr.insertNew (m := ⟨generation, _, .liveAdvertisement⟩) hold) (by simp [hold])

end RetiredGenerations

end Kvbm.Hub.Bundle
