/-
A holder that reaches far enough is not cut off.

Of the hashes that were asked about, the answer is the last one the holder has, so the holder does
not reach beyond the next; and the range goes up to there.
-/
import Kvbm.Remote.Plan
import Mathlib.Data.List.Nodup

namespace Kvbm.Remote

open List

theorem getElem?_stepBy {α : Type} {n : Nat} (hn : 0 < n) (l : List α) (skip k : Nat) :
    (stepBy n skip l)[k]? = l[skip + k * n]? := by
  induction l generalizing skip k with
  | nil => simp [stepBy]
  | cons a l ih =>
    cases skip with
    | zero =>
      cases k with
      | zero => simp [stepBy]
      | succ k =>
        have hat : 0 + (k + 1) * n = n - 1 + k * n + 1 := by
          rw [Nat.succ_mul]
          omega
        rw [stepBy, hat, getElem?_cons_succ, getElem?_cons_succ, ih]
    | succ =>
      rw [stepBy, ih, Nat.add_right_comm, getElem?_cons_succ]

namespace DiscoveryPlan

variable {H : Type} {hashes : Slice H} {start : Nat}

/-- The last hash up to position `q` that is asked about. -/
def Deepest (plan : DiscoveryPlan H) (hashes : Slice H) (q : Nat) (deepest : H) : Prop :=
  deepest ∈ plan.query ∧ ∃ i ≤ q, hashes.1[i]? = some deepest ∧
    ∀ j hash, i < j → j ≤ q → hashes.1[j]? = some hash → hash ∉ plan.query

/-- The place of the sample after the one with number `k`, or the end. -/
def upper (plan : DiscoveryPlan H) (k : Nat) : Nat :=
  plan.remainingStart + min ((k + 1) * plan.stride) plan.remainingLen

theorem stride_pos : 0 < (new hashes start).stride :=
  Nat.lt_of_lt_of_le Nat.one_pos (le_max_right ..)

theorem getElem?_query (k : Nat) : (new hashes start).query[k]? =
    hashes.1[(new hashes start).remainingStart + k * (new hashes start).stride]? := by
  refine (getElem?_stepBy stride_pos _ 0 k).trans ?_
  rw [getElem?_drop, Nat.zero_add]
  rfl

theorem remaining_len : (new hashes start).remainingStart + (new hashes start).remainingLen =
    hashes.1.length := by
  simp only [new, length_drop]
  omega

/-- Sixty-four strides go over what is left. -/
theorem remainingLen_le : (new hashes start).remainingLen ≤ 64 * (new hashes start).stride := by
  simp only [new, maxDiscoveryHashes]
  omega

theorem length_query_le : (new hashes start).query.length ≤ maxDiscoveryHashes := by
  by_contra hlong
  have hlt : 64 < (new hashes start).query.length := Nat.not_le.mp hlong
  have hsome := List.getElem?_eq_getElem hlt
  rw [getElem?_query] at hsome
  obtain ⟨hin, -⟩ := List.getElem?_eq_some_iff.mp hsome
  have hlen : (new hashes start).remainingLen ≤ 64 * (new hashes start).stride := remainingLen_le
  have hend : _ + (new hashes start).remainingLen = hashes.1.length := remaining_len
  omega

variable [DecidableEq H] {deepest : H} {k : Nat}

theorem resolvePinTarget_eq (hk : (new hashes start).query.findIdx? (· = deepest) = some k)
    (p : Nat) : (new hashes start).resolvePinTarget deepest p =
      if p < (new hashes start).upper k then some ⟨p, (new hashes start).upper k⟩ else none := by
  have hfits : (k + 1) * (new hashes start).stride ≤ usizeMax := by
    obtain ⟨hlt, -⟩ := findIdx?_eq_some_iff_getElem.mp hk
    have hsome := List.getElem?_eq_getElem hlt
    rw [getElem?_query] at hsome
    obtain ⟨hin, -⟩ := List.getElem?_eq_some_iff.mp hsome
    have hbound := hashes.2
    have hstride : (new hashes start).stride ≤ 2 ^ 63 := by
      simp only [new, maxDiscoveryHashes, List.length_drop]
      omega
    rw [Nat.succ_mul, usizeMax]
    omega
  simp only [resolvePinTarget, hk, Option.bind_some, if_neg hfits.not_gt, ← upper.eq_1]
  by_cases hp : p < (new hashes start).upper k
  · rw [if_pos hp, Nat.min_eq_left (Nat.le_of_lt hp), if_neg (Nat.not_le.mpr hp)]
  · rw [if_neg hp, Nat.min_eq_right (Nat.not_lt.mp hp), if_pos (Nat.le_refl _)]

/-- **A holder that has everything up to `q` is asked for `q`.**  The range begins where staging has
got to and ends within the sequence; there is none exactly if staging has got to its end, or the
answer was not asked for.  A query is short. -/
theorem discovery_reaches (hashes : Slice H) (hdistinct : hashes.1.Nodup) (start : Nat) :
    let plan := new hashes start
    plan.query.length ≤ maxDiscoveryHashes ∧
    (∀ q p deepest, q < hashes.1.length → p ≤ q → plan.Deepest hashes q deepest →
      ∃ upper, plan.resolvePinTarget deepest p = some ⟨p, upper⟩ ∧ q < upper ∧
        upper ≤ hashes.1.length) ∧
    (∀ deepest ∉ plan.query, ∀ p, plan.resolvePinTarget deepest p = none) ∧
    ∀ deepest ∈ plan.query, ∃ upper, ∀ p,
      plan.resolvePinTarget deepest p = if p < upper then some ⟨p, upper⟩ else none := by
  intro plan
  have hfound : ∀ deepest ∈ plan.query, ∃ k, plan.query.findIdx? (· = deepest) = some k := by
    intro deepest hmem
    exact Option.isSome_iff_exists.mp (by simpa [findIdx?_isSome] using hmem)
  refine ⟨length_query_le, ?_, ?_, ?_⟩
  · intro q p deepest hq hp ⟨hmem, i, hiq, hi, hlast⟩
    obtain ⟨k, hk⟩ := hfound deepest hmem
    obtain ⟨hlt, hat, -⟩ := findIdx?_eq_some_iff_getElem.mp hk
    have hsample : hashes.1[plan.remainingStart + k * plan.stride]? = some deepest := by
      rw [← getElem?_query, getElem?_eq_getElem hlt]
      simpa using hat
    -- the hashes are distinct, so the answer is at the place of the sample
    obtain ⟨hilt, hival⟩ := List.getElem?_eq_some_iff.mp hi
    have hplace : i = plan.remainingStart + k * plan.stride :=
      hdistinct.getElem_inj_iff.mp (hival.trans (List.getElem?_eq_some_iff.mp hsample).2.symm)
    have hnext : q < plan.remainingStart + (k + 1) * plan.stride := by
      by_contra hreach
      have hle := Nat.not_lt.mp hreach
      have hin : plan.remainingStart + (k + 1) * plan.stride < hashes.1.length := by omega
      have hpos : 0 < plan.stride := stride_pos
      refine hlast _ _ (by rw [hplace, Nat.succ_mul]; omega) hle
        (getElem?_eq_getElem hin) (mem_of_getElem? (i := k + 1) ?_)
      rw [getElem?_query]
      exact getElem?_eq_getElem hin
    have hend : plan.remainingStart + plan.remainingLen = hashes.1.length := remaining_len
    have hreach : q < plan.upper k := by
      unfold upper
      omega
    refine ⟨plan.upper k, (resolvePinTarget_eq hk p).trans (if_pos ?_), hreach, ?_⟩
    · exact Nat.lt_of_le_of_lt hp hreach
    · unfold upper
      omega
  · intro deepest hmem p
    have hnone : plan.query.findIdx? (· = deepest) = none := by
      rw [findIdx?_eq_none_iff]
      intro hash hin
      exact decide_eq_false fun heq => hmem (heq ▸ hin)
    rw [resolvePinTarget, hnone, Option.bind_none]
  · intro deepest hmem
    obtain ⟨k, hk⟩ := hfound deepest hmem
    exact ⟨plan.upper k, resolvePinTarget_eq hk⟩

/-- Three hashes of which the first is held and staged; the answer is the second. -/
theorem discovery_reaches_second : let hashes : Slice Nat := ⟨[10, 20, 30], by decide⟩
    ∃ upper, (new hashes 1).resolvePinTarget 20 1 = some ⟨1, upper⟩ ∧ 1 < upper ∧ upper ≤ 3 := by
  refine (discovery_reaches ⟨[10, 20, 30], by decide⟩ (by decide) 1).2.1 1 1 20 (by decide) le_rfl
    ⟨by decide, 1, le_rfl, rfl, fun j hash hj hj' => ?_⟩
  omega

end DiscoveryPlan

end Kvbm.Remote
