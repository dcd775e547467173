/-
Presence markers count.

The inline list and the overflow list together are a map from tiers to positive counts:
an increment adds one to one tier, a decrement takes one away, and says whether there was
any.
-/
import Kvbm.Registry.Presence

namespace Kvbm.PresenceMarkers

open Lib List Option

variable {τ : Type} [DecidableEq τ] {m m' m'' : PresenceMarkers τ} {t : τ} {n : Nat}

/-- Every tier has one entry, and a count in it. -/
structure Wf (m : PresenceMarkers τ) : Prop where
  nodup : KeysNodup m.all
  pos : ∀ e ∈ m.all, 0 < e.2

omit [DecidableEq τ] in
theorem empty_wf : (empty : PresenceMarkers τ).Wf := ⟨nodup_nil, nofun⟩

theorem count_empty : (empty : PresenceMarkers τ).count t = 0 := rfl

theorem isTier_some {o : Option (τ × Nat)} (ho : isTier t o = true) : ∃ n, o = some (t, n) := by
  unfold isTier at ho
  split at ho
  · next e =>
      have he : e.1 = t := by simpa using ho
      exact ⟨e.2, by rw [← he]⟩
  · cases ho

theorem any_inline_iff : m.inline.any (isTier t) = true ↔ ∃ n, some (t, n) ∈ m.inline := by
  rw [List.any_eq_true]
  constructor
  · rintro ⟨o, ho, hto⟩
    obtain ⟨n, rfl⟩ := isTier_some hto
    exact ⟨n, ho⟩
  · rintro ⟨n, hn⟩
    exact ⟨_, hn, by simp [isTier]⟩

/-- The entry of a tier, and what writing and removing it does. -/
theorem all_split (hn : KeysNodup m.all) (hg : assocGet t m.all = some n) :
    ∃ a b, m.all = a ++ (t, n) :: b ∧ (∀ f, (m.modifyCount t f).all = a ++ (t, f n) :: b) ∧
      (m.remove t).all.Perm (a ++ b) := by
  have hval : ∀ k, (t, k) ∈ m.all → k = n := by
    intro k hk
    rw [(assocGet_eq_some hn).mpr hk] at hg
    exact some.inj hg
  by_cases hin : m.inline.any (isTier t) = true
  · obtain ⟨a, x, b, hl, hx, -, hf⟩ := modifyFirst_split hin
    obtain ⟨k, rfl⟩ := isTier_some hx
    have hall : m.all = a.reduceOption ++ (t, k) :: (b.reduceOption ++ m.overflow) := by
      simp [all, hl, reduceOption_append, reduceOption_cons_of_some]
    have hk : k = n := hval k (by simp [hall])
    subst hk
    refine ⟨a.reduceOption, b.reduceOption ++ m.overflow, hall, fun f => ?_, ?_⟩
    · simp [all, modifyCount, hin, hf, reduceOption_append, reduceOption_cons_of_some]
    · simp [all, remove, hin, hf, reduceOption_append, reduceOption_cons_of_none]
  · have hmem := (assocGet_eq_some hn).mp hg
    have hover : (t, n) ∈ m.overflow := by
      rcases mem_append.mp hmem with hc | hc
      · exact absurd (any_inline_iff.mpr ⟨n, reduceOption_mem_iff.mp hc⟩) hin
      · exact hc
    have hany : m.overflow.any (fun e => decide (e.1 = t)) = true :=
      any_eq_true.mpr ⟨_, hover, by simp⟩
    obtain ⟨a, x, b, hl, hx, ha, hf⟩ := modifyFirst_split hany
    have hx : x.1 = t := by simpa using hx
    have hk : x.2 = n := hval x.2 (by simp [all, hl, ← hx])
    have hxe : x = (t, n) := Prod.ext hx hk
    subst hxe
    have hidx : m.overflow.findIdx (fun e => decide (e.1 = t)) = a.length := by
      rw [hl, findIdx_append, findIdx_cons]
      have hnone : a.findIdx (fun e => decide (e.1 = t)) = a.length := findIdx_eq_length_of_false ha
      simp [hnone]
    refine ⟨m.inline.reduceOption ++ a, b, by simp [all, hl], fun f => ?_, ?_⟩
    · simp [all, modifyCount, hin, hf]
    · have hrem : (m.remove t).all =
          m.inline.reduceOption ++ swapRemove (a ++ (t, n) :: b) a.length := by
        simp [all, remove, hin, hidx, ← hl]
      rw [hrem, append_assoc]
      exact List.Perm.append_left _ swapRemove_perm

/-- Of the entries that of the tier has become `o`, and the others are as before. -/
def Becomes (m : PresenceMarkers τ) (t : τ) (o : Option Nat) (m' : PresenceMarkers τ) : Prop :=
  KeysNodup m'.all ∧ ∀ u, assocGet u m'.all = if u = t then o else assocGet u m.all

theorem Becomes.trans {o o' : Option Nat} (h : m.Becomes t o m') (h' : m'.Becomes t o' m'') :
    m.Becomes t o' m'' := by
  refine ⟨h'.1, fun u => ?_⟩
  rw [h'.2, h.2]
  split_ifs <;> rfl

theorem modifyCount_becomes (hn : KeysNodup m.all) (hg : assocGet t m.all = some n)
    (f : Nat → Nat) : m.Becomes t (some (f n)) (m.modifyCount t f) := by
  obtain ⟨a, b, hall, hmod, -⟩ := all_split hn hg
  unfold Becomes
  rw [hall] at hn
  rw [hmod, hall]
  refine ⟨hn.set _, fun u => ?_⟩
  rw [assocGet_middle (hn.set _), assocGet_middle hn]
  split_ifs <;> rfl

theorem remove_becomes (hn : KeysNodup m.all) (hg : assocGet t m.all = some n) :
    m.Becomes t none (m.remove t) := by
  obtain ⟨a, b, hall, -, hperm⟩ := all_split hn hg
  unfold Becomes
  rw [hall] at hn ⊢
  have hrest : KeysNodup (a ++ b) := hn.sublist (List.Sublist.append_left (sublist_cons_self _ _) a)
  refine ⟨hrest.perm hperm.symm, fun u => ?_⟩
  rw [← assocGet_perm hrest hperm.symm, assocGet_middle hn]
  split_ifs with hu
  · exact hu ▸ hn.middle
  · rfl

theorem becomes_of_perm (hn : KeysNodup m.all) (hg : assocGet t m.all = none)
    (hp : m'.all.Perm ((t, n) :: m.all)) : m.Becomes t (some n) m' := by
  have hnew : t ∉ m.all.map Prod.fst := by
    intro hc
    obtain ⟨e, he, rfl⟩ := mem_map.mp hc
    rw [(assocGet_eq_some hn).mpr he] at hg
    cases hg
  have hn' : KeysNodup ((t, n) :: m.all) := nodup_cons.mpr ⟨hnew, hn⟩
  refine ⟨hn'.perm hp.symm, fun u => ?_⟩
  rw [← assocGet_perm hn' hp.symm]
  exact assocGet_middle (a := []) hn'

theorem Becomes.wf {o : Option Nat} (hw : m.Wf) (h : m.Becomes t o m') (ho : ∀ n ∈ o, 0 < n) :
    m'.Wf ∧ ∀ u, m'.count u = if u = t then o.getD 0 else m.count u := by
  refine ⟨⟨h.1, fun e he => ?_⟩, fun u => ?_⟩
  · have hget := h.2 e.1
    rw [(assocGet_eq_some h.1).mpr he] at hget
    split_ifs at hget
    · exact ho _ hget.symm
    · exact hw.pos e ((assocGet_eq_some hw.nodup).mp hget.symm)
  · unfold count
    rw [h.2]
    split_ifs <;> rfl

/-- **An increment adds one to one tier.** -/
theorem increment_spec (hw : m.Wf) :
    (m.increment t).Wf ∧ ∀ u, (m.increment t).count u = m.count u + if u = t then 1 else 0 := by
  have hone : m.Becomes t (some (m.count t + 1)) (m.increment t) := by
    unfold increment count
    cases hg : assocGet t m.all with
    | some => exact modifyCount_becomes hw.nodup hg _
    | none =>
      rw [if_neg (by simp)]
      split_ifs with hfree
      · obtain ⟨a, x, b, hl, hx, -, hf⟩ := modifyFirst_split hfree
        have hx : x = none := by simpa using hx
        subst hx
        refine becomes_of_perm hw.nodup hg ?_
        have hold : m.all = a.reduceOption ++ (b.reduceOption ++ m.overflow) := by
          simp [all, hl, reduceOption_append, reduceOption_cons_of_none]
        rw [hold]
        simp only [all, hf, reduceOption_append, reduceOption_cons_of_some,
          append_assoc, cons_append]
        exact perm_middle
      · refine becomes_of_perm hw.nodup hg ?_
        simp only [all, ← append_assoc]
        exact perm_append_singleton _ _
  obtain ⟨hw', hcount⟩ := hone.wf hw (by simp)
  refine ⟨hw', fun u => ?_⟩
  rw [hcount]
  split_ifs with hu
  · rw [hu]
    rfl
  · rfl

/-- **A decrement takes one away where there is one**, and says so. -/
theorem decrement_spec (hw : m.Wf) (hpos : 0 < m.count t) :
    (m.decrement t).1 = true ∧ (m.decrement t).2.Wf ∧
      ∀ u, (m.decrement t).2.count u + (if u = t then 1 else 0) = m.count u := by
  obtain ⟨n, hg⟩ : ∃ n, assocGet t m.all = some n := by
    cases hg : assocGet t m.all with
    | none => simp [count, hg] at hpos
    | some n => exact ⟨n, rfl⟩
  have hn : m.count t = n := by
    rw [count, hg]
    rfl
  have hless := modifyCount_becomes hw.nodup hg (· - 1)
  have hone : (m.decrement t).1 = true ∧ ∃ o, m.Becomes t o (m.decrement t).2 ∧
      o.getD 0 = n - 1 ∧ ∀ k ∈ o, 0 < k := by
    simp only [decrement, hg]
    split_ifs with hleft
    · exact ⟨rfl, _, hless, rfl, by simpa using hleft⟩
    -- the entry has reached zero
    have hgone := remove_becomes hless.1 ((hless.2 t).trans (if_pos rfl))
    refine ⟨rfl, none, hless.trans hgone, ?_, by simp⟩
    show 0 = n - 1
    omega
  obtain ⟨htrue, o, hb, ho, hk⟩ := hone
  obtain ⟨hw', hcount⟩ := hb.wf hw hk
  refine ⟨htrue, hw', fun u => ?_⟩
  rw [hcount, ho]
  split_ifs with hu
  · rw [hu]
    omega
  · rfl

end Kvbm.PresenceMarkers
