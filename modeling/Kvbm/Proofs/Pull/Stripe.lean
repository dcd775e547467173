/-
A striped pull keeps every block.

The batches are the pairs, sorted by their owners and otherwise as they were, and every slot of a
batch leads back to the block that was meant.  The slots of the workers are just enough for all
blocks.
-/
import Kvbm.Pull.Stripe
import Mathlib.Algebra.BigOperators.Group.Finset.Piecewise
import Mathlib.Data.List.Induction
import Mathlib.Data.Nat.ModEq

namespace Kvbm

open Lib List StripedBlockPlacement

namespace StripedBlockPlacement

variable (s : StripedBlockPlacement) {id rank C : Nat}

theorem global_resolve (h : id ≤ usizeMax) :
    s.global (s.resolve id).1 (s.resolve id).2 = .ok id := by
  have hback := Nat.div_add_mod' id s.worldSize
  simp [global, validateRank, resolve, hback, ensure, Nat.mod_lt _ s.pos, h, Except.bind,
    Except.map]

/-- How many of the first `C` blocks a worker holds. -/
def share (C rank : Nat) : Nat := if C ≤ rank then 0 else 1 + (C - 1 - rank) / s.worldSize

/-- One more block is one more for its owner. -/
theorem share_succ (hrank : rank < s.worldSize) :
    s.share (C + 1) rank = s.share C rank + if C % s.worldSize = rank then 1 else 0 := by
  have hshare : ∀ C, s.share C rank = (C + (s.worldSize - 1 - rank)) / s.worldSize := by
    intro C
    unfold share
    split_ifs with hC
    · exact (Nat.div_eq_of_lt (by omega)).symm
    rw [Nat.add_comm 1, ← Nat.add_div_right _ s.pos]
    congr 1
    omega
  have hdvd : s.worldSize ∣ C + (s.worldSize - 1 - rank) + 1 ↔ C % s.worldSize = rank := by
    have hsub : C + (s.worldSize - 1 - rank) + 1 = C + s.worldSize - rank := by omega
    rw [hsub, ← Nat.modEq_iff_dvd' (by omega), Nat.ModEq, Nat.add_mod_right,
      Nat.mod_eq_of_lt hrank, eq_comm]
  rw [hshare, hshare, Nat.add_right_comm, Nat.succ_div]
  exact congrArg _ (if_congr hdvd rfl rfl)

theorem sum_share : ∑ rank ∈ Finset.range s.worldSize, s.share C rank = C := by
  induction C with
  | zero => simp [share]
  | succ C ih =>
    rw [Finset.sum_congr rfl fun rank hrank => s.share_succ (Finset.mem_range.mp hrank),
      Finset.sum_add_distrib, ih, Finset.sum_ite_eq, if_pos (Finset.mem_range.mpr ?_)]
    exact Nat.mod_lt C s.pos

theorem resolve_lt (h : id < C) : (s.resolve id).2 < s.share C (s.resolve id).1 := by
  have hsplit : id = (s.resolve id).2 * s.worldSize + (s.resolve id).1 := (Nat.div_add_mod' ..).symm
  unfold share
  rw [if_neg (by omega), Nat.add_comm, Nat.lt_succ_iff, Nat.le_div_iff_mul_le s.pos]
  omega

end StripedBlockPlacement

/-! ### Batches -/

variable (own remote : StripedBlockPlacement)

/-- The pairs whose blocks two ranks hold. -/
def ownedBy (refs : List PullRef) (key : Nat ×ₗ Nat) : List PullRef :=
  refs.filter fun pair => pair.owners own remote = key

/-- The batch of some pairs, all of the same owners. -/
def batchOf (key : Nat ×ₗ Nat) (pairs : List PullRef) : ReplicatedPullBatch :=
  ⟨(ofLex key).1, (ofLex key).2, pairs.map fun pair => (remote.resolve pair.srcBlockId).2,
    pairs.map fun pair => (own.resolve pair.dstBlockId).2⟩

/-- **Every batch is the pairs of its owners, in order.** -/
theorem foldl_batchPair {refs : List PullRef} : let batches := refs.foldl (batchPair own remote) []
    OrdKeys batches ∧ ∀ key, ordGet key batches =
      if ownedBy own remote refs key = [] then none
      else some (batchOf own remote key (ownedBy own remote refs key)) := by
  induction refs using List.reverseRecOn with
  | nil => exact ⟨.nil, fun key => rfl⟩
  | append_singleton refs pair ih =>
    obtain ⟨hsorted, hget⟩ := ih
    rw [foldl_append]
    refine ⟨hsorted.insert, fun key => ?_⟩
    simp only [foldl_cons, foldl_nil, batchPair, ordGet_ordInsert, hget, ownedBy, filter_append]
    by_cases hkey : key = pair.owners own remote
    · subst hkey
      by_cases hfirst : refs.filter (fun ref => ref.owners own remote = pair.owners own remote) = []
      · simp [hfirst, batchOf]
      · simp [hfirst, batchOf]
    · simp [hkey, Ne.symm hkey]

theorem mapM_global {s : StripedBlockPlacement} {rank : Nat} {f : PullRef → BlockId}
    (l : List PullRef) (h : ∀ pair ∈ l, f pair ≤ usizeMax ∧ (s.resolve (f pair)).1 = rank) :
    (l.map fun pair => (s.resolve (f pair)).2).mapM (s.global rank) = .ok (l.map f) := by
  induction l with
  | nil => rfl
  | cons pair l ih =>
    obtain ⟨⟨hfits, rfl⟩, hl⟩ := forall_mem_cons.mp h
    rw [map_cons, mapM_cons, s.global_resolve hfits, ih hl]
    rfl

/-- **A pull in batches keeps every block**: every pair is in the batch of its owners and in no
other, in the order of the request, and the slots lead back to its blocks.  Any number of blocks is
spread over the workers without rest, and every block has its slot. -/
theorem replicated_pull_keeps (refs : List PullRef)
    (hrefs : ∀ pair ∈ refs, pair.srcBlockId ≤ usizeMax ∧ pair.dstBlockId ≤ usizeMax) :
    (∃ batches, planReplicatedPull own.worldSize remote.worldSize refs = .ok batches ∧
      batches.Pairwise (fun a b =>
        toLex (a.localRank, a.remoteRank) < toLex (b.localRank, b.remoteRank)) ∧
      (∀ pair ∈ refs, ∃ batch ∈ batches,
        toLex (batch.localRank, batch.remoteRank) = pair.owners own remote) ∧
      ∀ batch ∈ batches,
        let pairs := ownedBy own remote refs (toLex (batch.localRank, batch.remoteRank))
        batch.srcBlockIds.mapM (remote.global batch.remoteRank) =
            .ok (pairs.map PullRef.srcBlockId) ∧
          batch.dstBlockIds.mapM (own.global batch.localRank) =
            .ok (pairs.map PullRef.dstBlockId)) ∧
    ∀ C, ∃ capacity : Nat → Nat,
      (∀ rank < own.worldSize, own.localCapacity C rank = .ok (capacity rank)) ∧
      ∑ rank ∈ Finset.range own.worldSize, capacity rank = C ∧
      ∀ id < C, (own.resolve id).2 < capacity (own.resolve id).1 := by
  refine ⟨?_, fun C => ⟨own.share C, ?_, own.sum_share, fun id h => own.resolve_lt h⟩⟩
  · obtain ⟨hsorted, hget⟩ := foldl_batchPair own remote
    have hmem : ∀ e ∈ refs.foldl (batchPair own remote) [],
        e.2 = batchOf own remote e.1 (ownedBy own remote refs e.1) := by
      intro e he
      have hsome := (hget e.1).symm.trans ((ordGet_eq_some hsorted).mpr he)
      split_ifs at hsome
      exact (Option.some.inj hsome).symm
    refine ⟨(refs.foldl (batchPair own remote) []).map Prod.snd, ?_, ?_, ?_, ?_⟩
    · simp [planReplicatedPull, new, own.pos.ne', remote.pos.ne', Except.bind, Except.map]
    · rw [pairwise_map]
      refine hsorted.imp_of_mem fun {a b} ha hb hlt => ?_
      rw [hmem a ha, hmem b hb]
      exact hlt
    · intro pair hpair
      have hown : pair ∈ ownedBy own remote refs (pair.owners own remote) := by
        simpa [ownedBy] using hpair
      have hsome := (hget _).trans (if_neg (ne_nil_of_mem hown))
      exact ⟨_, mem_map_of_mem ((ordGet_eq_some hsorted).mp hsome), rfl⟩
    · intro batch hbatch
      obtain ⟨e, he, rfl⟩ := mem_map.mp hbatch
      rw [hmem e he]
      refine ⟨mapM_global _ fun pair hpair => ?_, mapM_global _ fun pair hpair => ?_⟩
      · obtain ⟨hin, howners⟩ := mem_filter.mp hpair
        exact ⟨(hrefs pair hin).1, congrArg (fun k => (ofLex k).2) (of_decide_eq_true howners)⟩
      · obtain ⟨hin, howners⟩ := mem_filter.mp hpair
        exact ⟨(hrefs pair hin).2, congrArg (fun k => (ofLex k).1) (of_decide_eq_true howners)⟩
  · intro rank hrank
    simp [localCapacity, validateRank, ensure, hrank, Except.map, share]

/-- Three pairs between a group of two and a group of three. -/
theorem replicated_pull_keeps_three :
    ∃ batches, planReplicatedPull 2 3 [⟨5, 4⟩, ⟨7, 1⟩, ⟨2, 0⟩] = .ok batches ∧
      ∀ pair ∈ ([⟨5, 4⟩, ⟨7, 1⟩, ⟨2, 0⟩] : List PullRef), ∃ batch ∈ batches,
        toLex (batch.localRank, batch.remoteRank) = pair.owners ⟨2, by decide⟩ ⟨3, by decide⟩ := by
  obtain ⟨⟨batches, hplan, -, hall, -⟩, -⟩ :=
    replicated_pull_keeps ⟨2, by decide⟩ ⟨3, by decide⟩ [⟨5, 4⟩, ⟨7, 1⟩, ⟨2, 0⟩] (by decide)
  exact ⟨batches, hplan, hall⟩

end Kvbm
