/-
A worker waits for its tokens once, but a worker with another position than 0 waits for tokens that
are never sent to it.

Every fence and every iteration number stands in one place, in the order in which they were made;
so the tokens that were waited for are a sublist of the tokens there are.
-/
import Kvbm.Lib.Run
import Kvbm.Connector.Fences

namespace Kvbm.Connector

open List Lib
open Tiering (FenceToken fenceTokens)

variable {workers position rank : Nat}

theorem nodup_fenceTokens (workers n : Nat) :
    ((range n).map (fenceTokens · workers)).flatten.Nodup := by
  refine nodup_flatten.mpr ⟨fun l hl => ?_, ?_⟩
  · obtain ⟨b, -, rfl⟩ := mem_map.mp hl
    exact nodup_range.map fun r r' h => congrArg FenceToken.rank h
  · refine pairwise_map.mpr (nodup_range.imp fun hne t ht ht' => hne ?_)
    obtain ⟨_, -, rfl⟩ := mem_map.mp ht
    obtain ⟨_, -, ht⟩ := mem_map.mp ht'
    exact (congrArg FenceToken.generation ht).symm

namespace Fencing

variable {s s' : Fencing} {m : ConnectorMetadata}

def received (s : Fencing) : List ConnectorMetadata := s.past ++ s.envelope.toList

structure Inv (workers rank : Nat) (s : Fencing) : Prop where
  fences : (s.received ++ s.queue).flatMap (·.fences) ++ s.pendingFences =
    (range s.minted).map (fenceTokens · workers)
  iterations : (s.received ++ s.queue).map (·.iteration) = range' 1 s.iteration
  fenced : ∀ i, s.fencedIteration = some i → i ∈ s.received.map (·.iteration)
  completed : s.completedFences ⊆ s.delivered
  once : s.waited <+ (s.received.flatMap (·.fences)).flatten
  blocked : s.waiting = true → s.fencedIteration = s.envelope.map (·.iteration)
  before : ∀ m, s.envelope = some m → s.waiting = true ∨ s.fencedIteration ≠ some m.iteration →
    s.waited <+ (s.past.flatMap (·.fences)).flatten
  after : ∀ m, s.envelope = some m →
    s.returned = true ∨ s.waiting = false ∧ s.fencedIteration = some m.iteration →
    ∀ t ∈ m.fenceTokensForRank rank, t ∈ s.delivered ∧ t ∈ s.waited

/-- Whichever hook comes second finds the iteration recorded. -/
theorem Inv.ensureFencesAwaited (h : Inv workers rank s) (hw : s.waiting = false)
    (hm : s.envelope = some m) : Inv workers rank (s.ensureFencesAwaited m) := by
  unfold Fencing.ensureFencesAwaited
  split_ifs with hf
  · refine { h with after := fun m' hm' _ => ?_ }
    cases hm.symm.trans hm'
    exact h.after m hm (.inr ⟨hw, hf⟩)
  refine { h with
    fenced := fun i hi => ?_, blocked := fun _ => ?_, before := fun m' hm' _ => ?_,
    after := fun m' hm' hr => h.after m' hm' (.inl (hr.resolve_right (by simp))) }
  · cases hi
    exact mem_map_of_mem (mem_append_right _ (by simp [hm]))
  · rw [hm]
    rfl
  · cases hm.symm.trans hm'
    exact h.before m hm (.inr hf)

theorem Inv.wake (h : Inv workers rank s) (hm : s.envelope = some m)
    (hs : s.wake rank m = some s') : Inv workers rank s' := by
  simp only [Fencing.wake] at hs
  split_ifs at hs with hall
  cases hs
  have hfenced := h.blocked hall.1
  rw [hm] at hfenced
  refine { h with
    completed := Finset.sdiff_subset.trans h.completed
    once := ?_
    blocked := nofun
    before := fun m' hm' hr => ?_
    after := fun m' hm' _ t ht => ?_ }
  · have htokens := (h.before m hm (.inl hall.1)).append
      (filter_sublist (p := (·.rank = rank)) (l := m.fences.flatten))
    simpa [received, hm, ConnectorMetadata.fenceTokensForRank] using htokens
  · cases hm.symm.trans hm'
    exact absurd hfenced (hr.resolve_left nofun)
  · cases hm.symm.trans hm'
    exact ⟨h.completed (hall.2 t ht), mem_append_right _ ht⟩

theorem Inv.step {a : FencingAct} (h : Inv workers rank s) (hi : s.iteration < 2 ^ 64 - 1)
    (hs : s.step workers position rank a = some s') : Inv workers rank s' := by
  cases a with
  | onEvicted request mustFence inFlight =>
    cases hs
    unfold onEvicted
    split_ifs
    · refine { h with fences := ?_ }
      rw [range_succ, map_append, ← h.fences, append_assoc]
      rfl
    · exact { h with }
  | buildMetadata =>
    cases hs
    have hnext : min (s.iteration + 1) (2 ^ 64 - 1) = s.iteration + 1 := by omega
    refine { h with fences := ?_, iterations := ?_ }
    · simp [buildMetadata, ← h.fences, received]
    · have hold := h.iterations
      simp only [buildMetadata, received, hnext, range'_1_concat] at hold ⊢
      rw [← append_assoc, map_append, hold, Nat.add_comm]
      rfl
  | markFenceComplete token =>
    simp only [Fencing.step] at hs
    split_ifs at hs
    · cases hs
      refine { h with
        completed := Finset.insert_subset_insert token h.completed
        after := fun m hm hr t ht => ?_ }
      exact (h.after m hm hr t ht).imp_left (Finset.mem_insert_of_mem ·)
    · cases hs
      exact h
  | receive =>
    simp only [Fencing.step] at hs
    split at hs
    · rename_i m queue hq
      split_ifs at hs with hw
      cases hs
      have hsame : s.received ++ s.queue = s.received ++ [m] ++ queue := by simp [hq]
      have hnew : m.iteration ∉ s.received.map (·.iteration) := by
        have hnodup : (range' 1 s.iteration).Nodup := nodup_range'
        rw [← h.iterations, hsame, map_append, map_append] at hnodup
        have hlast := (nodup_append.mp (nodup_append.mp hnodup).1).2.2
        exact fun hin => hlast _ hin _ mem_cons_self rfl
      have hf : s.fencedIteration ≠ some m.iteration := fun hf => hnew (h.fenced _ hf)
      refine ⟨hsame ▸ h.fences, hsame ▸ h.iterations, fun i hi => ?_, h.completed, ?_,
        fun hw' => absurd hw' hw, fun _ _ _ => h.once, fun m' hm' hr => ?_⟩
      · rw [received, map_append]
        exact mem_append_left _ (h.fenced i hi)
      · show s.waited <+ ((s.received ++ [m]).flatMap (·.fences)).flatten
        rw [flatMap_append, flatten_append]
        exact h.once.trans (sublist_append_left _ _)
      · cases hm'
        exact absurd (hr.resolve_left nofun).2 hf
    · cases hs
  | handlePreemptions =>
    simp only [Fencing.step] at hs
    split_ifs at hs with hw
    obtain ⟨m, hm, rfl⟩ := Option.map_eq_some_iff.mp hs
    exact h.ensureFencesAwaited (by simpa using hw) hm
  | bindSerializedMetadata shouldBind =>
    simp only [Fencing.step] at hs
    split_ifs at hs with hw
    obtain ⟨m, hm, rfl⟩ := Option.map_eq_some_iff.mp hs
    split_ifs with hbind
    · exact h.ensureFencesAwaited (by simpa using hw) hm
    -- there is nothing to wait for
    refine { h with after := fun m' hm' _ t ht => ?_ }
    cases hm.symm.trans hm'
    simp_all [ConnectorMetadata.fenceTokensForRank]
  | wake =>
    obtain ⟨m, hm, hs⟩ := Option.bind_eq_some_iff.mp hs
    exact h.wake hm hs

/-- **A worker waits once for each token that it picks, and no hook returns before they have come;
but the tokens are those that are sent to it only if its position is 0.** -/
theorem awaits_sent (hp : position < workers)
    (h : ReachableWhile (fun s _ => s.iteration < 2 ^ 64 - 1) (· = new)
      (step workers position Worker.newRank) s) :
    (∀ m ∈ s.received ++ s.queue,
      (∀ t, t ∈ m.fenceTokensForRank Worker.newRank ↔ t ∈ m.sentTo workers position) ↔
        position = 0 ∨ m.fences = []) ∧
    s.waited.Nodup ∧ ∀ m, s.envelope = some m → s.returned = true →
      ∀ t ∈ m.fenceTokensForRank Worker.newRank, t ∈ s.delivered ∧ t ∈ s.waited := by
  have hi : Inv workers Worker.newRank s := by
    refine h.invariant ?_ fun _ _ _ hi hlt hs => hi.step hlt hs
    rintro _ rfl
    exact ⟨rfl, rfl, nofun, Finset.Subset.refl _, .slnil, nofun, nofun, nofun⟩
  refine ⟨fun m hm => ⟨fun heq => ?_, fun hor t => ?_⟩, ?_, fun m hm hr => hi.after m hm (.inl hr)⟩
  · refine or_iff_not_imp_right.mpr fun hne => ?_
    obtain ⟨f, hf⟩ := exists_mem_of_ne_nil _ hne
    have hmem : f ∈ (range s.minted).map (fenceTokens · workers) := by
      rw [← hi.fences]
      exact mem_append_left _ (mem_flatMap.mpr ⟨m, hm, hf⟩)
    obtain ⟨b, -, rfl⟩ := mem_map.mp hmem
    have hfirst : ⟨b, 0⟩ ∈ m.fences.flatten := mem_flatten.mpr ⟨_, hf, by simp [fenceTokens]⟩
    have hsent := (heq ⟨b, 0⟩).mp (mem_filter.mpr ⟨hfirst, rfl⟩)
    exact (of_decide_eq_true (mem_filter.mp hsent).2).2.symm
  · rcases hor with rfl | hnil
    · simp [ConnectorMetadata.fenceTokensForRank, ConnectorMetadata.sentTo, Worker.newRank]
      grind
    · simp [ConnectorMetadata.fenceTokensForRank, ConnectorMetadata.sentTo, hnil]
  · refine (nodup_fenceTokens workers s.minted).sublist ?_
    rw [← hi.fences, flatMap_append, append_assoc, flatten_append]
    exact hi.once.trans (sublist_append_left _ _)

/-- One eviction, and both tokens of its fence are complete. -/
def drained : List FencingAct :=
  [.onEvicted 0 true true, .buildMetadata, .receive, .handlePreemptions,
    .markFenceComplete ⟨0, 0⟩, .markFenceComplete ⟨0, 1⟩]

/-- The first of two workers goes on, and the hook that comes second finds nothing to do. -/
theorem awaits_sent_first :
    ∃ s, runList (step 2 0 0) new (drained ++ [.wake, .bindSerializedMetadata true]) = some s ∧
      s.envelope.isSome ∧ s.returned = true ∧ s.waited = [⟨0, 0⟩] ∧ s.waited.Nodup := by
  have hrun : runListWhile (fun s _ => s.iteration < 2 ^ 64 - 1) (step 2 0 Worker.newRank) new
    (drained ++ [.wake, .bindSerializedMetadata true]) = some _ := rfl
  exact ⟨_, rfl, rfl, rfl, rfl, (awaits_sent (by decide) (.runListWhile (.init rfl) hrun)).2.1⟩

/-- The second one is still blocked, and its own token is left behind. -/
theorem awaits_unsent :
    ∃ s, runList (step 2 1 Worker.newRank) new drained = some s ∧ s.waiting = true ∧
      step 2 1 Worker.newRank s .wake = none ∧ s.completedFences = {⟨0, 1⟩} ∧
      ∃ m, s.envelope = some m ∧ m.fenceTokensForRank Worker.newRank = [⟨0, 0⟩] ∧
        m.sentTo 2 1 = [⟨0, 1⟩] :=
  ⟨_, rfl, rfl, by decide, rfl, _, rfl, by decide, by decide⟩

end Fencing

end Kvbm.Connector
