/-
A pull fills every local shard exactly once.

The part of the axis that one shard transfers is read off its intersections; an axis that no
intersection restricts is transferred whole.  The parts of one rank's shards tile its
axis, and each coordinate comes from the same place of the global axis.
-/
import Kvbm.Pull.Plan
import Mathlib.Data.List.Range
import Mathlib.Data.Nat.ModEq
import Mathlib.Tactic.Ring
import Mathlib.Tactic.Linarith

namespace Kvbm

open List

def partsOn (axis : KvDim) (localExtent remoteExtent : Nat) (xs : List AxisIntersection) :
    List AxisIntersection :=
  if xs.any (·.dim = axis) then xs.filter (·.dim = axis)
  else [⟨axis, ⟨0, remoteExtent⟩, ⟨0, localExtent⟩⟩]

/-- The parts of an axis that all shards transfer, each with the rank it comes from. -/
def WorkerPullPlan.parts (plan : WorkerPullPlan) (axis : KvDim) (localExtent remoteExtent : Nat)
    (localExtentOf remoteExtentOf : KvDim → Option Nat) :
    Except AxisIntersectionError (List (Nat × AxisIntersection)) :=
  (plan.shards.mapM fun shard =>
    (buildAxisIntersections shard localExtentOf remoteExtentOf).map fun xs =>
      (partsOn axis localExtent remoteExtent xs).map fun x => (shard.remoteRank, x)).map flatten

/-- Parts of rank `r` tile its axis: each coordinate is in one part, and comes from the place of the
global axis that it is at. -/
structure Tiles (globalShard localTp remoteTp r : Nat) (parts : List (Nat × AxisIntersection)) :
    Prop where
  once : ∀ i < globalShard / localTp, parts.countP (fun p => p.2.dstLocal.contains i) = 1
  source : ∀ i < globalShard / localTp, ∀ q x, (q, x) ∈ parts → x.dstLocal.contains i = true →
    ∃ j, x.srcLocal.contains j = true ∧ j - x.srcLocal.start = i - x.dstLocal.start ∧
      q < remoteTp ∧ j < globalShard / remoteTp ∧
      q * (globalShard / remoteTp) + j = r * (globalShard / localTp) + i

theorem WorkerPullPlan.parts_eq {plan : WorkerPullPlan} {axis : KvDim}
    {localExtent remoteExtent : Nat} {localExtentOf remoteExtentOf : KvDim → Option Nat}
    {f : PullShard → List AxisIntersection}
    (hf : ∀ shard ∈ plan.shards,
      buildAxisIntersections shard localExtentOf remoteExtentOf = .ok (f shard)) :
    plan.parts axis localExtent remoteExtent localExtentOf remoteExtentOf =
      .ok (plan.shards.flatMap fun shard =>
        (partsOn axis localExtent remoteExtent (f shard)).map fun x => (shard.remoteRank, x)) := by
  unfold parts
  generalize plan.shards = shards at hf
  rw [flatMap_def]
  refine congrArg (Except.map flatten) (?_ : _ = Except.ok _)
  induction shards with
  | nil => rfl
  | cons shard rest ih =>
    rw [mapM_cons, hf shard mem_cons_self, ih fun s hs => hf s (mem_cons_of_mem _ hs)]
    rfl

/-! ### Tiles of equal length -/

/-- Tiles of equal length cover each coordinate once. -/
theorem countP_tiles {e i n : Nat} (hi : i < n * e) :
    (range n).countP (fun k => k * e ≤ i ∧ i < k * e + e) = 1 := by
  have he : 0 < e := Nat.pos_of_mul_pos_left (Nat.zero_lt_of_lt hi)
  have hcongr : (range n).countP (fun k => k * e ≤ i ∧ i < k * e + e) =
      (range n).countP (fun k => k == i / e) := by
    refine countP_congr fun k _ => ?_
    simp only [decide_eq_true_eq, beq_iff_eq]
    rw [eq_comm, Nat.div_eq_iff he]
    omega
  rw [hcongr]
  exact count_eq_one_of_mem nodup_range (mem_range.mpr ((Nat.div_lt_iff_lt_mul he).mpr hi))

/-! ### The shards of one rank -/

section Rank

variable {axis : KvDim} {r globalShard localTp remoteTp : Nat}
  {localExtentOf remoteExtentOf : KvDim → Option Nat} {plan : WorkerPullPlan}

/-- Fewer local ranks: each pulls whole shards of several remote ranks. -/
theorem tiles_gather (axis : KvDim) (hdvd : localTp ∣ remoteTp) (hGR : remoteTp ∣ globalShard)
    (hr : r < localTp) :
    Tiles globalShard localTp remoteTp r ((range (remoteTp / localTp)).map fun k =>
      (r * (remoteTp / localTp) + k, ⟨axis, ⟨0, globalShard / remoteTp⟩,
        ⟨k * (globalShard / remoteTp),
          k * (globalShard / remoteTp) + globalShard / remoteTp⟩⟩)) := by
  have hmul := (Nat.div_mul_div hGR hdvd).symm
  rw [Nat.mul_comm] at hmul
  have hn : localTp * (remoteTp / localTp) = remoteTp := Nat.mul_div_cancel' hdvd
  generalize remoteTp / localTp = n at hmul hn ⊢
  generalize he : globalShard / remoteTp = e at hmul ⊢
  refine ⟨fun i hi => ?_, fun i hi q x hmem hx => ?_⟩
  · rw [countP_map]
    exact countP_tiles (hmul ▸ hi)
  · obtain ⟨k, hk, heq⟩ := mem_map.mp hmem
    obtain ⟨rfl, rfl⟩ := Prod.mk.inj heq
    have hk := mem_range.mp hk
    simp only [Range.contains, decide_eq_true_eq] at hx ⊢
    have hrank : r * n + n ≤ localTp * n := by
      rw [← Nat.succ_mul]
      exact Nat.mul_le_mul_right n hr
    have hdist : (r * n + k) * e = r * (n * e) + k * e := by rw [Nat.add_mul, Nat.mul_assoc]
    refine ⟨i - k * e, ⟨Nat.zero_le _, by omega⟩, rfl, by omega, by omega, ?_⟩
    rw [he, hdist, hmul]
    omega

/-- More local ranks: each pulls a part of the shard of one remote rank. -/
theorem tiles_split (axis : KvDim) (hL : 0 < localTp) (hdvd : remoteTp ∣ localTp)
    (hGL : localTp ∣ globalShard) (hr : r < localTp) :
    Tiles globalShard localTp remoteTp r
      [(r / (localTp / remoteTp), ⟨axis, ⟨r % (localTp / remoteTp) * (globalShard / localTp),
        r % (localTp / remoteTp) * (globalShard / localTp) + globalShard / localTp⟩,
        ⟨0, globalShard / localTp⟩⟩)] := by
  have hmul := (Nat.div_mul_div hGL hdvd).symm
  rw [Nat.mul_comm] at hmul
  have hn : localTp / remoteTp * remoteTp = localTp := Nat.div_mul_cancel hdvd
  generalize localTp / remoteTp = n at hmul hn ⊢
  generalize he : globalShard / localTp = e at hmul ⊢
  have hpos : 0 < n := by
    refine Nat.pos_of_ne_zero fun hz => ?_
    rw [hz, Nat.zero_mul] at hn
    omega
  refine ⟨fun i hi => ?_, fun i hi q x hmem _ => ?_⟩
  · simp [Range.contains, he ▸ hi]
  · obtain ⟨rfl, rfl⟩ := Prod.mk.inj (mem_singleton.mp hmem)
    rw [he] at hi ⊢
    have hslot : r % n * e + e ≤ n * e := by
      rw [← Nat.succ_mul]
      exact Nat.mul_le_mul_right e (Nat.mod_lt r hpos)
    have hrank : r / n < remoteTp := by
      rwa [Nat.div_lt_iff_lt_mul hpos, Nat.mul_comm, hn]
    have hsum : r / n * (n * e) + r % n * e = r * e := by
      rw [← Nat.mul_assoc, ← Nat.add_mul, Nat.mul_comm (r / n) n, Nat.div_add_mod]
    refine ⟨r % n * e + i, by simp [Range.contains, hi], ?_, hrank, ?_, ?_⟩
    · simp
    · rw [hmul]
      omega
    · rw [hmul]
      omega

/-- **The shards of a rank tile its axis.** -/
theorem computeShards_tiles (hL : 0 < localTp) (hR : 0 < remoteTp)
    (hdvd : localTp ∣ remoteTp ∨ remoteTp ∣ localTp) (hGL : localTp ∣ globalShard)
    (hGR : remoteTp ∣ globalShard) (hr : r < localTp)
    (hl : localExtentOf axis = some (globalShard / localTp))
    (hrem : remoteExtentOf axis = some (globalShard / remoteTp))
    (hplan : plan.shards = computeShards r localTp remoteTp axis (globalShard / localTp)
      (globalShard / remoteTp)) :
    ∃ f : PullShard → List AxisIntersection,
      (∀ shard ∈ plan.shards,
        buildAxisIntersections shard localExtentOf remoteExtentOf = .ok (f shard)) ∧
      Tiles globalShard localTp remoteTp r (plan.shards.flatMap fun shard =>
        (partsOn axis (globalShard / localTp) (globalShard / remoteTp) (f shard)).map
          fun x => (shard.remoteRank, x)) := by
  unfold computeShards at hplan
  rw [hplan]
  split_ifs with heq hlt
  · subst heq
    -- equal degrees: each rank pulls from its namesake
    have htiles := tiles_gather axis (Nat.dvd_refl _) hGL hr
    rw [Nat.div_self hL] at htiles
    refine ⟨fun _ => [], fun shard hs => ?_, by simpa [partsOn] using htiles⟩
    rw [mem_singleton.mp hs]
    rfl
  · have hdvd : localTp ∣ remoteTp := by
      rcases hdvd with h | h
      · exact h
      · exact absurd (Nat.le_of_dvd hL h) (Nat.not_le.mpr hlt)
    refine ⟨fun shard => shard.localSlice.axes.map fun a => ⟨a.1, ⟨0, globalShard / remoteTp⟩, a.2⟩,
      fun shard hs => ?_, ?_⟩
    · obtain ⟨k, -, rfl⟩ := mem_map.mp hs
      simp [buildAxisIntersections, LayoutSlice.onAxis, LayoutSlice.full, intersectLocalSlice,
        Range.len, hrem]
    · have htiles := tiles_gather axis hdvd hGR hr
      rw [map_eq_flatMap] at htiles
      rw [flatMap_map]
      simpa [LayoutSlice.onAxis, partsOn] using htiles
  · have hdvd : remoteTp ∣ localTp := by
      rcases hdvd with h | h
      · exact absurd (Nat.le_antisymm (Nat.le_of_dvd hR h) (Nat.not_lt.mp hlt)) heq
      · exact h
    refine ⟨fun shard => shard.remoteSlice.axes.map fun a => ⟨a.1, a.2, ⟨0, globalShard / localTp⟩⟩,
      fun shard hs => ?_, ?_⟩
    · rw [mem_singleton.mp hs]
      simp [buildAxisIntersections, LayoutSlice.onAxis, LayoutSlice.full, intersectRemoteSlice,
        Range.len, hl]
    · have htiles := tiles_split axis hL hdvd hGL hr
      simpa [LayoutSlice.onAxis, partsOn] using htiles

theorem computeShards_ne_nil (hL : 0 < localTp) {r e e' : Nat} :
    computeShards r localTp remoteTp axis e e' ≠ [] := by
  unfold computeShards
  split_ifs with heq hlt
  · exact cons_ne_nil _ _
  · have hle : localTp ≤ remoteTp := hlt.le
    have hpos : 0 < remoteTp / localTp := Nat.div_pos hle hL
    simp [range_eq_nil, hpos.ne']
  · exact cons_ne_nil _ _

end Rank

/-! ### The whole pull -/

section Pull

variable {own : ParallelismTemplate} {head : ParallelismDescriptor}
  {rest : List ParallelismDescriptor} {header : PullHeader} {refs : List PullRef}
  {globalShard : Nat}

/-- Sizes that the planner accepts. -/
structure Agreed (own : ParallelismTemplate) (head : ParallelismDescriptor)
    (rest : List ParallelismDescriptor) (globalShard : Nat) : Prop where
  localTp : 0 < own.tpSize
  remoteTp : 0 < head.tpSize
  localPp : own.ppSize = 1
  remotePp : head.ppSize = 1
  same : ∀ d ∈ rest, d.tpSize = head.tpSize
  divides : own.tpSize ∣ head.tpSize ∨ head.tpSize ∣ own.tpSize
  extent : extentFor head.globalExtents own.shardAxis = some globalShard
  localShard : own.tpSize ∣ globalShard
  remoteShard : head.tpSize ∣ globalShard

def rankPlan (own : ParallelismTemplate) (head : ParallelismDescriptor) (header : PullHeader)
    (refs : List PullRef) (globalShard r : Nat) : WorkerPullPlan :=
  workerPullPlan header refs (computeShards r own.tpSize head.tpSize own.shardAxis
    (globalShard / own.tpSize) (globalShard / head.tpSize))

theorem Agreed.planPull_eq (ha : Agreed own head rest globalShard) :
    planPullForResources own (head :: rest) header refs =
      .ok (if refs = [] then []
        else (range own.tpSize).map fun r =>
          (r, rankPlan own head header refs globalShard r)) := by
  have hfind : (rest.zipIdx 1).find? (fun d => decide (d.1.tpSize ≠ head.tpSize)) = none := by
    rw [find?_eq_none]
    intro d hd
    simp [ha.same d.1 (fst_mem_of_mem_zipIdx hd)]
  have hco : ¬ (own.tpSize % head.tpSize ≠ 0 ∧ head.tpSize % own.tpSize ≠ 0) := by
    rintro ⟨h1, h2⟩
    rcases ha.divides with h | h
    · exact h2 (Nat.mod_eq_zero_of_dvd h)
    · exact h1 (Nat.mod_eq_zero_of_dvd h)
  unfold planPullForResources
  rw [if_neg ha.localTp.ne', if_neg (not_not.mpr ha.localPp)]
  simp only
  rw [if_neg ha.remoteTp.ne', if_neg (not_not.mpr ha.remotePp), hfind]
  simp only
  rw [if_neg hco]
  by_cases hrefs : refs = []
  · simp [hrefs]
  rw [if_neg (by simpa using hrefs), ha.extent, if_neg hrefs]
  simp only
  rw [if_neg (not_not.mpr (Nat.div_mul_cancel ha.localShard)),
    if_neg (not_not.mpr (Nat.div_mul_cancel ha.remoteShard))]
  refine congrArg Except.ok ?_
  rw [← filterMap_eq_map]
  refine filterMap_congr fun r hr => ?_
  rw [if_neg (by simpa using computeShards_ne_nil ha.localTp)]
  rfl

/-- **A pull fills every local shard exactly once**, each coordinate from the same place of the
global axis, and every plan carries all block references in order.  A pull of no blocks
has no plans. -/
theorem planPull_fills (ha : Agreed own head rest globalShard)
    (localExtentOf remoteExtentOf : KvDim → Option Nat)
    (hl : localExtentOf own.shardAxis = some (globalShard / own.tpSize))
    (hr : remoteExtentOf own.shardAxis = some (globalShard / head.tpSize))
    (remoteInstance : InstanceId) (sourceLayout dstLayout : LogicalLayoutHandle)
    (refs : List PullRef) (opts : WirePullOptions) :
    ∃ plans,
      planPull own (head :: rest) remoteInstance sourceLayout dstLayout refs opts = .ok plans ∧
      plans.map Prod.fst = (if refs = [] then [] else range own.tpSize) ∧
      ∀ r plan, (r, plan) ∈ plans →
        plan.srcBlockIds = refs.map PullRef.srcBlockId ∧
        plan.dstBlockIds = refs.map PullRef.dstBlockId ∧
        (∀ shard ∈ plan.shards, ∃ xs,
          buildAxisIntersections shard localExtentOf remoteExtentOf = .ok xs) ∧
        ∃ parts, plan.parts own.shardAxis (globalShard / own.tpSize) (globalShard / head.tpSize)
          localExtentOf remoteExtentOf = .ok parts ∧
          Tiles globalShard own.tpSize head.tpSize r parts := by
  refine ⟨_, ha.planPull_eq, ?_, ?_⟩
  · split_ifs
    · rfl
    · rw [map_map]
      exact map_id _
  · intro r plan hmem
    split_ifs at hmem with hrefs
    · exact absurd hmem not_mem_nil
    obtain ⟨r', hr', heq⟩ := mem_map.mp hmem
    obtain ⟨rfl, hplan⟩ := Prod.mk.inj heq
    have hshards : plan.shards = computeShards r' own.tpSize head.tpSize own.shardAxis
        (globalShard / own.tpSize) (globalShard / head.tpSize) := hplan ▸ rfl
    obtain ⟨f, hf, htiles⟩ := computeShards_tiles ha.localTp ha.remoteTp ha.divides ha.localShard
      ha.remoteShard (mem_range.mp hr') hl hr hshards
    exact ⟨hplan ▸ rfl, hplan ▸ rfl, fun shard hs => ⟨_, hf shard hs⟩, _,
      WorkerPullPlan.parts_eq hf, htiles⟩

/-- Two local ranks pull from four remote ones. -/
theorem planPull_fills_twoFromFour :
    ∃ plans, planPull ⟨2, 1, .headCount⟩ [⟨4, 1, .headCount, [(.headCount, 8)]⟩] 0 .g2 .g2
        [⟨3, 5⟩] ⟨none, none⟩ = .ok plans ∧
      ∀ r plan, (r, plan) ∈ plans → ∃ parts,
        plan.parts .headCount 4 2 (fun _ => some 4) (fun _ => some 2) = .ok parts ∧
          Tiles 8 2 4 r parts := by
  have hagreed : Agreed ⟨2, 1, .headCount⟩ ⟨4, 1, .headCount, [(.headCount, 8)]⟩ [] 8 :=
    ⟨by decide, by decide, rfl, rfl, nofun, by decide, rfl, by decide, by decide⟩
  obtain ⟨plans, hplans, -, hall⟩ := planPull_fills hagreed (fun _ => some 4) (fun _ => some 2)
    rfl rfl 0 .g2 .g2 [⟨3, 5⟩] ⟨none, none⟩
  exact ⟨plans, hplans, fun r plan hmem => (hall r plan hmem).2.2.2⟩

/-- A pull of no blocks leaves the local shard out: coordinate 0 of rank 0 is in no part. -/
theorem planPull_noBlocks :
    Agreed ⟨1, 1, .headCount⟩ ⟨1, 1, .headCount, [(.headCount, 1)]⟩ [] 1 ∧
      ∃ plans, planPull ⟨1, 1, .headCount⟩ [⟨1, 1, .headCount, [(.headCount, 1)]⟩] 0 .g2 .g2 []
        ⟨none, none⟩ = .ok plans ∧
        ¬∃ plan parts, (0, plan) ∈ plans ∧
          plan.parts .headCount 1 1 (fun _ => some 1) (fun _ => some 1) = .ok parts ∧
          ∃ p ∈ parts, p.2.dstLocal.contains 0 :=
  ⟨⟨by decide, by decide, rfl, rfl, nofun, by decide, rfl, by decide, by decide⟩, [], rfl, by simp⟩

end Pull

end Kvbm
