/-
External assignments keep the order in which their ids came.

The ids of the three collections, one after the other, are the accepted ids, so moving an id on is
moving the border between two collections.  The hashes of the first two are those of the sequence
from the offset on.
-/
import Kvbm.Lib.Outcome
import Kvbm.Lib.Run
import Kvbm.Sequence.External

namespace Kvbm.Sequence

open Lib List

variable {e : ExternalBlockAssignments} {ids : List BlockId} {blocks : List SequenceHash}

theorem indexInsertAll_new {β : Type} {l new : List (BlockId × β)}
    (h : (l.map Prod.fst ++ new.map Prod.fst).Nodup) : indexInsertAll l new = l ++ new := by
  induction new generalizing l with
  | nil => simp [indexInsertAll]
  | cons p new ih =>
    have hp : p.1 ∉ l.map Prod.fst := fun hm => (nodup_append.mp h).2.2 _ hm _ (by simp) rfl
    have hrest : ((l ++ [p]).map Prod.fst ++ new.map Prod.fst).Nodup := by simpa using h
    simpa [indexInsertAll, indexInsert, hp] using ih hrest

namespace ExternalBlockAssignments

/-! ### Accepting ids -/

theorem collectNew_ok {i : Nat} {newIds out : List BlockId} {first : Option Nat}
    (h : e.collectNew i newIds first ids = .ok out) (hnew : (e.allBlockIds ++ newIds).Nodup)
    (he : e.allBlockIds.Nodup) :
    out = newIds ++ ids.filter (· ∉ e.allBlockIds) ∧ (e.allBlockIds ++ out).Nodup := by
  induction ids generalizing i newIds first with
  | nil =>
    cases h
    exact ⟨by simp, hnew⟩
  | cons id rest ih =>
    simp only [collectNew] at h
    split_ifs at h with hknown hdup
    · split at h
      · cases h
      · simpa [hknown] using ih h hnew
    · obtain ⟨rfl, hout⟩ := ih h (by simp_all [nodup_append]; grind)
      exact ⟨by simp [hknown], hout⟩

theorem collectNew_known {i : Nat} {newIds : List BlockId} (h : ∀ id ∈ ids, id ∈ e.allBlockIds) :
    e.collectNew i newIds none ids = .ok newIds := by
  induction ids generalizing i with
  | nil => rfl
  | cons id rest ih =>
    rw [collectNew, if_pos (h id mem_cons_self)]
    exact ih fun j hj => h j (mem_cons_of_mem id hj)

theorem extendBlockIds_known (h : ∀ id ∈ ids, id ∈ e.allBlockIds) :
    e.extendBlockIds ids = (.ok (), e) := by
  simp [extendBlockIds, collectNew_known h, indexInsertAll]

variable (he : e.allBlockIds.Nodup)

include he

theorem extendBlockIds_ok {u : Unit} (h : (e.extendBlockIds ids).1 = .ok u) :
    (e.extendBlockIds ids).2 = { e with
      unassigned := e.unassigned ++ (ids.filter (· ∉ e.allBlockIds)).map (·, ()) } ∧
    (e.allBlockIds ++ ids.filter (· ∉ e.allBlockIds)).Nodup := by
  rw [extendBlockIds] at h ⊢
  cases hc : e.collectNew 0 [] none ids with
  | error => simp [hc] at h
  | ok out =>
    obtain ⟨hnew, hout⟩ := collectNew_ok hc (by simpa using he) he
    have hfresh : (e.unassigned.map Prod.fst ++ (out.map (·, ())).map Prod.fst).Nodup := by
      rw [allBlockIds, append_assoc] at hout
      simpa [Function.comp_def] using hout.of_append_right
    rw [nil_append] at hnew
    subst hnew
    exact ⟨by simp only [indexInsertAll_new hfresh], hout⟩

/-! ### Staging and committing -/

/-- Staging fails and changes nothing, or moves the next ids on with the next hashes. -/
theorem stagePending_cases (blocks : List SequenceHash) :
    (∃ err, e.stagePending blocks = (.error err, e)) ∨ ∃ (n : Nat) (range : Nat × Nat)
      (new : List (BlockId × SequenceHash)), e.stagePending blocks = (.ok range, { e with
        staged := e.staged ++ new, unassigned := e.unassigned.drop n }) ∧
      new.map Prod.fst = (e.unassigned.take n).map Prod.fst ∧
      new.map Prod.snd <+: blocks.drop e.nextPosition := by
  rw [stagePending]
  split
  · exact .inl ⟨_, rfl⟩
  set n := min (blocks.length - e.nextPosition) e.unassigned.length with hn
  set new := ((e.unassigned.take n).map Prod.fst).zip
    ((blocks.drop e.nextPosition).take n) with hnew
  have hfst : new.map Prod.fst = (e.unassigned.take n).map Prod.fst := by
    rw [hnew, map_fst_zip]
    simp [hn]
  have hfresh : (e.staged.map Prod.fst ++ new.map Prod.fst).Nodup := by
    rw [allBlockIds, append_assoc] at he
    rw [hfst]
    exact he.of_append_right.sublist ((take_sublist n _).map _ |>.append_left _)
  refine .inr ⟨n, _, new, by rw [indexInsertAll_new hfresh], hfst, ?_⟩
  rw [hnew, map_snd_zip (by simp [hn])]
  exact take_prefix _ _

end ExternalBlockAssignments

namespace External

open ExternalBlockAssignments

variable {h h' : History}

structure Keeps (h : History) : Prop where
  ids : h.value.allBlockIds = h.accepted
  distinct : h.accepted.Nodup
  hashes : (h.value.assigned ++ h.value.staged).map Prod.snd <+: h.blocks.drop h.value.offset

theorem Keeps.nodup (hk : Keeps h) : h.value.allBlockIds.Nodup := hk.ids ▸ hk.distinct

theorem Keeps.grown (hk : Keeps h) (hg : h.blocks <+: blocks) : Keeps { h with blocks } :=
  ⟨hk.ids, hk.distinct, hk.hashes.trans (hg.drop _)⟩

theorem Keeps.stagePending (hk : Keeps h) :
    Keeps { h with value := (h.value.stagePending h.blocks).2 } := by
  obtain ⟨err, hs⟩ | ⟨n, range, new, hs, hfst, hsnd⟩ := stagePending_cases hk.nodup h.blocks
  · rw [hs]
    exact hk
  rw [hs]
  refine ⟨?_, hk.distinct, ?_⟩
  · rw [← hk.ids]
    simp [allBlockIds, hfst]
  · obtain ⟨rest, hrest⟩ := hk.hashes
    have hdrop : h.blocks.drop h.value.nextPosition = rest := by
      rw [nextPosition, Nat.add_assoc, ← drop_drop, ← hrest, ← length_append,
        ← length_map Prod.snd, drop_left]
    rw [← hrest, ← append_assoc, map_append]
    exact prefix_append_right_inj _ |>.mpr (hdrop ▸ hsnd)

theorem Keeps.commitStaged (hk : Keeps h) : Keeps { h with value := h.value.commitStaged.2 } := by
  rw [ExternalBlockAssignments.commitStaged, indexInsertAll_new (Nodup.of_append_left hk.nodup)]
  exact ⟨by simpa [allBlockIds] using hk.ids, hk.distinct, by simpa using hk.hashes⟩

theorem keeps_step {c : Call} (hk : Keeps h) (hg : Grows h c) (hs : step h c = some h') :
    Keeps h' := by
  cases c with
  | extendBlockIds ids =>
    rw [step] at hs
    split at hs
    · rename_i err value he
      cases hs
      rw [extendBlockIds] at he
      split at he <;> cases he
      exact hk
    · rename_i u value he
      cases hs
      obtain ⟨hvalue, hnodup⟩ := extendBlockIds_ok hk.nodup (congrArg Prod.fst he)
      obtain rfl : _ = value := hvalue.symm.trans (congrArg Prod.snd he)
      refine ⟨?_, hk.ids ▸ hnodup, hk.hashes⟩
      simp [← hk.ids, allBlockIds, Function.comp_def]
  | stagePending =>
    cases hs
    exact (hk.grown hg).stagePending
  | commitStaged =>
    cases hs
    exact hk.commitStaged
  | assignPending =>
    cases hs
    have hst := (hk.grown hg).stagePending
    simp only [assignPending]
    split
    · rename_i err value he
      rwa [he] at hst
    rename_i range value he
    rw [he] at hst
    exact hst.commitStaged

/-! ### Zips -/

/-- The id at a position, when the ids start at `start`. -/
def idAt (start : Nat) (ids : List BlockId) (pos : Nat) : Option BlockId :=
  if start ≤ pos then ids[pos - start]? else none

/-- The positions that both have an id for, ascending, with the two ids. -/
def Zips (first second : Nat → Option BlockId) (out : Option (List (Nat × BlockId × BlockId))) :
    Prop :=
  ∃ l, out = some l ∧ l.Pairwise (·.1 < ·.1) ∧
    ∀ pos i j, (pos, i, j) ∈ l ↔ first pos = some i ∧ second pos = some j

theorem isSome_idAt {start pos : Nat} :
    (idAt start ids pos).isSome ↔ start ≤ pos ∧ pos < start + ids.length := by
  rw [idAt]
  split_ifs with hle
  · simp [hle]
    omega
  · simp [hle]

theorem getAtPosition_fst :
    (fun pos => (e.getAtPosition pos).map Prod.fst) = idAt e.offset (e.assigned.map Prod.fst) := by
  funext pos
  rw [getAtPosition, idAt]
  split_ifs <;> simp

theorem getPendingAtPosition_eq :
    e.getPendingAtPosition = idAt e.nextPosition (e.unassigned.map Prod.fst) := by
  funext pos
  rw [getPendingAtPosition, idAt]
  split_ifs <;> simp

theorem pair_eq_some {first second : Nat → Option BlockId} {pos : Nat}
    {q : Nat × BlockId × BlockId} :
    ((first pos).bind fun i => (second pos).map fun j => (pos, i, j)) = some q ↔
      q.1 = pos ∧ first pos = some q.2.1 ∧ second pos = some q.2.2 := by
  obtain ⟨p, i, j⟩ := q
  cases first pos <;> cases second pos <;> simp [eq_comm]

theorem zipPositions_zips {a b : Nat} (as bs : List BlockId) :
    Zips (idAt a as) (idAt b bs)
      (zipPositions (max a b) (min (a + as.length) (b + bs.length)) (idAt a as) (idAt b bs)) := by
  have hmem : ∀ pos, pos ∈ range' (max a b) (min (a + as.length) (b + bs.length) - max a b) ↔
      (idAt a as pos).isSome ∧ (idAt b bs pos).isSome := fun pos => by
    rw [mem_range'_1, isSome_idAt, isSome_idAt]
    omega
  refine ⟨_, mapM_eq_filterMap fun pos hpos => ?_, ?_, fun pos i j => ?_⟩
  · obtain ⟨i, hi⟩ := Option.isSome_iff_exists.mp ((hmem pos).mp hpos).1
    simpa [hi] using ((hmem pos).mp hpos).2
  · refine Pairwise.filterMap _ (fun p q hpq x hx y hy => ?_) pairwise_lt_range'
    rwa [(pair_eq_some.mp hx).1, (pair_eq_some.mp hy).1]
  · simp only [mem_filterMap, hmem, pair_eq_some]
    constructor
    · rintro ⟨p, -, rfl, hp⟩
      exact hp
    · rintro ⟨hi, hj⟩
      exact ⟨pos, by simp [hi, hj], rfl, hi, hj⟩

/-! ### Runs -/

structure PositionsKept (h : History) : Prop where
  /-- Assigned, staged and unassigned ids are the accepted ones in the order of their arrival. -/
  arrival : h.value.allBlockIds = h.accepted
  disjoint : h.accepted.Nodup
  /-- An assigned or staged id has the hash of the block at its position. -/
  hash : ∀ i p, (h.value.assigned ++ h.value.staged)[i]? = some p →
    h.blocks[h.value.offset + i]? = some p.2
  extend_error : ∀ ids err, (h.value.extendBlockIds ids).1 = .error err →
    (h.value.extendBlockIds ids).2 = h.value
  stage_error : ∀ blocks err, (h.value.stagePending blocks).1 = .error err →
    (h.value.stagePending blocks).2 = h.value
  assign_error : ∀ blocks err, (h.value.assignPending blocks).1 = .error err →
    (h.value.assignPending blocks).2 = h.value
  /-- The list of all ids, and one that was just taken, change nothing when they come again. -/
  resend : h.value.extendBlockIds h.accepted = (.ok (), h.value)
  extend_twice : ∀ ids u, (h.value.extendBlockIds ids).1 = .ok u →
    (h.value.extendBlockIds ids).2.extendBlockIds ids = (.ok (), (h.value.extendBlockIds ids).2)
  zips : ∀ b, Zips (idAt h.value.offset (h.value.assigned.map Prod.fst))
    (idAt b.offset (b.assigned.map Prod.fst)) (zipAssigned h.value b)
  zips_pending : ∀ b, Zips (idAt h.value.offset (h.value.assigned.map Prod.fst))
    (idAt b.nextPosition (b.unassigned.map Prod.fst)) (zipAssignedPending h.value b)

/-- **External assignments keep the ids in order and the hashes at their positions**, fail without
a change, take a list they know once more, and zip over the common positions. -/
theorem positions_kept
    (hr : ReachableWhile Grows (fun h => ∃ offset, h = ⟨.new offset, [], []⟩) step h) :
    PositionsKept h := by
  have hk : Keeps h := by
    refine hr.invariant ?_ fun _ _ _ => keeps_step
    rintro _ ⟨offset, rfl⟩
    exact ⟨rfl, nodup_nil, by simp [new]⟩
  refine ⟨hk.ids, hk.distinct, fun i p hp => ?_, fun ids err he => ?_, fun blocks err => ?_,
    fun blocks err => ?_, extendBlockIds_known fun id hid => hk.ids ▸ hid, fun ids u hu => ?_,
    fun b => ?_, fun b => ?_⟩
  · obtain ⟨rest, hrest⟩ := hk.hashes
    have hi : ((h.value.assigned ++ h.value.staged).map Prod.snd)[i]? = some p.2 := by
      rw [getElem?_map, hp]
      rfl
    rw [← getElem?_drop, ← hrest, getElem?_append_left (List.getElem?_eq_some_iff.mp hi).1, hi]
  · rw [extendBlockIds] at he ⊢
    split at he <;> cases he
    rfl
  · obtain ⟨err, hs⟩ | ⟨n, range, new, hs, -⟩ := stagePending_cases hk.nodup blocks <;> simp [hs]
  · obtain ⟨err, hs⟩ | ⟨n, range, new, hs, -⟩ := stagePending_cases hk.nodup blocks <;>
      simp [assignPending, hs]
  · obtain ⟨hvalue, -⟩ := extendBlockIds_ok hk.nodup hu
    refine extendBlockIds_known fun id hid => ?_
    by_cases hknown : id ∈ h.value.allBlockIds <;> simp_all [allBlockIds, Function.comp_def]
  · rw [zipAssigned, getAtPosition_fst, getAtPosition_fst]
    simpa using zipPositions_zips (h.value.assigned.map Prod.fst) (b.assigned.map Prod.fst)
  · rw [zipAssignedPending, getAtPosition_fst, getPendingAtPosition_eq]
    simpa using zipPositions_zips (h.value.assigned.map Prod.fst) (b.unassigned.map Prod.fst)

/-- Two blocks of the sequence become known after the ids, and a third one later. -/
def arrivals : List Call :=
  [.extendBlockIds [7, 8, 9], .stagePending [⟨0, 0, 0, 0⟩, ⟨1, 1, 1, 0⟩, ⟨2, 2, 2, 1⟩],
    .commitStaged, .extendBlockIds [8, 7, 3],
    .assignPending [⟨0, 0, 0, 0⟩, ⟨1, 1, 1, 0⟩, ⟨2, 2, 2, 1⟩, ⟨3, 3, 3, 2⟩]]

theorem positions_kept_arrivals :
    ∃ h, runListWhile Grows step ⟨.new 1, [], []⟩ arrivals = some h ∧
      h.value.assigned = [(7, ⟨1, 1, 1, 0⟩), (8, ⟨2, 2, 2, 1⟩), (9, ⟨3, 3, 3, 2⟩)] ∧
      PositionsKept h := by
  have hrun : runListWhile Grows step ⟨.new 1, [], []⟩ arrivals = some _ := rfl
  exact ⟨_, hrun, rfl, positions_kept (.runListWhile (.init ⟨1, rfl⟩) hrun)⟩

end External

end Kvbm.Sequence
