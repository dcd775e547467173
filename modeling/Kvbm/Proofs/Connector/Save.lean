/-
The save cursor and the scheduler.

The leader advances the cursor of a request from where it stands, by the tokens that the step has
scheduled.  Where the cursor is held back, at the last complete block or at the last bundle
boundary, the tokens beyond it are forgotten.  What is saved is right as long as no step is cut
off like that: it ends within the blocks that are hashed and allocated or begins behind them, and
a bundle step ends on a boundary.
-/
import Kvbm.Connector.Save
import Kvbm.Lib.Outcome
import Kvbm.Lib.Run
import Kvbm.Proofs.Hub.Bundle.Revival

namespace Kvbm.Connector

open Lib Function List Option Hub Hub.Bundle LineageHash BundleResourceLineage

variable {τ H : Type} [Bundle.SequenceHash H] {g : Hashing τ H}

/-! ### Lineages -/

namespace Hashing

/-- The hashes at the positions from `n` on, each with the one before as its parent. -/
def Linked : Option Nat → Nat → List H → Prop
  | _, _, [] => True
  | parent, n, h :: rest =>
    ∃ c, h = Bundle.SequenceHash.new c parent n ∧ Linked (some c) (n + 1) rest

theorem linked_rebase {parent : Option Nat} {n : Nat} {l : List H} :
    Linked parent n (rebase parent n l) := by
  induction l generalizing parent n with
  | nil => trivial
  | cons h rest ih => exact ⟨_, rfl, ih⟩

variable [DecidableEq H] (resource : LogicalResourceId) {l : List H} (g)

include g

theorem linked_checks {parent : Option Nat} {n : Nat} (seen : List H) (h : Linked parent n l)
    (hseen : ∀ a ∈ seen, position a < n) :
    (∀ a ∈ l, mode a ≤ 2) ∧ (∀ e ∈ l.zipIdx n, position e.1 = e.2) ∧
      firstRepeat seen l = none ∧ checkEdges resource l = .ok () := by
  induction l generalizing parent n seen with
  | nil => exact ⟨by simp, by simp, rfl, rfl⟩
  | cons a rest ih =>
    obtain ⟨c, rfl, hrest⟩ := h
    have hpos := g.position_new c parent n
    obtain ⟨hmode, hposition, hrepeat, hedges⟩ := ih (_ :: seen) hrest
      (forall_mem_cons.mpr ⟨by rw [hpos]; exact n.lt_succ_self,
        fun a ha => (hseen a ha).trans n.lt_succ_self⟩)
    refine ⟨forall_mem_cons.mpr ⟨g.mode_new _ _ _, hmode⟩, ?_, ?_, ?_⟩
    · rw [zipIdx_cons, forall_mem_cons]
      exact ⟨hpos, hposition⟩
    · rw [firstRepeat, if_neg fun hmem => (hseen _ hmem).ne hpos, hrepeat]
    · cases rest with
      | nil => rfl
      | cons b rest =>
        obtain ⟨c', rfl, -⟩ := hrest
        rw [checkEdges, g.position_new, g.position_new, if_neg (by simp),
          if_neg (by simp [g.fragment_new c parent]), hedges]

/-- **Hashes that are linked are a lineage.** -/
theorem linked_lineage (h : Linked none 0 l) (hl : l ≠ []) :
    BundleResourceLineage.new resource l = .ok ⟨resource, l⟩ := by
  obtain ⟨hmode, -, hrepeat, hedges⟩ := g.linked_checks resource [] h (by simp)
  have hfind : (l.map mode).find? (2 < ·) = none := by
    refine find?_eq_none.mpr fun m hm => ?_
    obtain ⟨a, ha, rfl⟩ := mem_map.mp hm
    simpa using hmode a ha
  simp [BundleResourceLineage.new, hl, hfind, hrepeat, hedges, Except.map]

/-- **Whole blocks of a resource are projected from a sequence's hashes.** -/
theorem linked_projects {factor : Nat} (h : Linked none 0 l) (hl : l ≠ []) (hfactor : 0 < factor)
    (hdvd : factor ∣ l.length) :
    ∃ lineage, projectFromCanonical resource l factor = .ok lineage := by
  have hposition : l.zipIdx.find? (fun e => position e.1 ≠ e.2) = none :=
    find?_eq_none.mpr fun e he => by
      simpa using (g.linked_checks resource [] h (by simp)).2.1 e he
  have hnth : everyNth factor l ≠ [] := by
    have hlt : factor - 1 < l.length := by
      have := Nat.le_of_dvd (length_pos_of_ne_nil hl) hdvd
      omega
    refine ne_nil_of_mem (mem_map.mpr ⟨(l[factor - 1], factor - 1), mem_filter.mpr ⟨?_, ?_⟩, rfl⟩)
    · exact mk_mem_zipIdx_iff_getElem?.mpr (getElem?_eq_getElem hlt)
    · simp [Nat.sub_add_cancel hfactor]
  have hne : rebase none 0 (everyNth factor l) ≠ [] := by
    obtain ⟨a, rest, heq⟩ := exists_cons_of_ne_nil hnth
    simp [heq, rebase]
  rw [projectFromCanonical, g.linked_lineage resource h hl]
  simp only [Except.bind, if_neg hfactor.ne', hposition, Nat.mod_eq_zero_of_dvd hdvd, ne_eq,
    not_true, if_false, g.linked_lineage resource linked_rebase hne]
  exact ⟨_, rfl⟩

end Hashing

def Offload.pairs : Offload H → List (H × BlockId)
  | blocks pairs => pairs
  | bundle _ => []

namespace RequestSlot

variable {slot slot' : RequestSlot τ H} {identity : CacheIdentity} {before total : Nat}

/-! ### What is saved -/

/-- The blocks handed to the engine since the last eviction. -/
def handed (slot : RequestSlot τ H) : List (H × BlockId) := slot.offloads.flatMap Offload.pairs

/-- The last boundary offered since then, or zero. -/
def lastBoundary (slot : RequestSlot τ H) : Nat :=
  match slot.offloads.getLast? with
  | some (.bundle plan) => plan.key.boundaryTokens
  | _ => 0

def held (slot : RequestSlot τ H) (resource : LogicalResourceId) : List BlockId :=
  (slot.resourceBlockIds resource).getD []

/-- What is handed over is what `total` tokens complete: block `i` once `(i + 1) * blockSize` of
them are there, or the bundle at the largest aligned boundary that is hashed and allocated. -/
def Saved (g : Hashing τ H) (slot : RequestSlot τ H) (total : Nat) : Prop :=
  match slot.identity with
  | none => slot.handed = (slot.assigned g).take (total / g.blockSize)
  | some identity => IsGreatest {m | identity.alignmentTokens ∣ m ∧
      m ≤ min (min total (slot.sequence.length / g.blockSize * g.blockSize))
        (slot.allocationTokens identity)} slot.lastBoundary

/-- The tokens and block ids of what `total` tokens complete have reached the slot. -/
def Supplied (g : Hashing τ H) (slot : RequestSlot τ H) (total : Nat) : Prop :=
  total / g.blockSize ≤ slot.sequence.length / g.blockSize ∧
    match slot.identity with
    | none => total / g.blockSize ≤ slot.blockIds.length
    | some identity => ∀ requirement ∈ identity.resources,
        total / requirement.nativeBlockTokens ≤ (slot.held requirement.resource).length

/-- The native blocks are made of the connector's, and the prefix history has some of its size. -/
def Fits (g : Hashing τ H) (identity : CacheIdentity) : Prop :=
  identity.anchored g = true ∧ ∀ requirement ∈ identity.resources,
    g.blockSize ≤ requirement.nativeBlockTokens ∧ g.blockSize ∣ requirement.nativeBlockTokens

/-- A step from `before` to `total` tokens ends within the blocks that are hashed and allocated, or
begins behind them; a bundle step ends on a boundary. -/
def Regular (g : Hashing τ H) (slot : RequestSlot τ H) (before total : Nat) : Prop :=
  match slot.identity with
  | none =>
    let assigned := min (slot.sequence.length / g.blockSize) slot.blockIds.length
    total ≤ assigned * g.blockSize ∨ assigned * g.blockSize ≤ before
  | some identity => Fits g identity ∧ identity.alignmentTokens ∣ total

theorem length_assigned : (slot.assigned g).length =
    min (slot.sequence.length / g.blockSize) slot.blockIds.length := by
  simp [assigned, hashes]

/-- More tokens and more block ids leave the blocks as they were. -/
theorem assigned_grows (hseq : slot.sequence <+: slot'.sequence)
    (hids : slot.blockIds <+: slot'.blockIds) : slot.assigned g <+: slot'.assigned g := by
  rw [prefix_iff_getElem?] at hids ⊢
  obtain ⟨more, hmore⟩ := hseq
  intro i hi
  rw [length_assigned] at hi
  have hblock : (i + 1) * g.blockSize ≤ slot.sequence.length :=
    (Nat.mul_le_mul_right _ (by omega)).trans (Nat.div_mul_le_self _ _)
  have hi' : i < slot'.sequence.length / g.blockSize := by
    refine lt_of_lt_of_le (b := slot.sequence.length / g.blockSize) (by omega)
      (Nat.div_le_div_right ?_)
    rw [← hmore, length_append]
    exact Nat.le_add_right _ _
  rw [assigned, getElem?_zip_eq_some]
  refine ⟨?_, ?_⟩
  · rw [hashes, getElem?_map, getElem?_range hi']
    have hparent := (Nat.mul_le_mul_right g.blockSize i.le_succ).trans hblock
    simp [assigned, hashes, sequenceHash, ← hmore, take_append_of_le_length hblock,
      take_append_of_le_length hparent]
  · simpa [assigned] using hids i (by omega)

/-! ### Block by block -/

/-- **A regular step advances the cursor to its tokens**, and what it passes is handed over. -/
theorem offloadLegacyStep_spec (hle : slot.evaluatedTokens ≤ total)
    (hsupply : total / g.blockSize ≤ (slot.assigned g).length)
    (hregular : total ≤ (slot.assigned g).length * g.blockSize ∨
      (slot.assigned g).length * g.blockSize ≤ slot.evaluatedTokens)
    (hhanded : slot.handed = (slot.assigned g).take (slot.evaluatedTokens / g.blockSize)) :
    ∃ offloads, slot.offloadLegacyStep g (fun _ => true) total =
        { slot with evaluatedTokens := total, offloads := offloads } ∧
      offloads.flatMap Offload.pairs = (slot.assigned g).take (total / g.blockSize) := by
  have hmono : Monotone (· / g.blockSize) := fun _ _ h => Nat.div_le_div_right h
  have hmin : min total ((slot.assigned g).length * g.blockSize) / g.blockSize =
      total / g.blockSize := by
    refine hmono.map_min.trans ?_
    show min _ (_ * g.blockSize / g.blockSize) = _
    rw [Nat.mul_div_cancel _ g.nonzero, min_eq_left hsupply]
  unfold offloadLegacyStep
  split
  · obtain heq : slot.evaluatedTokens = total := by omega
    exact ⟨_, by rw [← heq], by rw [← heq]; exact hhanded⟩
  simp only
  generalize hA : (slot.assigned g).length * g.blockSize = A at hmin hregular ⊢
  have heval : (if slot.evaluatedTokens ≥ A then total else min total A) = total := by
    split <;> omega
  rw [heval, hmin]
  have hdiv : slot.evaluatedTokens / g.blockSize ≤ total / g.blockSize := hmono hle
  split
  · refine ⟨_, rfl, ?_⟩
    rw [show total / g.blockSize = slot.evaluatedTokens / g.blockSize by omega]
    exact hhanded
  refine ⟨_, rfl, ?_⟩
  rw [if_pos trivial, flatMap_append, flatMap_singleton,
    show slot.offloads.flatMap Offload.pairs = _ from hhanded]
  show _ ++ drop _ _ = _
  nth_rewrite 1 [← min_eq_left hdiv]
  rw [← take_take, take_append_drop]

/-! ### Bundle by bundle -/

theorem native_dvd_alignment {requirement : ResourceRequirement}
    (h : requirement ∈ identity.resources) :
    requirement.nativeBlockTokens ∣ identity.alignmentTokens := by
  unfold CacheIdentity.alignmentTokens
  generalize identity.resources = resources at h
  induction resources with
  | nil => cases h
  | cons r rest ih =>
    rcases mem_cons.mp h with rfl | h
    · exact Nat.dvd_lcm_left _ _
    · exact (ih h).trans (Nat.dvd_lcm_right _ _)

omit [Bundle.SequenceHash H] in
theorem le_allocationTokens {m : Nat} (hne : identity.resources ≠ []) :
    m ≤ slot.allocationTokens identity ↔ ∀ requirement ∈ identity.resources,
      m ≤ (slot.held requirement.resource).length * requirement.nativeBlockTokens := by
  have hheld : ∀ requirement : ResourceRequirement,
      ((slot.resourceBlockIds requirement.resource).map fun ids =>
        ids.length * requirement.nativeBlockTokens).getD 0 =
      (slot.held requirement.resource).length * requirement.nativeBlockTokens := by
    intro requirement
    unfold held
    cases slot.resourceBlockIds requirement.resource <;> simp
  simp only [allocationTokens, hheld]
  cases hmin : (identity.resources.map fun requirement =>
      (slot.held requirement.resource).length * requirement.nativeBlockTokens).min? with
  | none => exact absurd (map_eq_nil_iff.mp (min?_eq_none_iff.mp hmin)) hne
  | some least => rw [getD_some, le_min?_iff hmin, List.forall_mem_map]

theorem Fits.anchor (h : Fits g identity) :
    ∃ requirement ∈ identity.resources, requirement.nativeBlockTokens = g.blockSize := by
  obtain ⟨r, hr, hp⟩ := any_eq_true.mp h.1
  simp only [Bool.and_eq_true, decide_eq_true_eq] at hp
  exact ⟨r, hr, hp.2⟩

theorem linked_hashes (n : Nat) : Hashing.Linked none 0 ((range n).map (slot.sequenceHash g)) := by
  have hfrom : ∀ i, Hashing.Linked (if i = 0 then none else
      some (g.sequenceHash (slot.sequence.take (i * g.blockSize)))) i
        ((range' i n).map (slot.sequenceHash g)) := by
    induction n with
    | zero => exact fun _ => trivial
    | succ n ih => exact fun i => ⟨_, rfl, ih (i + 1)⟩
  rw [range_eq_range']
  exact hfrom 0

section Bundles

variable (hfit : Fits g identity) (hmul : identity.alignmentTokens ∣ total)

include hfit hmul

theorem Fits.dvd : g.blockSize ∣ total := by
  obtain ⟨r, hr, heq⟩ := hfit.anchor
  exact heq ▸ (native_dvd_alignment hr).trans hmul

/-- What a boundary completes covers it. -/
theorem Supplied.covers (hsupply : slot.Supplied g total) (hid : slot.identity = some identity) :
    total ≤ slot.sequence.length / g.blockSize * g.blockSize ∧
      total ≤ slot.allocationTokens identity := by
  obtain ⟨hseq, hids⟩ := hsupply
  rw [hid] at hids
  have hle : ∀ {b n}, b ∣ total → total / b ≤ n → total ≤ n * b := fun hd h =>
    (Nat.div_mul_cancel hd).symm.trans_le (Nat.mul_le_mul_right _ h)
  obtain ⟨anchor, hanchor, -⟩ := hfit.anchor
  exact ⟨hle (hfit.dvd hmul) hseq, (le_allocationTokens (ne_nil_of_mem hanchor)).mpr
    fun r hr => hle ((native_dvd_alignment hr).trans hmul) (hids r hr)⟩

variable [DecidableEq H] (halloc : total ≤ slot.allocationTokens identity)

include halloc

theorem isSome_resourceOffload {canonical : List H} (last : H) {r : ResourceRequirement}
    (hlinked : Hashing.Linked none 0 canonical) (hne : canonical ≠ [])
    (hlength : canonical.length = total / g.blockSize) (hpos : 0 < total)
    (hr : r ∈ identity.resources) : (slot.resourceOffload g canonical last total r).isSome := by
  have hnative : r.nativeBlockTokens ∣ total := (native_dvd_alignment hr).trans hmul
  have hlast : total / r.nativeBlockTokens - 1 < (slot.held r.resource).length := by
    have h1 := Nat.div_pos (Nat.le_of_dvd hpos hnative) r.nonzero
    have h2 := (le_allocationTokens (ne_nil_of_mem hr)).mp halloc r hr
    rw [mul_comm] at h2
    have h3 := Nat.div_le_of_le_mul h2
    omega
  obtain ⟨ids, hids⟩ : ∃ ids, slot.resourceBlockIds r.resource = some ids := by
    cases h : slot.resourceBlockIds r.resource with
    | none => simp [held, h] at hlast
    | some ids => exact ⟨ids, rfl⟩
  obtain ⟨hge, hfine⟩ := hfit.2 r hr
  unfold resourceOffload
  rw [if_neg (by rintro (h | h); exacts [absurd h (Nat.not_lt.mpr hge), h hfine]), hids]
  cases r.role with
  | prefixHistory =>
    obtain ⟨lineage, hproject⟩ := g.linked_projects r.resource hlinked hne
      (Nat.div_pos hge g.nonzero) (hlength ▸ Nat.div_dvd_div hfine hnative)
    simp [hproject, Except.toOption]
  | boundaryCapsule =>
    simp only [held, hids, getD_some] at hlast
    simp [getElem?_eq_getElem hlast]

variable (hseq : total ≤ slot.sequence.length / g.blockSize * g.blockSize)

include hseq

/-- **A boundary that is reached has a plan.** -/
theorem exists_bundlePlan (hpos : 0 < total) :
    ∃ plan, slot.bundlePlan g identity total = some plan ∧ plan.key.boundaryTokens = total := by
  have hcanon : (slot.hashes g).take (total / g.blockSize) =
      (range (total / g.blockSize)).map (slot.sequenceHash g) := by
    rw [mul_comm] at hseq
    rw [hashes, ← map_take, take_range, min_eq_left (Nat.div_le_of_le_mul hseq)]
  have hlinked := slot.linked_hashes (g := g) (total / g.blockSize)
  unfold bundlePlan
  rw [hcanon]
  generalize hl : (range (total / g.blockSize)).map (slot.sequenceHash g) = canonical at hlinked
  have hlength : canonical.length = total / g.blockSize := by simp [← hl]
  have hne : canonical ≠ [] := ne_nil_of_length_pos
    (hlength ▸ Nat.div_pos (Nat.le_of_dvd hpos (hfit.dvd hmul)) g.nonzero)
  have hresources := mapM_eq_filterMap fun r hr =>
    isSome_resourceOffload hfit hmul halloc (canonical.getLast hne) hlinked hne hlength hpos hr
  exact ⟨⟨⟨identity.manifest, canonical.getLast hne, total, hpos⟩, _⟩, by
    simp [getLast?_eq_some_getLast hne, BundleKey.new, hpos, hmul, hresources]
    rfl, rfl⟩

/-- **The boundary that is reached is the last one offered.** -/
theorem offloadBundleStep_spec (hle : slot.evaluatedTokens ≤ total)
    (hlast : slot.lastBoundary = slot.evaluatedTokens) :
    ∃ offloads, slot.offloadBundleStep g (fun _ => true) total identity =
        { slot with evaluatedTokens := total, offloads := offloads } ∧
      lastBoundary { slot with offloads := offloads } = total := by
  have hboundary : slot.boundary g identity total = total := by
    rw [boundary, min_eq_left hseq, min_eq_left halloc, Nat.div_mul_cancel hmul]
  unfold offloadBundleStep
  rw [if_neg (by simp [hfit.1]), hboundary]
  simp only
  split
  · obtain heq : slot.evaluatedTokens = total := by omega
    exact ⟨slot.offloads, by rw [← heq], hlast.trans heq⟩
  · obtain ⟨plan, hplan, hkey⟩ := exists_bundlePlan hfit hmul halloc hseq (by omega)
    rw [hplan]
    simp only [if_true]
    exact ⟨_, rfl, by simp [lastBoundary, hkey]⟩

end Bundles

/-! ### One step -/

/-- What a step that saves nothing does to a slot. -/
structure Grows (slot slot' : RequestSlot τ H) : Prop where
  identity : slot'.identity = slot.identity
  offloads : slot'.offloads = slot.offloads
  evaluatedTokens : slot'.evaluatedTokens = slot.evaluatedTokens
  sequence : slot.sequence <+: slot'.sequence
  blockIds : slot.blockIds <+: slot'.blockIds
  held : ∀ resource, slot.held resource <+: slot'.held resource

theorem syncFull_grows (current ids : List BlockId) : current <+: syncFull current ids := by
  unfold syncFull
  split
  · rename_i h
    rw [prefix_iff_eq_take]
    exact h.2.symm
  · exact prefix_rfl

omit [Bundle.SequenceHash H]

theorem Grows.updateResources (h : Grows slot slot')
    {change : List BlockId → List BlockId → List BlockId}
    (hchange : ∀ current ids, current <+: change current ids)
    {resources : List LogicalResourceId} {groups : List (List BlockId)} :
    Grows slot (slot'.updateResources change resources groups) := by
  unfold RequestSlot.updateResources
  split
  · exact h
  refine { h with held := fun r => (h.held r).trans ?_ }
  unfold RequestSlot.held
  simp only
  generalize slot'.resourceBlockIds = lists
  induction resources.zip groups generalizing lists with
  | nil => exact prefix_rfl
  | cons group rest ih =>
    refine IsPrefix.trans ?_ (ih _)
    by_cases h : r = group.1
    · simpa [h] using hchange _ _
    · simp [h]

theorem sync_grows (slot : RequestSlot τ H) (output : SchedulerOutput τ) (x : Entry τ) :
    Grows slot (slot.sync output x) := by
  have lists : ∀ (tokens : List τ) (ids : List BlockId), slot.sequence <+: tokens →
      slot.blockIds <+: ids → Grows slot { slot with sequence := tokens, blockIds := ids } :=
    fun _ _ htokens hids => ⟨rfl, rfl, rfl, htokens, hids, fun _ => prefix_rfl⟩
  cases x with
  | new => exact (lists _ _ prefix_rfl (syncFull_grows _ _)).updateResources syncFull_grows
  | cached =>
    simp only [sync]
    split
    · exact (lists _ _ (prefix_append _ _) (syncFull_grows _ _)).updateResources syncFull_grows
    · exact (lists _ _ prefix_rfl (prefix_append _ _)).updateResources fun _ _ => prefix_append _ _

variable [Bundle.SequenceHash H] {g : Hashing τ H}

/-- What the cursor stands for when `total` tokens have been reported. -/
structure Kept (g : Hashing τ H) (slot : RequestSlot τ H) (total : Nat) : Prop where
  cursor : slot.evaluatedTokens = total
  blocks : slot.identity = none → total / g.blockSize ≤ (slot.assigned g).length ∧
    slot.handed = (slot.assigned g).take (total / g.blockSize)
  bundles : ∀ identity, slot.identity = some identity → slot.lastBoundary = total ∧
    identity.alignmentTokens ∣ total ∧
      total ≤ slot.sequence.length / g.blockSize * g.blockSize ∧
      total ≤ slot.allocationTokens identity

theorem Kept.fresh (identity : Option CacheIdentity) (tokens : List τ) :
    Kept g { identity := identity, sequence := tokens } 0 where
  cursor := rfl
  blocks := fun _ => by simp [handed]
  bundles := fun _ _ => ⟨rfl, Nat.dvd_zero _, Nat.zero_le _, Nat.zero_le _⟩

theorem Kept.saved (h : slot.Kept g total) : slot.Saved g total := by
  unfold Saved
  cases hid : slot.identity with
  | none => exact (h.blocks hid).2
  | some identity =>
    obtain ⟨hlast, hmul, hseq, halloc⟩ := h.bundles identity hid
    rw [hlast]
    refine ⟨⟨hmul, le_min (le_min le_rfl hseq) halloc⟩, fun m hm => ?_⟩
    exact hm.2.trans ((min_le_left _ _).trans (min_le_left _ _))

theorem Kept.grow (h : slot.Kept g total) (hg : Grows slot slot') : slot'.Kept g total := by
  refine ⟨hg.evaluatedTokens ▸ h.cursor, fun hid => ?_, fun identity hid => ?_⟩
  · obtain ⟨hlen, hhanded⟩ := h.blocks (hg.identity ▸ hid)
    obtain ⟨more, hmore⟩ : slot.assigned g <+: slot'.assigned g :=
      assigned_grows hg.sequence hg.blockIds
    rw [handed, hg.offloads, ← hmore, length_append, take_append_of_le_length hlen]
    exact ⟨hlen.trans (Nat.le_add_right _ _), hhanded⟩
  · obtain ⟨hlast, hmul, hseq, halloc⟩ := h.bundles identity (hg.identity ▸ hid)
    rw [lastBoundary, hg.offloads]
    refine ⟨hlast, hmul, hseq.trans (Nat.mul_le_mul_right _
      (Nat.div_le_div_right hg.sequence.length_le)), ?_⟩
    by_cases hne : identity.resources = []
    · simpa [allocationTokens, hne] using halloc
    · exact (le_allocationTokens hne).mpr fun r hr =>
        ((le_allocationTokens hne).mp halloc r hr).trans
          (Nat.mul_le_mul_right _ (hg.held _).length_le)

/-- **A regular step saves what is due.** -/
theorem Kept.offloadStep [DecidableEq H] (h : slot.Kept g before) (hle : before ≤ total)
    (hsupply : slot.Supplied g total) (hregular : slot.Regular g before total) :
    (slot.offloadStep g (fun _ => true) total).Kept g total := by
  obtain ⟨rfl, hblocks, hbundles⟩ := h
  unfold RequestSlot.offloadStep
  unfold Regular at hregular
  cases hid : slot.identity with
  | none =>
    have hlen : total / g.blockSize ≤ (slot.assigned g).length := by
      have := hsupply.2
      rw [hid] at this
      rw [length_assigned]
      exact le_min hsupply.1 this
    rw [hid] at hregular
    obtain ⟨offloads, heq, hhanded⟩ := offloadLegacyStep_spec hle hlen
      (by rw [length_assigned]; exact hregular) (hblocks hid).2
    simp only [heq]
    exact ⟨rfl, fun _ => ⟨hlen, hhanded⟩, fun _ h => by simp [hid] at h⟩
  | some identity =>
    rw [hid] at hregular
    obtain ⟨hfit, hmul⟩ := hregular
    obtain ⟨hseq, halloc⟩ := Supplied.covers hfit hmul hsupply hid
    obtain ⟨offloads, heq, hlast⟩ :=
      offloadBundleStep_spec hfit hmul halloc hseq hle (hbundles identity hid).1
    simp only [heq]
    refine ⟨rfl, fun h => by simp [hid] at h, fun identity' h' => ?_⟩
    obtain rfl := some.inj (hid.symm.trans h')
    exact ⟨hlast, hmul, hseq, halloc⟩

end RequestSlot

/-! ### Runs -/

namespace Entry

variable (g : Hashing τ H) (output : SchedulerOutput τ) (x : Entry τ) (slot : RequestSlot τ H)
  (before : Nat)

/-- What the scheduler promises: every scheduled token is accepted, and what a step completes has
reached the slot. -/
def Promised : Prop :=
  (if x.plain then x.numComputedTokens = before else before ≤ x.tokens output) ∧
    (slot.sync output x).Supplied g (x.tokens output)

/-- A promised step that is not cut off. -/
def Whole : Prop :=
  x.Promised g output slot before ∧ (slot.sync output x).Regular g before (x.tokens output)

variable {g output x slot before}

theorem Whole.kept [DecidableEq H] (hx : x.Whole g output slot before) (h : slot.Kept g before) :
    ((slot.sync output x).offloadStep g (fun _ => true) (slot.target output x)).Kept g
      (x.tokens output) := by
  obtain ⟨⟨hbefore, hsupply⟩, hregular⟩ := hx
  have htarget : slot.target output x = x.tokens output ∧ before ≤ x.tokens output := by
    unfold RequestSlot.target tokens
    rw [h.cursor]
    split_ifs at hbefore ⊢
    · rw [hbefore]
      exact ⟨rfl, Nat.le_add_right _ _⟩
    · exact ⟨rfl, hbefore⟩
  rw [htarget.1]
  exact (h.grow (slot.sync_grows output x)).offloadStep htarget.2 hsupply hregular

end Entry

namespace Run

variable {w : Run τ H} {id : RequestId}

def Keeps (g : Hashing τ H) (w : Run τ H) : Prop :=
  ∀ id slot, w.slots id = some slot → slot.Kept g (w.reported id)

section

variable (h : Keeps g w)

include h

theorem Keeps.update {slot : Option (RequestSlot τ H)} {total : Nat}
    (hnew : ∀ s, slot = some s → s.Kept g total) :
    Keeps g ⟨update w.slots id slot, update w.reported id total⟩ := by
  intro j s hj
  simp only at hj ⊢
  by_cases hid : j = id
  · subst hid
    rw [update_self] at hj ⊢
    exact hnew s hj
  · rw [update_of_ne hid] at hj ⊢
    exact h j s hj

theorem Keeps.onEvicted : Keeps g (w.onEvicted id) := by
  refine h.update fun s hs => ?_
  obtain ⟨old, -, rfl⟩ := map_eq_some_iff.mp hs
  exact .fresh _ _

theorem Keeps.put {slot : Option (RequestSlot τ H)}
    (hnew : ∀ s, slot = some s → s.Kept g (w.reported id)) :
    Keeps g { w with slots := Function.update w.slots id slot } := by
  simpa only [update_eq_self] using
    (h.update hnew : Keeps g ⟨Function.update w.slots id slot, Function.update w.reported id _⟩)

theorem Keeps.change {f : RequestSlot τ H → RequestSlot τ H}
    (hf : ∀ slot, w.slots id = some slot → RequestSlot.Grows slot (f slot)) :
    Keeps g (w.change id f) := by
  refine h.put fun s hs => ?_
  obtain ⟨old, hold, rfl⟩ := map_eq_some_iff.mp hs
  exact (h id old hold).grow (hf old hold)

end

variable [DecidableEq H]

/-- Every entry meets `P` where the walk gets to it. -/
def Along (g : Hashing τ H) (P : Entry τ → RequestSlot τ H → Nat → Prop)
    (output : SchedulerOutput τ) : Run τ H → List (Entry τ) → Prop
  | _, [] => True
  | w, x :: rest => (∀ slot, w.slots x.reqId = some slot → P x slot (w.reported x.reqId)) ∧
    Along g P output (w.walk g (fun _ => true) output x) rest

/-- A new list of block ids goes on from the one before, and the entries of a step meet `P`. -/
def Obeys (g : Hashing τ H) (P : SchedulerOutput τ → Entry τ → RequestSlot τ H → Nat → Prop)
    (w : Run τ H) : Call τ → Prop
  | .allocate id ids => ∀ slot, w.slots id = some slot → slot.blockIds <+: ids
  | .allocateResources id lists => ∀ slot, w.slots id = some slot →
      ∀ resource, slot.held resource <+: (lists resource).getD []
  | .buildConnectorMeta output => output.totalNumScheduledTokens ≠ 0 →
      Along g (P output) output (output.preemptedReqIds.foldl onEvicted w) output.entries
  | _ => True

/-- The states that a leader gets to whose calls obey and whose engine accepts every offload. -/
def Reached (g : Hashing τ H) (P : SchedulerOutput τ → Entry τ → RequestSlot τ H → Nat → Prop) :
    Run τ H → Prop :=
  ReachableWhile (Obeys g P) (fun w => ∀ id, w.slots id = none)
    fun w call => some (w.step g (fun _ => true) call)

theorem Keeps.walk (h : Keeps g w) {output : SchedulerOutput τ} {entries : List (Entry τ)}
    (halong : Along g (Entry.Whole g output) output w entries) :
    Keeps g (entries.foldl (fun w x => w.walk g (fun _ => true) output x) w) := by
  induction entries generalizing w with
  | nil => exact h
  | cons x rest ih =>
    refine ih (h.update fun s hs => ?_) halong.2
    obtain ⟨old, hold, rfl⟩ := map_eq_some_iff.mp hs
    exact (halong.1 old hold).kept (h x.reqId old hold)

theorem Keeps.step {call : Call τ} (h : Keeps g w) (hcall : w.Obeys g (Entry.Whole g) call) :
    Keeps g (w.step g (fun _ => true) call) := by
  cases call with
  | createSlot id identity tokens =>
    simp only [Run.step]
    split
    · exact h
    refine h.update fun slot hs => ?_
    cases hs
    exact .fresh identity tokens
  | allocate => exact h.change fun slot hs =>
      ⟨rfl, rfl, rfl, prefix_rfl, hcall slot hs, fun _ => prefix_rfl⟩
  | allocateResources => exact h.change fun slot hs =>
      ⟨rfl, rfl, rfl, prefix_rfl, prefix_rfl, hcall slot hs⟩
  | extendTokens => exact h.change fun slot _ =>
      ⟨rfl, rfl, rfl, prefix_append _ _, prefix_rfl, fun _ => prefix_rfl⟩
  | onEvicted => exact h.onEvicted
  | buildConnectorMeta output =>
    have hevicted : Keeps g (output.preemptedReqIds.foldl Run.onEvicted w) :=
      foldlRecOn (motive := Keeps g) _ _ h fun _ hw _ _ => hw.onEvicted
    simp only [Run.step, buildConnectorMeta]
    split_ifs with hzero
    · exact hevicted
    · exact hevicted.walk (hcall hzero)
  | reap => exact h.put (by simp)

/-- **As long as no step is cut off, the blocks handed over are those that are due** after every
call: the cursor follows the scheduler. -/
theorem saved_of_whole (hw : w.Reached g (Entry.Whole g)) :
    ∀ id slot, w.slots id = some slot → slot.Saved g (w.reported id) := by
  have hkeeps : Keeps g w := by
    refine ReachableWhile.invariant hw ?_ ?_
    · intro w hnone id slot hs
      rw [hnone id] at hs
      cases hs
    · rintro w call _ h hcall ⟨⟩
      exact h.step hcall
  exact fun id slot hs => (hkeeps id slot hs).saved

/-! ### Prompts in blocks of four -/

def counting : Hashing Unit BundleDirectory.PlainBlock :=
  ⟨4, by decide, length, fun _ _ _ => Nat.zero_le _, fun _ _ _ => rfl, fun _ _ _ _ => rfl⟩

/-- A prefix history in blocks of four, and a capsule for eight tokens. -/
def paired : CacheIdentity :=
  ⟨1, [⟨0, .prefixHistory, 4, by decide⟩, ⟨1, .boundaryCapsule, 8, by decide⟩]⟩

/-- A step of `n` tokens for each of its requests. -/
def stepOf (n : Nat) (new : List NewRequestData) (cached : List (CachedRequestData Unit)) :
    Call Unit :=
  .buildConnectorMeta ⟨new, cached, fun _ => some n, n, [], [0, 1]⟩

def after (calls : List (Call Unit)) : Run Unit BundleDirectory.PlainBlock :=
  calls.foldl (step counting fun _ => true) ⟨fun _ => none, fun _ => 0⟩

/-- A prompt of ten tokens in one step, and the step that completes the third block. -/
def cutOff : Run Unit BundleDirectory.PlainBlock :=
  after [.createSlot 0 none (replicate 10 ()), stepOf 10 [⟨0, [7, 8, 9], [], 0⟩] [],
    .extendTokens 0 [(), ()], stepOf 2 [] [⟨0, false, none, [], [], 10⟩]]

/-- The first step leaves the cursor at the eighth token, and the two tokens after it are
forgotten: the third block is complete and is not handed over. -/
theorem third_block_not_saved :
    cutOff.Reached counting (Entry.Promised counting) ∧ cutOff.reported 0 = 12 ∧
      ∃ slot, cutOff.slots 0 = some slot ∧ slot.handed = [(⟨4, 0⟩, 7), (⟨8, 1⟩, 8)] ∧
        slot.assigned counting = [(⟨4, 0⟩, 7), (⟨8, 1⟩, 8), (⟨12, 2⟩, 9)] ∧
          ¬slot.Saved counting 12 := by
  simp only [cutOff, after, foldl_cons, foldl_nil]
  refine ⟨.step (.step (.step (.step (.init fun _ => rfl) ?_ rfl) ?_ rfl) ?_ rfl) ?_ rfl, rfl, _,
    rfl, rfl, rfl, ?_⟩
  · trivial
  · intro _
    refine ⟨fun slot hs => ?_, trivial⟩
    cases hs
    exact ⟨Nat.zero_le _, by decide, show 10 / 4 ≤ 3 by decide⟩
  · trivial
  · intro _
    refine ⟨fun slot hs => ?_, trivial⟩
    cases hs
    exact ⟨rfl, by decide, show 12 / 4 ≤ 3 by decide⟩
  · show ¬[(_, _), _] = [_, _, _]
    simp

/-- Two prompts of eight tokens, one of them in bundles, and a block that is completed later. -/
def whole : Run Unit BundleDirectory.PlainBlock :=
  after [.createSlot 0 none (replicate 8 ()), .createSlot 1 (some paired) (replicate 8 ()),
    stepOf 8 [⟨0, [7, 8], [], 0⟩, ⟨1, [], [[4, 5], [6]], 0⟩] [], .extendTokens 0 (replicate 4 ()),
    stepOf 1 [] [⟨0, false, none, [], [], 8⟩], stepOf 3 [] [⟨0, false, none, [9], [], 9⟩]]

theorem whole_saved :
    (∃ slot, whole.slots 0 = some slot ∧ slot.Saved counting 12) ∧
      ∃ slot, whole.slots 1 = some slot ∧ slot.Saved counting 8 := by
  have hreached : whole.Reached counting (Entry.Whole counting) := by
    simp only [whole, after, foldl_cons, foldl_nil]
    refine .step (.step (.step (.step (.step (.step (.init fun _ => rfl) ?_ rfl) ?_ rfl) ?_ rfl)
      ?_ rfl) ?_ rfl) ?_ rfl
    · trivial
    · trivial
    · intro _
      refine ⟨fun slot hs => ?_, fun slot hs => ?_, trivial⟩ <;> cases hs
      · exact ⟨⟨Nat.zero_le _, by decide, show 8 / 4 ≤ 2 by decide⟩, .inl (by decide)⟩
      · exact ⟨⟨Nat.zero_le _, by decide, show ∀ r ∈ paired.resources, _ by decide⟩,
          ⟨by decide, by decide⟩, by decide⟩
    · trivial
    all_goals
      intro _
      refine ⟨fun slot hs => ?_, trivial⟩
      cases hs
    · exact ⟨⟨rfl, by decide, show 9 / 4 ≤ 2 by decide⟩, .inr (by decide)⟩
    · exact ⟨⟨rfl, by decide, show 12 / 4 ≤ 3 by decide⟩, .inl (by decide)⟩
  exact ⟨⟨_, rfl, saved_of_whole hreached 0 _ rfl⟩, _, rfl, saved_of_whole hreached 1 _ rfl⟩

end Run

end Kvbm.Connector
