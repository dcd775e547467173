/-
What a delivery does to an entry of the hub.

A batch touches only the entry of its publisher, never makes one, and keeps its epoch and its
generation; it either leaves what the entry answers as it is, or stops it from answering, or is the
next batch and is applied.  A snapshot leaves the entry as it is or replaces it.
-/
import Kvbm.Proofs.Hub.Tier.View

namespace Kvbm.Hub.Tier

open Lib

variable {H : Type} [DecidableEq H]

/-- What a batch does to the entry of its publisher. -/
structure Delta (p : InstanceProjection H) (batch : TierPlacementBatch H)
    (p' : InstanceProjection H) : Prop where
  epoch : p'.installedEpoch = p.installedEpoch
  generation : p'.installedGeneration = p.installedGeneration
  effect : p'.valid = false ∧ p'.lastSeq = p.lastSeq ∨
    p'.valid = p.valid ∧ p'.lastSeq = p.lastSeq ∧ p'.manifests = p.manifests ∧
      p'.placements = p.placements ∨
    p.valid = true ∧ p'.valid = true ∧ p.installedEpoch = some batch.registrationEpoch ∧
      batch.snapshotGeneration = p.installedGeneration ∧ batch.seq = p.lastSeq + 1 ∧
      p'.lastSeq = batch.seq ∧ p'.manifests = p.manifests ∧
      p.placements.view.applyBatch p.manifests batch = some p'.placements.view

variable {p p' : InstanceProjection H} {batch : TierPlacementBatch H} {now : Nat}
  {limits : ProjectionLimits}

theorem Delta.refl : Delta p batch p := ⟨rfl, rfl, .inr (.inl ⟨rfl, rfl, rfl, rfl⟩)⟩

theorem applyTo_delta : Delta p batch (applyTo limits p batch now).1 := by
  unfold applyTo
  split_ifs with hepoch hvalid hstale hahead hgap
  · exact ⟨rfl, rfl, .inl ⟨rfl, rfl⟩⟩
  · exact .refl
  · exact .refl
  · exact ⟨rfl, rfl, .inl ⟨rfl, rfl⟩⟩
  · exact ⟨rfl, rfl, .inl ⟨rfl, rfl⟩⟩
  · have hepoch : p.installedEpoch = some batch.registrationEpoch := not_not.mp hepoch
    have hvalid : p.valid = true := by simpa using hvalid
    have hgen : batch.snapshotGeneration = p.installedGeneration :=
      Nat.le_antisymm (not_lt.mp hahead) (not_lt.mp hstale)
    have hseq : batch.seq = p.lastSeq + 1 := not_not.mp (not_or.mp hgap).2
    cases hresolve : resolveOps p.manifests batch.ops with
    | none => exact ⟨rfl, rfl, .inl ⟨rfl, rfl⟩⟩
    | some =>
      simp only
      split_ifs with hroom
      · exact ⟨rfl, rfl, .inl ⟨rfl, rfl⟩⟩
      refine ⟨rfl, rfl, .inr (.inr ⟨hvalid, hvalid, hepoch, hgen, hseq, rfl, rfl, ?_⟩)⟩
      rw [View.applyBatch, hresolve, Option.map_some,
        PlacementSet.view_foldl fun p op => PlacementSet.view_applyOp]

namespace Projection

variable {t : Projection H}

/-- **A batch changes only the entry of its publisher, and makes none.** -/
theorem applyDelta_lookup (t : Projection H) {k : CacheManifestId × InstanceId} :
    (t.applyDelta batch now).1.state.lookup k = t.state.lookup k ∨
    k = batch.key ∧ ∃ p p', t.state.lookup k = some p ∧
      (t.applyDelta batch now).1.state.lookup k = some p' ∧ Delta p batch p' := by
  unfold applyDelta
  split
  · exact .inl rfl
  split
  · exact .inl rfl
  split
  · left
    simp only [requestUnknownSnapshot]
    split <;> rfl
  rename_i p hp
  by_cases hk : k = batch.key
  · right
    subst hk
    refine ⟨rfl, p, _, hp, by rw [Keyed.lookup_insert, if_pos rfl], ?_⟩
    split
    · unfold requestSnapshot
      split
      · exact ⟨applyTo_delta.epoch, applyTo_delta.generation, applyTo_delta.effect⟩
      · exact applyTo_delta
    · exact applyTo_delta
  · exact .inl (by rw [Keyed.lookup_insert, if_neg hk])

theorem applyDelta_limits : (t.applyDelta batch now).1.limits = t.limits := by
  unfold applyDelta
  split
  · rfl
  split
  · rfl
  split
  · simp only [requestUnknownSnapshot]
    split <;> rfl
  · rfl

/-! ### A snapshot -/

variable [LineageHash H] {snapshot : TierPlacementSnapshot H} {authorized : RegistrationEpoch}

/-- The entry a snapshot installs. -/
structure Installed (limits : ProjectionLimits) (snapshot : TierPlacementSnapshot H)
    (authorized : RegistrationEpoch) (p : InstanceProjection H) : Prop where
  epoch : p.installedEpoch = some authorized
  seq : p.lastSeq = snapshot.seqFloor
  generation : p.installedGeneration = snapshot.snapshotGeneration
  valid : p.valid = true
  manifests : p.manifests = snapshot.lineages
  placements : p.placements.view = snapshot.view
  built : ∃ now built, buildSnapshot limits snapshot authorized now = .ok built

/-- **A snapshot leaves an entry that has it already, and replaces any other.** -/
theorem installSnapshot_lookup {r : Projection H × SnapshotInstall}
    (h : t.installSnapshot snapshot authorized now = .ok r) :
    r.1.limits = t.limits ∧ (∀ k, k ≠ snapshot.key → r.1.state.lookup k = t.state.lookup k) ∧
    ((∃ p, t.state.lookup snapshot.key = some p ∧ r.1.state.lookup snapshot.key = some p ∧
        isCurrent p snapshot authorized = true) ∨
      (∀ p, t.state.lookup snapshot.key = some p → isCurrent p snapshot authorized = false) ∧
        ∃ p', r.1.state.lookup snapshot.key = some p' ∧
          Installed t.limits snapshot authorized p') := by
  obtain ⟨built, hbuilt, h⟩ := bind_eq_ok.mp h
  obtain ⟨_, -, h⟩ := bind_eq_ok.mp h
  obtain ⟨hmanifests, hview⟩ := buildSnapshot_view hbuilt
  simp only at h
  split at h
  · rename_i hcurrent
    cases h
    refine ⟨rfl, fun k hk => by rw [Keyed.lookup_insert, if_neg hk], .inl ?_⟩
    cases hp : t.state.lookup snapshot.key with
    | none => simp [hp, isCurrent, InstanceProjection.empty] at hcurrent
    | some p =>
      rw [hp] at hcurrent
      exact ⟨p, rfl, by rw [Keyed.lookup_insert, if_pos rfl]; simp, hcurrent⟩
  · rename_i hcurrent
    cases h
    refine ⟨rfl, fun k hk => by rw [Keyed.lookup_insert, if_neg hk], .inr ⟨?_, ?_⟩⟩
    · intro p hp
      simpa [hp] using hcurrent
    · exact ⟨_, by rw [Keyed.lookup_insert, if_pos rfl],
        ⟨rfl, rfl, rfl, rfl, hmanifests, hview, now, built, hbuilt⟩⟩

/-- A snapshot that was installed is installed again unless the hub has it. -/
theorem installSnapshot_again {p : InstanceProjection H} {now' : Nat}
    {built : (Nat → Option (BundleResourceLineage H)) × PlacementSet H}
    (hbuilt : buildSnapshot t.limits snapshot authorized now' = .ok built)
    (hp : t.state.lookup snapshot.key = some p) :
    ∃ r, t.installSnapshot snapshot authorized now = .ok r := by
  obtain ⟨built', hbuilt'⟩ := buildSnapshot_retime hbuilt
  have hmem : snapshot.key ∈ t.state.keys := by simp [Keyed.mem_keys, hp]
  unfold installSnapshot
  rw [hbuilt']
  simp only [Except.bind, ensure, if_pos (Or.inl hmem)]
  split <;> exact ⟨_, rfl⟩

end Projection

end Kvbm.Hub.Tier
