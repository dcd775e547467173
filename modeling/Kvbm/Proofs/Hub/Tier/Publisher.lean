/-
What a publisher has sealed.

Batches carry rising numbers and the generation of the last snapshot, and every number between a
snapshot and the next is that of a batch unless it was burned.  As long as none was burned, the
batches since the snapshot carry, in order, all operations accepted since.
-/
import Kvbm.Hub.Tier.Net
import Kvbm.Lib.Stepwise

namespace Kvbm.Hub.Tier

open Lib List Sequencer Publisher

variable {H : Type}

/-- The operations of some batches. -/
def opsOf (issues : List (Issue H)) : List (TierPlacementOp H) :=
  issues.flatMap fun issue => issue.batch.ops

@[simp] theorem opsOf_append {l l' : List (Issue H)} : opsOf (l ++ l') = opsOf l ++ opsOf l' := by
  simp [opsOf]

namespace Publisher

/-- The batches of one generation. -/
def issuedIn (b : Publisher H) (generation : Nat) : List (Issue H) :=
  b.issued.filter fun issue => issue.batch.snapshotGeneration = generation

/-! ### What a publisher does -/

/-- The single things a publisher does. -/
inductive Moves [DecidableEq H] [LineageHash H] (b : Publisher H) : Publisher H → Prop
  | release : Moves b { b with sequencer := { b.sequencer with pendingInstall := none } }
  | burn (h : b.sequencer.divergent = false) :
      Moves b { b with sequencer := b.sequencer.markDivergent.1 }
  | drop {kept : List (TierPlacementOp H)} (h : b.sequencer.divergent = true) :
      Moves b { b with waiting := kept }
  | defer (fresh : List (TierPlacementOp H)) :
      Moves b { b with waiting := b.waiting ++ fresh, accepted := b.accepted ++ fresh }
  | issue {fresh ops kept : List (TierPlacementOp H)} (hops : b.waiting ++ fresh = ops ++ kept)
      (hroom : b.sequencer.nextSeq ≠ u64Max)
      (hvalid : (b.sequencer.nextBatch ops).validate = .ok ()) :
      Moves b ⟨{ b.sequencer with nextSeq := b.sequencer.nextSeq + 1 }, kept, b.accepted ++ fresh,
        b.issued ++ [⟨b.sequencer.nextBatch ops, b.accepted ++ fresh, kept⟩], b.pushed⟩
  | push {media : List TierMedium} {manifests : List (TierPlacementManifest H)}
      {entries : List (TierPlacementEntry H)}
      (hvalid : (b.sequencer.nextSnapshot media manifests entries).validate = .ok ()) :
      Moves b ⟨{ b.sequencer with
        snapshotGeneration := b.sequencer.snapshotGeneration + 1
        pendingInstall := some (b.sequencer.snapshotGeneration + 1)
        divergent := false }, b.waiting, b.waiting, b.issued,
        b.pushed ++ [b.sequencer.nextSnapshot media manifests entries]⟩

section Steps

variable [DecidableEq H] [LineageHash H] {b : Publisher H}

theorem sealBatch_moves (n : Nat) {fresh : List (TierPlacementOp H)} :
    b.sealBatch n fresh = b ∨ Moves b (b.sealBatch n fresh) := by
  -- new operations follow only when nothing else is left
  have hall : ∀ fresh : List (TierPlacementOp H), (b.waiting.length ≤ n ∨ fresh = []) →
      b.waiting ++ fresh = b.waiting.take n ++ fresh ++ b.waiting.drop n := by
    rintro fresh (h | rfl)
    · rw [take_of_length_le h, drop_of_length_le h, append_nil]
    · simp
  have hfresh : b.waiting.length ≤ n ∨ (if b.waiting.length ≤ n then fresh else []) = [] := by
    by_cases h : b.waiting.length ≤ n <;> simp [h]
  unfold sealBatch
  simp only
  generalize (if b.waiting.length ≤ n then fresh else []) = fresh at hfresh ⊢
  have hsplit := hall fresh hfresh
  cases hseal : b.sequencer.sealBatch (b.waiting.take n ++ fresh) with
  | none => exact .inl rfl
  | some r =>
    cases r with
    | error => exact .inl rfl
    | ok =>
      right
      unfold Sequencer.sealBatch at hseal
      split at hseal
      · cases hseal
        simp only
        rw [← hsplit]
        exact .defer fresh
      · split at hseal
        · cases hseal
        rename_i hvalid
        split at hseal
        · cases hseal
        rename_i hroom
        cases hseal
        exact .issue hsplit hroom hvalid

theorem snapshot_moves {media : List TierMedium} {manifests : List (TierPlacementManifest H)}
    {entries : List (TierPlacementEntry H)} :
    b.snapshot media manifests entries = b ∨ Moves b (b.snapshot media manifests entries) := by
  unfold snapshot
  cases hsnap : b.sequencer.snapshot media manifests entries with
  | none => exact .inl rfl
  | some r =>
    cases r with
    | error => exact .inl rfl
    | ok =>
      right
      unfold Sequencer.snapshot at hsnap
      split at hsnap
      · cases hsnap
      simp only at hsnap
      split at hsnap
      · cases hsnap
      rename_i hvalid
      cases hsnap
      exact .push hvalid

theorem moves_of {b' : Publisher H} (h : b' = b ∨ Moves b b') :
    Relation.ReflTransGen Moves b b' := by
  rcases h with rfl | h
  · exact .refl
  · exact .single h

theorem burn_moves :
    Relation.ReflTransGen Moves b { b with sequencer := b.sequencer.markDivergent.1 } := by
  cases h : b.sequencer.divergent with
  | true =>
    have hsame : b.sequencer.markDivergent.1 = b.sequencer := by simp [markDivergent, h]
    rw [hsame]
  | false => exact .single (.burn h)

/-- **Every action is made of the single things a publisher does.** -/
theorem step_moves (w : Net H) (a : Action H) :
    Relation.ReflTransGen Moves w.publisher (w.step a).publisher := by
  have hdeliver : ∀ {w' : Net H}, w'.publisher = w.publisher →
      Relation.ReflTransGen Moves w.publisher w'.publisher := fun h => h ▸ .refl
  have hinstall : ∀ snapshot epoch now, (w.deliverSnapshot snapshot epoch now).publisher =
      w.publisher := by
    intro snapshot epoch now
    unfold Net.deliverSnapshot
    split <;> rfl
  cases a with
  | sealBatch n fresh => exact moves_of (sealBatch_moves n)
  | drop kept =>
    simp only [Net.step, Publisher.drop]
    split
    · rename_i h
      exact .single (.drop h.1)
    · exact .refl
  | markDivergent => exact burn_moves
  | abandonPendingSnapshot =>
    simp only [Net.step, Net.onSequencer, abandonPendingSnapshot]
    split
    · exact .refl
    · exact (Relation.ReflTransGen.single .release).trans burn_moves
  | noteSnapshotInstalled =>
    simp only [Net.step, Net.onSequencer, noteSnapshotInstalled]
    split
    · exact .single .release
    · exact .refl
  | snapshot media manifests entries => exact moves_of snapshot_moves
  | deliverBatch | otherBatch =>
    simp only [Net.step]
    split <;> exact .refl
  | deliverSnapshot i now =>
    simp only [Net.step]
    split
    · exact hdeliver (hinstall _ _ now)
    · exact .refl
  | otherSnapshot snapshot epoch now =>
    simp only [Net.step]
    split
    · exact hdeliver (hinstall snapshot epoch now)
    · exact .refl
  | setRegistered => exact .refl

end Steps

/-! ### Numbers and generations -/

/-- How batches and snapshots are numbered. -/
structure Numbered [DecidableEq H] [LineageHash H] (b : Publisher H) : Prop where
  positive : 0 < b.sequencer.nextSeq
  room : b.sequencer.nextSeq ≤ u64Max
  ours : ∀ issue ∈ b.issued, issue.batch.key = b.key ∧ issue.batch.registrationEpoch = b.epoch ∧
    issue.batch.validate = .ok ()
  below : ∀ issue ∈ b.issued, issue.batch.seq < b.sequencer.nextSeq ∧
    issue.batch.snapshotGeneration ≤ b.sequencer.snapshotGeneration
  rising : b.issued.Pairwise fun i j => i.batch.seq < j.batch.seq
  pushed : ∀ snapshot ∈ b.pushed, snapshot.key = b.key ∧ snapshot.registrationEpoch = b.epoch ∧
    snapshot.snapshotGeneration ≤ b.sequencer.snapshotGeneration ∧
    snapshot.seqFloor < b.sequencer.nextSeq
  distinct : b.pushed.Pairwise fun σ τ => σ.snapshotGeneration < τ.snapshotGeneration
  floor : ∀ snapshot ∈ b.pushed, ∀ issue ∈ b.issued,
    issue.batch.snapshotGeneration = snapshot.snapshotGeneration →
      snapshot.seqFloor < issue.batch.seq

section Numbers

variable [DecidableEq H] [LineageHash H] {b b' : Publisher H}

theorem Numbered.new {cache : CacheManifestId} {instanceId : InstanceId}
    {epoch : RegistrationEpoch} : Numbered (new cache instanceId epoch : Publisher H) where
  positive := Nat.one_pos
  room := by simp [Publisher.new, Sequencer.new, u64Max]
  ours := by simp [Publisher.new]
  below := by simp [Publisher.new]
  rising := .nil
  pushed := by simp [Publisher.new]
  distinct := .nil
  floor := by simp [Publisher.new]

theorem Moves.key (h : Moves b b') : b'.key = b.key ∧ b'.epoch = b.epoch := by
  cases h with
  | burn =>
    unfold key epoch markDivergent
    split <;> exact ⟨rfl, rfl⟩
  | _ => exact ⟨rfl, rfl⟩

theorem markDivergent_eq {s : Sequencer} (h : s.divergent = false) :
    s.markDivergent.1 = { s with divergent := true, nextSeq := min (s.nextSeq + 1) u64Max } := by
  simp [markDivergent, h]

variable (hb : Numbered b)

include hb

theorem Numbered.burn (h : b.sequencer.divergent = false) :
    Numbered { b with sequencer := b.sequencer.markDivergent.1 } := by
  rw [markDivergent_eq h]
  have hle : b.sequencer.nextSeq ≤ min (b.sequencer.nextSeq + 1) u64Max :=
    le_min (Nat.le_succ _) hb.room
  refine ⟨hb.positive.trans_le hle, min_le_right _ _, hb.ours, ?_, hb.rising, ?_, hb.distinct,
    hb.floor⟩
  · intro issue hi
    exact ⟨(hb.below issue hi).1.trans_le hle, (hb.below issue hi).2⟩
  · intro snapshot hs
    obtain ⟨hkey, hepoch, hgen, hfloor⟩ := hb.pushed snapshot hs
    exact ⟨hkey, hepoch, hgen, hfloor.trans_le hle⟩

theorem Numbered.issue {ops accepted kept waiting : List (TierPlacementOp H)}
    (hroom : b.sequencer.nextSeq ≠ u64Max)
    (hvalid : (b.sequencer.nextBatch ops).validate = .ok ()) :
    Numbered ⟨{ b.sequencer with nextSeq := b.sequencer.nextSeq + 1 }, waiting, accepted,
      b.issued ++ [⟨b.sequencer.nextBatch ops, accepted, kept⟩], b.pushed⟩ := by
  have hroom := Nat.lt_of_le_of_ne hb.room hroom
  constructor
  case positive => exact Nat.succ_pos _
  case room => exact hroom
  case distinct => exact hb.distinct
  case ours =>
    exact forall_mem_append.mpr ⟨hb.ours, forall_mem_singleton.mpr ⟨rfl, rfl, hvalid⟩⟩
  case below =>
    refine forall_mem_append.mpr ⟨fun issue hi => ?_, forall_mem_singleton.mpr
      ⟨Nat.lt_succ_self _, Nat.le_refl _⟩⟩
    exact ⟨(hb.below issue hi).1.trans (Nat.lt_succ_self _), (hb.below issue hi).2⟩
  case rising =>
    exact pairwise_append.mpr ⟨hb.rising, pairwise_singleton _ _, fun i hi =>
      forall_mem_singleton.mpr (hb.below i hi).1⟩
  case pushed =>
    intro snapshot hs
    obtain ⟨hkey, hepoch, hgen, hfloor⟩ := hb.pushed snapshot hs
    exact ⟨hkey, hepoch, hgen, hfloor.trans (Nat.lt_succ_self _)⟩
  case floor =>
    exact fun snapshot hs => forall_mem_append.mpr ⟨hb.floor snapshot hs,
      forall_mem_singleton.mpr fun _ => (hb.pushed snapshot hs).2.2.2⟩

theorem Numbered.push {media : List TierMedium} {manifests : List (TierPlacementManifest H)}
    {entries : List (TierPlacementEntry H)} {pending : Option Nat}
    {accepted : List (TierPlacementOp H)} :
    Numbered ⟨{ b.sequencer with
        snapshotGeneration := b.sequencer.snapshotGeneration + 1
        pendingInstall := pending
        divergent := false }, b.waiting, accepted, b.issued,
        b.pushed ++ [b.sequencer.nextSnapshot media manifests entries]⟩ := by
  constructor
  case positive => exact hb.positive
  case room => exact hb.room
  case ours => exact hb.ours
  case rising => exact hb.rising
  case below =>
    intro issue hi
    exact ⟨(hb.below issue hi).1, (hb.below issue hi).2.trans (Nat.le_succ _)⟩
  case pushed =>
    refine forall_mem_append.mpr ⟨fun snapshot hs => ?_, forall_mem_singleton.mpr
      ⟨rfl, rfl, Nat.le_refl _, Nat.sub_lt hb.positive Nat.one_pos⟩⟩
    obtain ⟨hkey, hepoch, hgen, hfloor⟩ := hb.pushed snapshot hs
    exact ⟨hkey, hepoch, hgen.trans (Nat.le_succ _), hfloor⟩
  case distinct =>
    exact pairwise_append.mpr ⟨hb.distinct, pairwise_singleton _ _, fun σ hσ =>
      forall_mem_singleton.mpr (Nat.lt_succ_of_le (hb.pushed σ hσ).2.2.1)⟩
  case floor =>
    refine forall_mem_append.mpr ⟨hb.floor, forall_mem_singleton.mpr fun issue hi hgen => ?_⟩
    -- no batch has the new generation yet
    have := (hb.below issue hi).2
    rw [hgen] at this
    exact absurd this (Nat.not_succ_le_self _)

theorem Numbered.moves (h : Moves b b') : Numbered b' := by
  cases h with
  | release | drop =>
    exact ⟨hb.positive, hb.room, hb.ours, hb.below, hb.rising, hb.pushed, hb.distinct, hb.floor⟩
  | burn h => exact hb.burn h
  | defer => exact ⟨hb.positive, hb.room, hb.ours, hb.below, hb.rising, hb.pushed,
      hb.distinct, hb.floor⟩
  | issue hops hroom hvalid => exact hb.issue hroom hvalid
  | push => exact hb.push

theorem Numbered.pushed_unique {σ τ : TierPlacementSnapshot H} (hσ : σ ∈ b.pushed)
    (hτ : τ ∈ b.pushed) (h : σ.snapshotGeneration = τ.snapshotGeneration) : σ = τ := by
  have hnodup : (b.pushed.map (·.snapshotGeneration)).Nodup :=
    pairwise_map.mpr (hb.distinct.imp fun h => Nat.ne_of_lt h)
  exact inj_on_of_nodup_map hnodup hσ hτ h

end Numbers

/-! ### Nothing is left out -/

/-- While no number is burned, the batches since the snapshot carry all that was accepted. -/
structure Accounts (b : Publisher H) : Prop where
  whole : ∀ snapshot ∈ b.pushed, snapshot.snapshotGeneration = b.sequencer.snapshotGeneration →
    b.sequencer.divergent = false →
      b.sequencer.nextSeq =
        snapshot.seqFloor + (b.issuedIn snapshot.snapshotGeneration).length + 1 ∧
      b.accepted = opsOf (b.issuedIn snapshot.snapshotGeneration) ++ b.waiting
  burned : ∀ snapshot ∈ b.pushed, snapshot.snapshotGeneration = b.sequencer.snapshotGeneration →
    b.sequencer.divergent = true → b.sequencer.nextSeq = u64Max ∨
      snapshot.seqFloor + (b.issuedIn snapshot.snapshotGeneration).length + 1 < b.sequencer.nextSeq
  each : ∀ snapshot ∈ b.pushed, Stepwise (fun before issue =>
    issue.batch.seq = snapshot.seqFloor + before.length + 1 →
      issue.accepted = opsOf before ++ issue.batch.ops ++ issue.kept)
    (b.issuedIn snapshot.snapshotGeneration)

section Accounts

variable {b b' : Publisher H}

theorem Accounts.new {cache : CacheManifestId} {instanceId : InstanceId}
    {epoch : RegistrationEpoch} : Accounts (new cache instanceId epoch : Publisher H) where
  whole := by simp [Publisher.new]
  burned := by simp [Publisher.new]
  each := by simp [Publisher.new]

theorem Accounts.burn (ha : Accounts b) (h : b.sequencer.divergent = false) :
    Accounts { b with sequencer := b.sequencer.markDivergent.1 } := by
  rw [markDivergent_eq h]
  refine ⟨fun snapshot hs hgen hd => absurd hd (by simp), ?_, ha.each⟩
  intro snapshot hs hgen _
  obtain ⟨hnext, -⟩ := ha.whole snapshot hs hgen h
  have hnext : b.sequencer.nextSeq = snapshot.seqFloor +
    (issuedIn { b with sequencer := { b.sequencer with
      divergent := true, nextSeq := min (b.sequencer.nextSeq + 1) u64Max } }
      snapshot.snapshotGeneration).length + 1 := hnext
  show min (b.sequencer.nextSeq + 1) u64Max = u64Max ∨
    _ < min (b.sequencer.nextSeq + 1) u64Max
  rw [← hnext]
  omega

theorem issuedIn_concat {b b' : Publisher H} {issue : Issue H} (h : b'.issued = b.issued ++ [issue])
    (generation : Nat) : b'.issuedIn generation =
      if issue.batch.snapshotGeneration = generation then b.issuedIn generation ++ [issue]
      else b.issuedIn generation := by
  unfold issuedIn
  rw [h, filter_append]
  by_cases hg : issue.batch.snapshotGeneration = generation <;> simp [hg]

theorem Accounts.issue (ha : Accounts b) {fresh ops kept : List (TierPlacementOp H)}
    (hops : b.waiting ++ fresh = ops ++ kept) (hroom : b.sequencer.nextSeq ≠ u64Max)
    (hb' : b' = ⟨{ b.sequencer with nextSeq := b.sequencer.nextSeq + 1 }, kept, b.accepted ++ fresh,
      b.issued ++ [⟨b.sequencer.nextBatch ops, b.accepted ++ fresh, kept⟩], b.pushed⟩) :
    Accounts b' := by
  have hissued : b'.issued = b.issued ++ [⟨b.sequencer.nextBatch ops, b.accepted ++ fresh, kept⟩] :=
    by rw [hb']
  have hin : ∀ generation, b'.issuedIn generation =
      if b.sequencer.snapshotGeneration = generation then b.issuedIn generation ++
        [⟨b.sequencer.nextBatch ops, b.accepted ++ fresh, kept⟩] else b.issuedIn generation :=
    issuedIn_concat hissued
  have hpushed : b'.pushed = b.pushed := by rw [hb']
  have hseq : b'.sequencer = { b.sequencer with nextSeq := b.sequencer.nextSeq + 1 } := by rw [hb']
  -- without a burned number the operations are the next ones
  have hnew : ∀ snapshot ∈ b.pushed,
      snapshot.snapshotGeneration = b.sequencer.snapshotGeneration →
      b.sequencer.divergent = false → b.accepted ++ fresh =
        opsOf (b.issuedIn snapshot.snapshotGeneration) ++ ops ++ kept := by
    intro snapshot hs hgen hd
    rw [(ha.whole snapshot hs hgen hd).2, append_assoc, hops, append_assoc]
  constructor
  case whole =>
    intro snapshot hs hgen hd
    rw [hpushed] at hs
    rw [hseq] at hgen hd
    have hgen : snapshot.snapshotGeneration = b.sequencer.snapshotGeneration := hgen
    obtain ⟨hnext, -⟩ := ha.whole snapshot hs hgen hd
    rw [hin, if_pos hgen.symm, hseq, hb']
    refine ⟨by simp only [length_append, length_singleton]; omega, ?_⟩
    rw [opsOf_append]
    simpa [opsOf, nextBatch] using hnew snapshot hs hgen hd
  case burned =>
    intro snapshot hs hgen hd
    rw [hpushed] at hs
    rw [hseq] at hgen hd
    have hgen : snapshot.snapshotGeneration = b.sequencer.snapshotGeneration := hgen
    have hlt := (ha.burned snapshot hs hgen hd).resolve_left hroom
    rw [hin, if_pos hgen.symm, hseq]
    right
    simp only [length_append, length_singleton]
    omega
  case each =>
    intro snapshot hs
    rw [hpushed] at hs
    rw [hin]
    split
    · rename_i hgen
      refine stepwise_concat.mpr ⟨ha.each snapshot hs, fun hnumber => ?_⟩
      have hd : b.sequencer.divergent = false := by
        by_contra hd
        have hlt := (ha.burned snapshot hs hgen.symm (by simpa using hd)).resolve_left hroom
        exact absurd hnumber (Nat.ne_of_gt hlt)
      exact hnew snapshot hs hgen.symm hd
    · exact ha.each snapshot hs

variable [DecidableEq H] [LineageHash H]

theorem Accounts.push (ha : Accounts b) (hb : Numbered b) {media : List TierMedium}
    {manifests : List (TierPlacementManifest H)} {entries : List (TierPlacementEntry H)}
    (hb' : b' = ⟨{ b.sequencer with
        snapshotGeneration := b.sequencer.snapshotGeneration + 1
        pendingInstall := some (b.sequencer.snapshotGeneration + 1)
        divergent := false }, b.waiting, b.waiting, b.issued,
        b.pushed ++ [b.sequencer.nextSnapshot media manifests entries]⟩) : Accounts b' := by
  have hin : ∀ generation, b'.issuedIn generation = b.issuedIn generation := by
    intro generation
    rw [hb']
    rfl
  have hgen' : b'.sequencer.snapshotGeneration = b.sequencer.snapshotGeneration + 1 := by rw [hb']
  have hnone : b.issuedIn (b.sequencer.snapshotGeneration + 1) = [] := by
    refine filter_eq_nil_iff.mpr fun issue hi => ?_
    have := (hb.below issue hi).2
    simp
    omega
  have hcases : ∀ snapshot ∈ b'.pushed,
      snapshot ∈ b.pushed ∧ snapshot.snapshotGeneration ≤ b.sequencer.snapshotGeneration ∨
      snapshot = b.sequencer.nextSnapshot media manifests entries := by
    intro snapshot hs
    rw [hb'] at hs
    rcases mem_append.mp hs with hs | hs
    · exact .inl ⟨hs, (hb.pushed snapshot hs).2.2.1⟩
    · exact .inr (mem_singleton.mp hs)
  constructor
  case whole =>
    intro snapshot hs hgen hd
    rw [hin, hgen, hgen', hnone]
    rcases hcases snapshot hs with ⟨-, hle⟩ | rfl
    · omega
    have hpos := hb.positive
    rw [hb']
    refine ⟨?_, by simp [opsOf]⟩
    simp only [nextSnapshot, lastSeq, length_nil]
    omega
  case burned =>
    intro snapshot hs hgen hd
    rw [hb'] at hd
    cases hd
  case each =>
    intro snapshot hs
    rw [hin]
    rcases hcases snapshot hs with ⟨hs, -⟩ | rfl
    · exact ha.each snapshot hs
    have hgen : (b.sequencer.nextSnapshot media manifests entries).snapshotGeneration =
      b.sequencer.snapshotGeneration + 1 := rfl
    rw [hgen, hnone]
    exact stepwise_nil

theorem Accounts.moves (ha : Accounts b) (hb : Numbered b) (h : Moves b b') : Accounts b' := by
  cases h with
  | release => exact ⟨ha.whole, ha.burned, ha.each⟩
  | burn h => exact ha.burn h
  | drop h =>
    refine ⟨fun snapshot hs hgen hd => ?_, ha.burned, ha.each⟩
    have hd : b.sequencer.divergent = false := hd
    rw [h] at hd
    cases hd
  | defer fresh =>
    refine ⟨fun snapshot hs hgen hd => ?_, ha.burned, ha.each⟩
    obtain ⟨hnext, haccepted⟩ := ha.whole snapshot hs hgen hd
    refine ⟨hnext, ?_⟩
    show b.accepted ++ fresh = opsOf (b.issuedIn _) ++ (b.waiting ++ fresh)
    rw [haccepted, append_assoc]
  | issue hops hroom => exact ha.issue hops hroom rfl
  | push => exact ha.push hb rfl

end Accounts

end Publisher

end Kvbm.Hub.Tier
