/-
The hub's projection of a publisher.

Whenever the hub's entry for a publisher is valid, it is what the publisher said: the snapshot of
the installed generation with the batches numbered from its floor up to the last one, all of them
and no other, and nothing the publisher accepted up to then is left out.
-/
import Kvbm.Lib.UpTo
import Kvbm.Proofs.Hub.Tier.Entry
import Kvbm.Proofs.Hub.Tier.Publisher

namespace Kvbm.Hub.Tier

open Lib List Option

variable {H : Type}

namespace Publisher

/-- The batches of one generation numbered up to `seq`. -/
def issuedUpTo (b : Publisher H) (generation seq : Nat) : List (Issue H) :=
  upTo (fun issue => issue.batch.seq) seq (b.issuedIn generation)

variable [DecidableEq H] [LineageHash H] {b b' : Publisher H} {p p' : InstanceProjection H}
  {snapshot : TierPlacementSnapshot H} {limits : ProjectionLimits}

theorem Numbered.risingIn (hb : Numbered b) {generation : Nat} :
    (b.issuedIn generation).Pairwise fun i j => i.batch.seq < j.batch.seq :=
  hb.rising.filter _

/-! ### What the hub has followed -/

/-- A valid entry is the snapshot with the batches after it. -/
structure Follows (b : Publisher H) (snapshot : TierPlacementSnapshot H)
    (p : InstanceProjection H) : Prop where
  manifests : p.manifests = snapshot.lineages
  numbered : (b.issuedUpTo p.installedGeneration p.lastSeq).map (·.batch.seq) =
    range' (snapshot.seqFloor + 1) (p.lastSeq - snapshot.seqFloor)
  replayed : replay snapshot ((b.issuedUpTo p.installedGeneration p.lastSeq).map (·.batch)) =
    some p.placements.view

/-- What is known of an entry at any time. -/
structure Tracked (limits : ProjectionLimits) (b : Publisher H)
    (snapshot : TierPlacementSnapshot H) (p : InstanceProjection H) : Prop where
  pushed : snapshot ∈ b.pushed
  generation : snapshot.snapshotGeneration = p.installedGeneration
  epoch : p.installedEpoch = some b.epoch
  built : ∃ now built, Projection.buildSnapshot limits snapshot b.epoch now = .ok built
  floor : snapshot.seqFloor ≤ p.lastSeq
  last : p.lastSeq < b.sequencer.nextSeq
  follows : p.valid = true → Follows b snapshot p

theorem Moves.grows (h : Moves b b') (hb : Numbered b) :
    (∀ snapshot ∈ b.pushed, snapshot ∈ b'.pushed) ∧
    b.sequencer.nextSeq ≤ b'.sequencer.nextSeq ∧
    ∀ generation seq, seq < b.sequencer.nextSeq →
      b'.issuedUpTo generation seq = b.issuedUpTo generation seq := by
  cases h with
  | burn h =>
    rw [markDivergent_eq h]
    exact ⟨fun _ h => h, le_min (Nat.le_succ _) hb.room, fun _ _ _ => rfl⟩
  | issue =>
    refine ⟨fun _ h => h, Nat.le_succ _, fun generation seq hseq => ?_⟩
    -- the new batch is numbered higher
    rw [issuedUpTo, issuedIn_concat rfl]
    split
    · rw [upTo_append, upTo_of_lt (l := [_]) (by simpa [Sequencer.nextBatch] using hseq),
        append_nil]
      rfl
    · rfl
  | push =>
    exact ⟨fun snapshot h => mem_append.mpr (.inl h), Nat.le_refl _, fun _ _ _ => rfl⟩
  | _ => exact ⟨fun _ h => h, Nat.le_refl _, fun _ _ _ => rfl⟩

theorem Tracked.moves (hp : Tracked limits b snapshot p) (hb : Numbered b) (h : Moves b b') :
    Tracked limits b' snapshot p := by
  obtain ⟨hpushed, hnext, hissued⟩ := h.grows hb
  constructor
  case pushed => exact hpushed _ hp.pushed
  case generation => exact hp.generation
  case epoch => rw [hp.epoch, h.key.2]
  case built =>
    rw [h.key.2]
    exact hp.built
  case floor => exact hp.floor
  case last => exact hp.last.trans_le hnext
  case follows =>
    intro hvalid
    obtain ⟨hmanifests, hnumbered, hreplayed⟩ := hp.follows hvalid
    have hsame := hissued p.installedGeneration p.lastSeq hp.last
    exact ⟨hmanifests, by rw [hsame, hnumbered], by rw [hsame, hreplayed]⟩

theorem Tracked.installed (hb : Numbered b) (hpushed : snapshot ∈ b.pushed)
    (hp : Projection.Installed limits snapshot b.epoch p) : Tracked limits b snapshot p := by
  refine ⟨hpushed, hp.generation.symm, hp.epoch, hp.built, hp.seq.symm.le, ?_, fun _ => ?_⟩
  · rw [hp.seq]
    exact (hb.pushed snapshot hpushed).2.2.2
  · -- every batch of this generation is numbered above the floor
    have hnone : b.issuedUpTo p.installedGeneration p.lastSeq = [] := by
      refine upTo_of_lt fun issue hi => ?_
      obtain ⟨hi, hgen⟩ := mem_filter.mp hi
      rw [hp.seq]
      refine hb.floor snapshot hpushed issue hi ?_
      rw [← hp.generation]
      simpa using hgen
    refine ⟨hp.manifests, ?_, ?_⟩
    · rw [hnone, hp.seq, Nat.sub_self]
      rfl
    · rw [hnone, hp.placements]
      rfl

/-- Batches of the publisher are followed; batches of another epoch are not applied. -/
theorem Tracked.delta (hb : Numbered b) (ht : Tracked limits b snapshot p)
    {batch : TierPlacementBatch H}
    (hours : batch.registrationEpoch = b.epoch → ∃ issue ∈ b.issued, issue.batch = batch)
    (h : Delta p batch p') : Tracked limits b snapshot p' := by
  have hkeep : p'.lastSeq = p.lastSeq → (p'.valid = true → Follows b snapshot p') →
      Tracked limits b snapshot p' := by
    intro hseq hfollows
    exact ⟨ht.pushed, by rw [ht.generation, h.generation], by rw [h.epoch, ht.epoch], ht.built,
      hseq ▸ ht.floor, hseq ▸ ht.last, hfollows⟩
  rcases h.effect with ⟨hvalid, hseq⟩ | ⟨hvalid, hseq, hmanifests, hplacements⟩ |
    ⟨hvalid, hvalid', hepoch, hgen, hnext, hseq, hmanifests, hview⟩
  · refine hkeep hseq fun hv => ?_
    rw [hvalid] at hv
    cases hv
  · refine hkeep hseq fun hv => ?_
    obtain ⟨hm, hn, hr⟩ := ht.follows (hvalid ▸ hv)
    exact ⟨by rw [hmanifests, hm], by rw [h.generation, hseq, hn],
      by rw [h.generation, hseq, hr, hplacements]⟩
  · obtain ⟨hm, hn, hr⟩ := ht.follows hvalid
    rw [ht.epoch, some.injEq] at hepoch
    obtain ⟨issue, hi, rfl⟩ := hours hepoch.symm
    have hmem : issue ∈ b.issuedIn p.installedGeneration := mem_filter.mpr ⟨hi, by simp [hgen]⟩
    have hsucc : b.issuedUpTo p.installedGeneration (p.lastSeq + 1) =
        b.issuedUpTo p.installedGeneration p.lastSeq ++ [issue] :=
      upTo_succ hb.risingIn hmem hnext
    have hfloor := ht.floor
    refine ⟨ht.pushed, by rw [ht.generation, h.generation], by rw [h.epoch, ht.epoch], ht.built,
      by omega, hseq ▸ (hb.below issue hi).1, fun _ => ⟨by rw [hmanifests, hm], ?_, ?_⟩⟩
    · have hcount : p.lastSeq + 1 - snapshot.seqFloor = p.lastSeq - snapshot.seqFloor + 1 := by
        omega
      rw [h.generation, hseq, hnext, hsucc, map_append, hn, hcount, range'_concat]
      simp only [map_cons, map_nil, hnext]
      congr 2
      omega
    · rw [h.generation, hseq, hnext, hsucc, map_append]
      simp only [map_cons, map_nil]
      rw [replay, foldlM_append, show foldlM _ _ _ = _ from hr]
      simp [← hm, hview]

end Publisher

/-! ### Runs -/

/-- What is known of the publisher and the hub throughout a run. -/
structure Net.Good [DecidableEq H] [LineageHash H] (w : Net H) : Prop where
  numbered : w.publisher.Numbered
  accounts : w.publisher.Accounts
  tracked : ∀ p, w.entry = some p → ∃ snapshot, w.publisher.Tracked w.hub.limits snapshot p

namespace Net.Good

variable [DecidableEq H] [LineageHash H] {w : Net H}

theorem init {cache : CacheManifestId} {instanceId : InstanceId} {epoch : RegistrationEpoch}
    {registered : Finset InstanceId} {limits : ProjectionLimits} :
    Good (Net.init cache instanceId epoch registered limits : Net H) where
  numbered := .new
  accounts := .new
  tracked := by simp [Net.entry, Net.init, Projection.new]

variable (hw : Good w)

include hw

theorem publish {b : Publisher H} (h : Relation.ReflTransGen Publisher.Moves w.publisher b) :
    Good ⟨b, w.hub⟩ := by
  induction h with
  | refl => exact hw
  | tail _ hmoves ih =>
    refine ⟨ih.numbered.moves hmoves, ih.accounts.moves ih.numbered hmoves, fun p hp => ?_⟩
    have hp : w.hub.state.lookup _ = some p := hp
    rw [hmoves.key.1] at hp
    obtain ⟨snapshot, ht⟩ := ih.tracked p hp
    exact ⟨snapshot, ht.moves ih.numbered hmoves⟩

theorem batch {batch : TierPlacementBatch H} {now : Nat}
    (hours : batch.key = w.publisher.key → batch.registrationEpoch = w.publisher.epoch →
      ∃ issue ∈ w.publisher.issued, issue.batch = batch) : Good (w.deliverBatch batch now) := by
  refine ⟨hw.numbered, hw.accounts, fun p' hp' => ?_⟩
  have hlimits : (w.deliverBatch batch now).hub.limits = w.hub.limits :=
    Projection.applyDelta_limits
  rw [hlimits]
  rcases w.hub.applyDelta_lookup with hsame | ⟨hkey, p, q, hp, hq, hdelta⟩
  · exact hw.tracked p' (hsame.symm.trans hp')
  obtain rfl : q = p' := some.inj (hq.symm.trans hp')
  obtain ⟨snapshot, ht⟩ := hw.tracked p hp
  exact ⟨snapshot, ht.delta hw.numbered (hours hkey.symm) hdelta⟩

theorem snapshot {snapshot : TierPlacementSnapshot H} {authorized : RegistrationEpoch} {now : Nat}
    (hours : snapshot.key = w.publisher.key →
      snapshot ∈ w.publisher.pushed ∧ authorized = w.publisher.epoch) :
    Good (w.deliverSnapshot snapshot authorized now) := by
  unfold Net.deliverSnapshot
  split
  · rename_i r hr
    obtain ⟨hlimits, hother, hcases⟩ := Projection.installSnapshot_lookup hr
    refine ⟨hw.numbered, hw.accounts, fun p' hp' => ?_⟩
    show ∃ snapshot, w.publisher.Tracked r.1.limits snapshot p'
    have hp' : r.1.state.lookup w.publisher.key = some p' := hp'
    rw [hlimits]
    by_cases hkey : w.publisher.key = snapshot.key
    · obtain ⟨hpushed, rfl⟩ := hours hkey.symm
      rw [hkey] at hp'
      rcases hcases with ⟨p, hp, hsame, -⟩ | ⟨-, q, hq, hinstalled⟩
      · obtain rfl : p = p' := some.inj (hsame.symm.trans hp')
        rw [← hkey] at hp
        exact hw.tracked p hp
      · obtain rfl : q = p' := some.inj (hq.symm.trans hp')
        exact ⟨snapshot, .installed hw.numbered hpushed hinstalled⟩
    · rw [hother _ hkey] at hp'
      exact hw.tracked p' hp'
  · exact hw

theorem step (a : Action H) : Good (w.step a) := by
  have hmoves := Publisher.step_moves w a
  cases a with
  | deliverBatch =>
    simp only [Net.step]
    split
    · rename_i issue hi
      exact hw.batch fun _ _ => ⟨issue, mem_of_getElem? hi, rfl⟩
    · exact hw
  | deliverSnapshot =>
    simp only [Net.step]
    split
    · rename_i snapshot hi
      exact hw.snapshot fun _ => ⟨mem_of_getElem? hi, rfl⟩
    · exact hw
  | otherBatch batch =>
    simp only [Net.step]
    split
    · rename_i hother
      exact hw.batch fun hkey hepoch => absurd hepoch (hother.resolve_left (not_not.mpr hkey))
    · exact hw
  | otherSnapshot snapshot =>
    simp only [Net.step]
    split
    · rename_i hother
      exact hw.snapshot fun hkey => absurd hkey hother
    · exact hw
  | setRegistered => exact ⟨hw.numbered, hw.accounts, hw.tracked⟩
  | _ => exact hw.publish hmoves

theorem run (actions : List (Action H)) : Good (w.run actions) := by
  induction actions generalizing w with
  | nil => exact hw
  | cons a rest ih => exact ih (hw.step a)

end Net.Good

/-! ### The projection is the publisher's -/

/-- The entry of a publisher is a snapshot it pushed with the batches it issued after that. -/
structure Reflects [DecidableEq H] [LineageHash H] (b : Publisher H) (p : InstanceProjection H)
    (snapshot : TierPlacementSnapshot H) (issues : List (Issue H)) : Prop where
  pushed : snapshot ∈ b.pushed ∧ snapshot.snapshotGeneration = p.installedGeneration
  issued : ∀ issue, issue ∈ issues ↔ issue ∈ b.issued ∧
    issue.batch.snapshotGeneration = p.installedGeneration ∧ issue.batch.seq ≤ p.lastSeq
  /-- One batch for every number above the floor. -/
  numbered : issues.map (·.batch.seq) =
    range' (snapshot.seqFloor + 1) (p.lastSeq - snapshot.seqFloor)
  floor : snapshot.seqFloor ≤ p.lastSeq
  ready : ∃ v, replay snapshot (issues.map (·.batch)) = some v ∧ p.placements.view.ready = v.ready
  /-- What was accepted up to the last batch is in the batches or waits for a later one. -/
  accepted : ∀ issue, issues.getLast? = some issue → issue.accepted = opsOf issues ++ issue.kept

/-- A batch makes no entry and keeps the epoch and the generation of every entry. -/
def DeltaKeeps [DecidableEq H] (t t' : Projection H) : Prop :=
  ∀ k, (t'.state.lookup k).map (fun p => (p.installedEpoch, p.installedGeneration)) =
    (t.state.lookup k).map fun p => (p.installedEpoch, p.installedGeneration)

section Main

variable [DecidableEq H] [LineageHash H]

theorem Publisher.reflects {b : Publisher H} {limits : ProjectionLimits}
    {snapshot : TierPlacementSnapshot H} {p : InstanceProjection H} (hb : b.Numbered)
    (ha : b.Accounts) (ht : b.Tracked limits snapshot p) (hvalid : p.valid = true) :
    Reflects b p snapshot (b.issuedUpTo p.installedGeneration p.lastSeq) := by
  obtain ⟨-, hnumbered, hreplayed⟩ := ht.follows hvalid
  refine ⟨⟨ht.pushed, ht.generation⟩, ?_, hnumbered, ht.floor, ⟨_, hreplayed, rfl⟩, ?_⟩
  · intro issue
    simp only [Publisher.issuedUpTo, upTo, Publisher.issuedIn, mem_filter, decide_eq_true_eq,
      and_assoc]
  · intro issue hlast
    obtain ⟨before, hbefore⟩ := getLast?_eq_some_iff.mp hlast
    obtain ⟨rest, hrest⟩ := upTo_rest (n := p.lastSeq) hb.risingIn
    -- the number of the last batch says that no number before it is missing
    have hcount := congrArg length hnumbered
    have hnumber : issue.batch.seq = snapshot.seqFloor + before.length + 1 := by
      rw [hbefore] at hnumbered hcount
      simp only [map_append, map_cons, map_nil, length_append,
        length_map, length_singleton, length_range'] at hnumbered hcount
      rw [← hcount, range'_concat] at hnumbered
      have := (append_inj' hnumbered rfl).2
      simp only [cons.injEq, and_true] at this
      omega
    have heach := ha.each snapshot ht.pushed
    rw [ht.generation] at heach
    rw [hbefore, opsOf_append]
    have hissued : b.issuedIn p.installedGeneration = before ++ issue :: rest := by
      rw [hrest]
      show b.issuedUpTo _ _ ++ rest = _
      rw [hbefore, append_assoc]
      rfl
    rw [heach before issue rest hissued hnumber]
    simp [opsOf]

/-- **A valid entry of the hub is what its publisher said**, whatever the network lost, repeated,
delayed or reordered; and a batch alone makes no entry and changes no epoch or generation. -/
theorem projection_reflects_publisher (cache : CacheManifestId) (instanceId : InstanceId)
    (epoch : RegistrationEpoch) (registered : Finset InstanceId) (limits : ProjectionLimits)
    (actions : List (Action H)) :
    let w := (Net.init cache instanceId epoch registered limits : Net H).run actions
    (∀ p, w.entry = some p → p.valid = true →
      ∃ snapshot issues, Reflects w.publisher p snapshot issues) ∧
    ∀ (t : Projection H) batch now, DeltaKeeps t (t.applyDelta batch now).1 := by
  refine ⟨fun p hp hvalid => ?_, fun t batch now k => ?_⟩
  · have hgood : Net.Good ((Net.init cache instanceId epoch registered limits).run actions) :=
      Net.Good.init.run actions
    obtain ⟨snapshot, ht⟩ := hgood.tracked p hp
    exact ⟨snapshot, _, Publisher.reflects hgood.numbered hgood.accounts ht hvalid⟩
  · rcases t.applyDelta_lookup with hsame | ⟨-, p, p', hp, hp', hdelta⟩
    · rw [hsame]
    · rw [hp, hp', map_some, map_some, hdelta.epoch, hdelta.generation]

/-- **A publisher says everything once**: until it diverges, the batches of a generation carry,
without a gap, all that it accepted but what still waits. -/
theorem publisher_conserves (cache : CacheManifestId) (instanceId : InstanceId)
    (epoch : RegistrationEpoch) (registered : Finset InstanceId) (limits : ProjectionLimits)
    (actions : List (Action H)) :
    let b := ((Net.init cache instanceId epoch registered limits : Net H).run actions).publisher
    (∀ issue ∈ b.issued, issue.batch.validate = .ok ()) ∧
    ∀ σ ∈ b.pushed, σ.snapshotGeneration = b.sequencer.snapshotGeneration →
      b.sequencer.divergent = false →
      b.sequencer.nextSeq = σ.seqFloor + (b.issuedIn σ.snapshotGeneration).length + 1 ∧
      b.accepted = opsOf (b.issuedIn σ.snapshotGeneration) ++ b.waiting :=
  ⟨fun issue hi => ((Net.Good.init.run actions).numbered.ours issue hi).2.2,
    (Net.Good.init.run actions).accounts.whole⟩

end Main

/-- A hash that is a bare position, for examples. -/
structure PlainHash where
  position : Nat
  deriving DecidableEq, Repr

instance : LineageHash PlainHash := ⟨fun _ => 0, PlainHash.position, fun _ => 0, fun _ _ => 0⟩

/-- A snapshot and one batch have arrived. -/
theorem projection_reflects_publisher_batch : let actions : List (Action PlainHash) :=
      [.snapshot [⟨1, "host", 0⟩] [] [⟨⟨0, 0⟩, 1, .whole, 1, .hashes [⟨0⟩]⟩],
        .deliverSnapshot 0 10, .noteSnapshotInstalled 1,
        .sealBatch 0 [.ready ⟨0, 0⟩ 1 .whole 1 (.hashes [⟨1⟩])], .deliverBatch 0 11]
    let w := (Net.init 0 7 1 {7} .default : Net PlainHash).run actions
    ∃ p, w.entry = some p ∧ p.valid = true ∧ p.lastSeq = 1 ∧
      ∃ snapshot issues, Reflects w.publisher p snapshot issues := by
  intro actions w
  have hentry : w.entry.map (fun p => (p.valid, p.lastSeq)) = some (true, 1) := by decide
  obtain ⟨p, hp, hvalue⟩ := map_eq_some_iff.mp hentry
  obtain ⟨hvalid, hseq⟩ := Prod.mk.inj hvalue
  exact ⟨p, hp, hvalid, hseq,
    (projection_reflects_publisher 0 7 1 {7} .default actions).1 p hp hvalid⟩

/-- Of three operations that come before the snapshot is installed, two are sent in batches. -/
theorem publisher_conserves_waiting : let actions : List (Action PlainHash) :=
      [.snapshot [⟨1, "host", 0⟩] [] [⟨⟨0, 0⟩, 1, .whole, 1, .hashes [⟨0⟩]⟩],
        .sealBatch 0 ([⟨1⟩, ⟨2⟩, ⟨3⟩].map fun h => .ready ⟨0, 0⟩ 1 .whole 1 (.hashes [h])),
        .noteSnapshotInstalled 1, .sealBatch 1 [], .sealBatch 1 []]
    let b := ((Net.init 0 7 1 {7} .default : Net PlainHash).run actions).publisher
    ∃ σ ∈ b.pushed, (b.issuedIn σ.snapshotGeneration).length = 2 ∧ b.waiting.length = 1 ∧
      b.accepted = opsOf (b.issuedIn σ.snapshotGeneration) ++ b.waiting := by
  intro actions b
  have hσ : ⟨1, 0, 7, 1, 1, 0, [⟨1, "host", 0⟩], [], [⟨⟨0, 0⟩, 1, .whole, 1, .hashes [⟨0⟩]⟩]⟩ ∈
      b.pushed := by decide
  exact ⟨_, hσ, by decide, by decide,
    ((publisher_conserves 0 7 1 {7} .default actions).2 _ hσ rfl rfl).2⟩

end Kvbm.Hub.Tier
