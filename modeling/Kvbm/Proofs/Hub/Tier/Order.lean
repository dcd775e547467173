/-
The order in which the hub answers.

An entry answers at points: the generation of its snapshot and the number of the last batch.  A
gap stops it from answering, and a snapshot it already had may then be installed again, which sets
it back to the floor of that snapshot.  That is the only step that goes back.
-/
import Kvbm.Proofs.Hub.Tier.Mirror
import Mathlib.Data.Prod.Lex

namespace Kvbm.Hub.Tier

open Lib List Option InstanceProjection Projection

variable {H : Type} [DecidableEq H]

/-- The generation and the last number of an entry, compared in this order. -/
def InstanceProjection.point (p : InstanceProjection H) : Nat ×ₗ Nat :=
  toLex (p.installedGeneration, p.lastSeq)

variable {batch : TierPlacementBatch H} {p p' : InstanceProjection H}

theorem Delta.point_le (h : Delta p batch p') : p.point ≤ p'.point := by
  refine Prod.Lex.toLex_le_toLex.mpr (.inr ⟨h.generation.symm, ?_⟩)
  rcases h.effect with ⟨-, hseq⟩ | ⟨-, hseq, -, -⟩ | ⟨-, -, -, -, hnext, hseq, -, -⟩
  · exact hseq.symm.le
  · exact hseq.symm.le
  · show p.lastSeq ≤ p'.lastSeq
    omega

/-- An entry answers after a batch, or is where it was. -/
theorem Delta.point_eq (h : Delta p batch p') : p'.valid = true ∨ p'.point = p.point := by
  rcases h.effect with ⟨-, hseq⟩ | ⟨-, hseq, -, -⟩ | ⟨-, hvalid, -⟩
  · exact .inr (by rw [point, point, h.generation, hseq])
  · exact .inr (by rw [point, point, h.generation, hseq])
  · exact .inl hvalid

theorem mem_holders {t : Projection H} {key : CacheManifestId × InstanceId} {k : PlacementKey H} :
    (∃ x ∈ t.holders key.1 ⟨k.2.1, k.2.2.1⟩ k.1, x.instanceId = key.2 ∧ x.tier = k.depth) ↔
      ∃ p, t.state.lookup key = some p ∧ p.valid = true ∧ (p.placements.ready.lookup k).isSome := by
  simp only [holders, mem_insertionSort, mem_flatMap, Finset.mem_sort, Finset.mem_image,
    Finset.mem_filter, Keyed.mem_keys]
  constructor
  · rintro ⟨x, ⟨i, -, hx⟩, hi, htier⟩
    unfold answers at hx
    split at hx
    · cases hx
    rename_i p hp
    split_ifs at hx with hvalid
    · obtain ⟨e, he, rfl⟩ := mem_map.mp hx
      obtain ⟨tier, -, hentry⟩ := mem_filterMap.mp he
      obtain ⟨record, hrecord, rfl⟩ := map_eq_some_iff.mp hentry
      cases hi
      cases htier
      exact ⟨p, hp, hvalid, isSome_of_eq_some hrecord⟩
    · cases hx
  · rintro ⟨p, hp, hvalid, hready⟩
    obtain ⟨record, hrecord⟩ := isSome_iff_exists.mp hready
    refine ⟨holder key.2 (k.depth, record), ⟨key.2, ⟨key, by simp [hp], rfl⟩, ?_⟩, rfl, rfl⟩
    simp only [answers, hp, hvalid, if_true]
    refine mem_map_of_mem (mem_filterMap.mpr ⟨k.depth, ?_, map_eq_some_iff.mpr ⟨_, hrecord, rfl⟩⟩)
    exact (Finset.mem_sort _).mpr (p.placements.described k hready)

namespace Net

/-- Where the hub answers for the publisher, if it does. -/
def point (w : Net H) : Option (Nat ×ₗ Nat) :=
  w.entry.bind fun p => if p.valid then some p.point else none

variable {w : Net H} {a : Action H}

theorem point_eq_some {q : Nat ×ₗ Nat} :
    w.point = some q ↔ ∃ p, w.entry = some p ∧ p.valid = true ∧ p.point = q := by
  unfold point
  cases w.entry with
  | none => simp
  | some p => by_cases hv : p.valid = true <;> simp [hv]

/-- A reader is told that the publisher holds a copy. -/
def Visible (w : Net H) (k : PlacementKey H) : Prop :=
  ∃ x ∈ w.hub.holders w.publisher.key.1 ⟨k.2.1, k.2.2.1⟩ k.1,
    x.instanceId = w.publisher.key.2 ∧ x.tier = k.depth

instance (w : Net H) (k : PlacementKey H) : Decidable (w.Visible k) :=
  decidable_of_iff (w.entry.any fun p => p.valid && (p.placements.ready.lookup k).isSome) (by
    unfold Visible
    rw [mem_holders, entry]
    cases w.hub.state.lookup w.publisher.key <;> simp)

variable [LineageHash H]

/-! ### One step -/

/-- What a step does to the entry of the publisher. -/
inductive Turns (w : Net H) (a : Action H) : Prop
  | same (h : (w.step a).entry = w.entry)
  | delta {p p' : InstanceProjection H} {batch : TierPlacementBatch H} (hp : w.entry = some p)
      (hp' : (w.step a).entry = some p') (h : Delta p batch p')
      (ha : ∀ i now, a ≠ .deliverSnapshot i now)
  | install {i now : Nat} {snapshot : TierPlacementSnapshot H} {p' : InstanceProjection H}
      (ha : a = .deliverSnapshot i now) (hi : w.publisher.pushed[i]? = some snapshot)
      (hp' : (w.step a).entry = some p')
      (h : Projection.Installed w.hub.limits snapshot w.publisher.epoch p')
      (hnew : ∀ p, w.entry = some p → isCurrent p snapshot w.publisher.epoch = false)

theorem turns_batch {batch : TierPlacementBatch H} {now : Nat}
    (ha : ∀ i now, a ≠ .deliverSnapshot i now) (h : w.step a = w.deliverBatch batch now) :
    Turns w a := by
  rcases w.hub.applyDelta_lookup with hsame | ⟨-, p, p', hp, hp', hdelta⟩
  · exact .same (by rw [h]; exact hsame)
  · exact .delta hp (by rw [h]; exact hp') hdelta ha

theorem step_turns (hw : Good w) : Turns w a := by
  have hkey : (w.step a).publisher.key = w.publisher.key := by
    have hmoves := Publisher.step_moves w a
    generalize (w.step a).publisher = b at hmoves
    induction hmoves with
    | refl => rfl
    | tail _ hmove ih => exact hmove.key.1.trans ih
  have hpublish : (w.step a).hub.state = w.hub.state → Turns w a := by
    intro hhub
    refine .same ?_
    rw [entry, entry, hkey, hhub]
  cases a with
  | deliverBatch i now =>
    cases hi : w.publisher.issued[i]? with
    | none => exact .same (by simp [step, hi])
    | some issue =>
      have hstep : w.step (.deliverBatch i now) = w.deliverBatch issue.batch now := by
        simp only [step, hi]
      exact turns_batch (by simp) hstep
  | otherBatch batch =>
    by_cases hother : batch.key ≠ w.publisher.key ∨ batch.registrationEpoch ≠ w.publisher.epoch
    · exact turns_batch (by simp) (if_pos hother)
    · exact .same (by rw [step, if_neg hother])
  | deliverSnapshot i now =>
    cases hi : w.publisher.pushed[i]? with
    | none => exact .same (by simp [step, hi])
    | some snapshot =>
      have hstep : w.step (.deliverSnapshot i now) =
          w.deliverSnapshot snapshot w.publisher.epoch now := by simp [step, hi]
      have hsnap := (hw.numbered.pushed snapshot (mem_of_getElem? hi)).1
      cases hr : w.hub.installSnapshot snapshot w.publisher.epoch now with
      | error =>
        refine .same ?_
        rw [hstep, deliverSnapshot, hr]
      | ok r =>
        obtain ⟨-, -, hcases⟩ := installSnapshot_lookup hr
        have hentry : (w.step (.deliverSnapshot i now)).entry = r.1.state.lookup snapshot.key := by
          rw [hstep, deliverSnapshot, hr, hsnap]
          rfl
        rw [hsnap] at hcases hentry
        rcases hcases with ⟨p, hp, hp', -⟩ | ⟨hnew, p', hp', hinstalled⟩
        · exact .same ((hentry.trans hp').trans hp.symm)
        · exact .install rfl hi (hentry.trans hp') hinstalled hnew
  | otherSnapshot snapshot authorized now =>
    by_cases hother : snapshot.key ≠ w.publisher.key
    · have hstep : w.step (.otherSnapshot snapshot authorized now) =
          w.deliverSnapshot snapshot authorized now := by rw [step, if_pos hother]
      refine .same ?_
      rw [hstep, deliverSnapshot]
      split
      · rename_i r hr
        exact (installSnapshot_lookup hr).2.1 _ hother.symm
      · rfl
    · exact .same (by rw [step, if_neg hother])
  | _ => exact hpublish rfl

/-- The step installs a snapshot again after batches that followed it were applied. -/
def Rewinds (w : Net H) : Action H → Prop
  | .deliverSnapshot i _ => ∃ snapshot p, w.publisher.pushed[i]? = some snapshot ∧
      w.entry = some p ∧ p.valid = false ∧
      p.installedGeneration = snapshot.snapshotGeneration ∧ p.lastSeq ≠ snapshot.seqFloor
  | _ => False

theorem point_le_step (hw : Good w) (ha : ¬ Rewinds w a) {p : InstanceProjection H}
    (hp : w.entry = some p) : ∃ p', (w.step a).entry = some p' ∧ p.point ≤ p'.point := by
  cases step_turns hw with
  | same h => exact ⟨p, h.trans hp, le_rfl⟩
  | delta hq hq' hdelta =>
    obtain rfl := some.inj (hp.symm.trans hq)
    exact ⟨_, hq', hdelta.point_le⟩
  | @install i now snapshot p' hact hi hp' hinstalled hnew =>
    obtain ⟨σ, ht⟩ := hw.tracked p hp
    refine ⟨p', hp', Prod.Lex.toLex_le_toLex.mpr ?_⟩
    rw [hinstalled.generation, hinstalled.seq]
    have hcurrent := hnew p hp
    simp only [isCurrent, ht.epoch, true_and, decide_eq_false_iff_not, not_or, not_and] at hcurrent
    rcases Nat.lt_or_eq_of_le (not_lt.mp hcurrent.1) with hlt | heq
    · exact .inl hlt
    -- the hub had this snapshot, and no batch was applied since
    refine .inr ⟨heq, ?_⟩
    by_contra hseq
    refine ha ?_
    rw [hact]
    have hinvalid := hcurrent.2 heq.symm
    exact ⟨snapshot, p, hi, hp, by simpa using hinvalid, heq, fun h => hseq h.le⟩

theorem rewinds_point (hw : Good w) (ha : Rewinds w a) :
    ∃ p q, w.entry = some p ∧ (w.step a).point = some q ∧ q < p.point := by
  cases a with
  | deliverSnapshot i now =>
    obtain ⟨snapshot, p, hi, hp, hinvalid, hgen, hseq⟩ := ha
    obtain ⟨σ, ht⟩ := hw.tracked p hp
    have hmem := mem_of_getElem? hi
    obtain rfl : σ = snapshot := hw.numbered.pushed_unique ht.pushed hmem (ht.generation.trans hgen)
    obtain ⟨now', built, hbuilt⟩ := ht.built
    have hkey := (hw.numbered.pushed σ hmem).1
    have hlookup : w.hub.state.lookup σ.key = some p := by rw [hkey, ← hp, entry]
    obtain ⟨r, hr⟩ : ∃ r, w.hub.installSnapshot σ w.publisher.epoch now = .ok r :=
      installSnapshot_again hbuilt hlookup
    obtain ⟨-, -, hcases⟩ := installSnapshot_lookup hr
    rw [hkey] at hcases
    have hstep : w.step (.deliverSnapshot i now) = { w with hub := r.1 } := by
      simp [step, hi, deliverSnapshot, hr]
    have hfloor := ht.floor
    rcases hcases with ⟨q, hq, -, hcurrent⟩ | ⟨-, q, hq, hinstalled⟩
    · obtain rfl := some.inj (hp.symm.trans hq)
      simp [isCurrent, ht.epoch, hgen, hinvalid] at hcurrent
    refine ⟨p, q.point, hp, ?_, ?_⟩
    · rw [hstep]
      exact point_eq_some.mpr ⟨q, hq, hinstalled.valid, rfl⟩
    · refine Prod.Lex.toLex_lt_toLex.mpr (.inr ⟨?_, ?_⟩)
      · rw [hinstalled.generation, hgen]
      · show q.lastSeq < p.lastSeq
        rw [hinstalled.seq]
        omega
  | _ => exact ha.elim

/-! ### Runs -/

variable {w : Net H} {actions : List (Action H)}

/-- The points at which the hub answers never go back. -/
def NeverBack (w : Net H) (actions : List (Action H)) : Prop :=
  ∀ l1 l2 l3 p q, actions = l1 ++ l2 ++ l3 → (w.run l1).point = some p →
    (w.run (l1 ++ l2)).point = some q → p ≤ q

/-- No snapshot that is older than a point at which the hub answered, and at which a copy that had
been visible was gone, makes that copy visible again. -/
def NoRevival (w : Net H) (actions : List (Action H)) : Prop :=
  ∀ l1 l2 l3 l4 i now snapshot q k,
    actions = l1 ++ l2 ++ l3 ++ Action.deliverSnapshot i now :: l4 →
    (w.run (l1 ++ l2 ++ l3)).publisher.pushed[i]? = some snapshot →
    (w.run l1).Visible k → (w.run (l1 ++ l2)).point = some q → ¬ (w.run (l1 ++ l2)).Visible k →
    toLex (snapshot.snapshotGeneration, snapshot.seqFloor) < q →
    ¬ (w.run (l1 ++ l2 ++ l3)).Visible k →
    ¬ (w.run (l1 ++ l2 ++ l3 ++ [.deliverSnapshot i now])).Visible k

/-- Every point so far is at or before where the entry is. -/
theorem points_le (hw : Good w)
    (h : Stepwise (fun before a => ¬ Rewinds (w.run before) a) actions) :
    ∀ l1 l2 p, actions = l1 ++ l2 → (w.run l1).point = some p →
      ∃ e, (w.run actions).entry = some e ∧ p ≤ e.point := by
  refine h.invariant (I := fun actions => ∀ l1 l2 p, actions = l1 ++ l2 →
    (w.run l1).point = some p → ∃ e, (w.run actions).entry = some e ∧ p ≤ e.point) ?_ ?_
  · intro l1 l2 p hl hp
    obtain ⟨rfl, rfl⟩ := append_eq_nil_iff.mp hl.symm
    obtain ⟨e, he, -, rfl⟩ := point_eq_some.mp hp
    exact ⟨e, he, le_rfl⟩
  · intro l a ih ha l1 l2 p hl hp
    rcases eq_nil_or_concat l2 with rfl | ⟨l2, b, rfl⟩
    · rw [append_nil] at hl
      subst hl
      obtain ⟨e, he, -, rfl⟩ := point_eq_some.mp hp
      exact ⟨e, he, le_rfl⟩
    · rw [concat_eq_append, ← append_assoc] at hl
      obtain ⟨hl, -⟩ := append_inj' hl rfl
      obtain ⟨e, he, hle⟩ := ih l1 l2 p hl hp
      obtain ⟨e', he', hle'⟩ := point_le_step (hw.run l) ha he
      exact ⟨e', by rw [run_concat, he'], hle.trans hle'⟩

theorem point_attained (hw : Good w) (h0 : w.entry = none) :
    ∀ e, (w.run actions).entry = some e →
      ∃ l1 l2, actions = l1 ++ l2 ∧ (w.run l1).point = some e.point := by
  induction actions using reverseRecOn with
  | nil =>
    intro e he
    have he : w.entry = some e := he
    rw [h0] at he
    cases he
  | append_singleton l a ih =>
    intro e he
    have hwhole : e.valid = true → ∃ l1 l2, l ++ [a] = l1 ++ l2 ∧
        (w.run l1).point = some e.point := fun hv =>
      ⟨l ++ [a], [], (append_nil _).symm, point_eq_some.mpr ⟨e, he, hv, rfl⟩⟩
    have hearlier : ∀ e', (w.run l).entry = some e' → e.point = e'.point →
        ∃ l1 l2, l ++ [a] = l1 ++ l2 ∧ (w.run l1).point = some e.point := by
      intro e' he' heq
      obtain ⟨l1, l2, rfl, hp⟩ := ih e' he'
      exact ⟨l1, l2 ++ [a], append_assoc .., heq ▸ hp⟩
    rw [run_concat] at he
    cases step_turns (hw.run l) with
    | same h => exact hearlier e (h ▸ he) rfl
    | delta hp hp' hdelta =>
      obtain rfl := some.inj (he.symm.trans hp')
      exact hdelta.point_eq.elim hwhole (hearlier _ hp)
    | install hact hi hp' hinstalled =>
      obtain rfl := some.inj (he.symm.trans hp')
      exact hwhole hinstalled.valid

theorem neverBack_iff (hw : Good w) (h0 : w.entry = none) :
    NeverBack w actions ↔ Stepwise (fun before a => ¬ Rewinds (w.run before) a) actions := by
  constructor
  · intro h before a after hactions hrewinds
    obtain ⟨p, q, hp, hq, hlt⟩ := rewinds_point (hw.run before) hrewinds
    obtain ⟨l1, l2, rfl, hpoint⟩ := point_attained hw h0 p hp
    refine absurd (h l1 (l2 ++ [a]) after p.point q (by simp [hactions]) hpoint ?_) hlt.not_ge
    rw [← append_assoc, run_concat, hq]
  · intro h l1 l2 l3 p q hactions hp hq
    have hpart : Stepwise (fun before a => ¬ Rewinds (w.run before) a) (l1 ++ l2) := by
      intro before a after hl
      exact h before a (after ++ l3) (by simp [hactions, hl])
    obtain ⟨e, he, hle⟩ := points_le hw hpart l1 l2 p rfl hp
    obtain ⟨e', he', -, rfl⟩ := point_eq_some.mp hq
    obtain rfl := some.inj (he.symm.trans he')
    exact hle

/-- What was not visible becomes visible by a delivery only if the snapshot is installed. -/
theorem visible_installed (hw : Good w) {i now : Nat} {snapshot : TierPlacementSnapshot H}
    {k : PlacementKey H} (hi : w.publisher.pushed[i]? = some snapshot) (hbefore : ¬ w.Visible k)
    (hafter : (w.step (.deliverSnapshot i now)).Visible k) :
    (w.step (.deliverSnapshot i now)).point =
      some (toLex (snapshot.snapshotGeneration, snapshot.seqFloor)) := by
  obtain ⟨p', hp', hvalid, hready⟩ := mem_holders.mp hafter
  cases step_turns hw with
  | same h => exact absurd (mem_holders.mpr ⟨p', h.symm.trans hp', hvalid, hready⟩) hbefore
  | delta hp hq hdelta hne => exact absurd rfl (hne i now)
  | install hact hj hq hinstalled =>
    cases hact
    obtain rfl := some.inj (hi.symm.trans hj)
    refine point_eq_some.mpr ⟨_, hq, hinstalled.valid, ?_⟩
    rw [InstanceProjection.point, hinstalled.generation, hinstalled.seq]

/-- **The hub's answers go back exactly where a snapshot is installed again after batches that
followed it.**  In every run without such a step the points at which the hub answers for the
publisher never go back, and an older snapshot makes no removed copy visible again; in every run
with such a step they do. -/
theorem answers_in_order_iff (cache : CacheManifestId) (instanceId : InstanceId)
    (epoch : RegistrationEpoch) (registered : Finset InstanceId) (limits : ProjectionLimits)
    (actions : List (Action H)) : let w := Net.init cache instanceId epoch registered limits
    (NeverBack w actions ∧ NoRevival w actions) ↔
      Stepwise (fun before a => ¬ Rewinds (w.run before) a) actions := by
  intro w
  have hw : Good w := .init
  have hback : NeverBack w actions ↔ _ := neverBack_iff hw (by simp [w, entry, init, new])
  rw [← hback]
  refine ⟨And.left, fun h => ⟨h, ?_⟩⟩
  intro l1 l2 l3 l4 i now snapshot q k hactions hi _ hq _ hlt hbefore hafter
  rw [run_concat] at hafter
  have hpoint := visible_installed (hw.run (l1 ++ l2 ++ l3)) hi hbefore hafter
  refine absurd (h (l1 ++ l2) (l3 ++ [.deliverSnapshot i now]) l4 q _ (by simp [hactions]) hq ?_)
    hlt.not_ge
  rw [← append_assoc, run_concat, hpoint]

/-- One copy is in the snapshot and removed by the first batch; the second batch is lost. -/
def rewound : List (Action PlainHash) :=
  [.snapshot [⟨1, "host", 0⟩] [] [⟨⟨0, 0⟩, 1, .whole, 1, .hashes [⟨0⟩]⟩],
    .noteSnapshotInstalled 1,
    .sealBatch 0 [.remove ⟨0, 0⟩ 1 1 (.hashes [⟨0⟩])],
    .sealBatch 0 [.ready ⟨0, 0⟩ 1 .whole 1 (.hashes [⟨1⟩])],
    .sealBatch 0 [.ready ⟨0, 0⟩ 1 .whole 1 (.hashes [⟨2⟩])],
    .deliverSnapshot 0 10,
    .deliverBatch 0 11,
    .deliverBatch 2 12]

/-- After the gap the snapshot arrives a second time, and the removed copy is there again. -/
theorem rewound_not_in_order : let w := Net.init 0 7 1 {7} .default
    ¬ (NeverBack w (rewound ++ [.deliverSnapshot 0 13]) ∧
      NoRevival w (rewound ++ [.deliverSnapshot 0 13])) := by
  intro w h
  refine h.2 (rewound.take 6) [.deliverBatch 0 11] [.deliverBatch 2 12] [] 0 13
    ⟨1, 0, 7, 1, 1, 0, [⟨1, "host", 0⟩], [], [⟨⟨0, 0⟩, 1, .whole, 1, .hashes [⟨0⟩]⟩]⟩
    (toLex (1, 1)) (⟨0⟩, 0, 0, 1) rfl ?_ ?_ ?_ ?_ ?_ ?_ ?_ <;> decide

end Net

end Kvbm.Hub.Tier
