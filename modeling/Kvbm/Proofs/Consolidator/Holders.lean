/-
Who holds a block.

An engine holds a block if some hash of its own is mapped to it, and KVBM if it stored the block
and did not remove it since.  The tracker records holders as a set of sources beside the mapping,
so the two agree as long as the mapping of each engine names a block once: removing one of two
names, or pointing the only name of a block at another, leaves the record behind.
-/
import Kvbm.Proofs.Consolidator.Stream

namespace Kvbm.Consolidator

open Lib Function List Option

variable {H B : Type*} [DecidableEq H]

/-! ### Holders -/

/-- The blocks that KVBM stored and did not remove since. -/
def noteKvbm (held : Finset H) : Call H → Finset H
  | .kvbmStore h _ _ _ => insert h held
  | .kvbmRemove h => held.erase h
  | .clearAll => ∅
  | _ => held

def kvbmHeld (calls : List (Call H)) : Finset H := calls.foldl noteKvbm ∅

namespace Tracker

variable (t t' : Tracker H) (held held' : Finset H)

def Holds (s : EventSource) (h : H) : Prop :=
  match s with
  | .kvbm => h ∈ held
  | s => ∃ external, t.externalToSeq (s, external) = some h

def Recorded (s : EventSource) (h : H) : Prop :=
  ∃ state, t.blocks h = some state ∧ s ∈ state.sources

/-- A remove of the block was queued since. -/
def Withdraws (h : H) : Prop := ∃ source, .remove h source ∈ t'.eventQueue.drop t.eventQueue.length

/-- After the call the holders are recorded as they are, and the call queues a remove for the
blocks whose last holder it takes away; a clear stands for the removes of all blocks. -/
structure LetsGo (c : Call H) : Prop where
  recorded : ∀ s h, t'.Recorded s h ↔ t'.Holds held' s h
  withdraws : ∀ h, t.Withdraws t' h ↔
    c ≠ .clearAll ∧ (∃ s, t.Holds held s h) ∧ ¬∃ s, t'.Holds held' s h

/-- What a call must meet: an engine does not point the only name of a block at another block, it
removes only the sole name of a block, and a block that loses its last holder was published. -/
def Orderly (hashing : Hashing H B) : Call H → Prop
  | .store source external parent tokenIds blockSize loraName =>
    ∀ plh old, computePlh hashing (parent.bind fun p => t.externalToSeq (source.tag, p)) tokenIds
        blockSize loraName = some plh →
      t.externalToSeq (source.tag, external) = some old → old ≠ plh →
      ∃ other, other ≠ external ∧ t.externalToSeq (source.tag, other) = some old
  | .remove source external =>
    ∀ h, t.externalToSeq (source.tag, external) = some h →
      (∀ other, t.externalToSeq (source.tag, other) = some h → other = external) ∧
      ((∀ s, t.Holds held s h → s = source.tag) → t.published h = true)
  | .kvbmRemove h =>
    t.Holds held .kvbm h → (∀ s, t.Holds held s h → s = .kvbm) → t.published h = true
  | _ => True

variable {t t' held held'} {p : H}

/-- The record agrees with the holders, and every tracked block has one. -/
structure Kept (t : Tracker H) (held : Finset H) : Prop where
  recorded : ∀ s h, t.Recorded s h ↔ t.Holds held s h
  nonempty : ∀ h state, t.blocks h = some state → state.sources.Nonempty

variable {h : H} {s : EventSource} {state : BlockState} {c : Call H} {external : String}
  {events : List (ConsolidatedEvent H)} {source : EventSource} {hashing : Hashing H B}

omit [DecidableEq H] in
theorem holds_tag {source : EngineSource} :
    t.Holds held source.tag h ↔ ∃ external, t.externalToSeq (source.tag, external) = some h := by
  cases source <;> rfl

omit [DecidableEq H] in
theorem holds_update {source : EngineSource} {name : Option H}
    (hext : t'.externalToSeq = update t.externalToSeq (source.tag, external) name) :
    t'.Holds held s h ↔ if s = source.tag then
      name = some h ∨ ∃ e ≠ external, t.externalToSeq (source.tag, e) = some h
    else t.Holds held s h := by
  split_ifs with hs
  · rw [hs, holds_tag, hext]
    constructor
    · intro ⟨e, he⟩
      by_cases hee : e = external
      · exact .inl (by simpa [hee] using he)
      · exact .inr ⟨e, hee, by simpa [hee] using he⟩
    · rintro (hname | ⟨e, hee, he⟩)
      · exact ⟨external, by simpa using hname⟩
      · exact ⟨e, by simpa [hee] using he⟩
  · cases s <;> simp [Holds, hext, hs]

omit [DecidableEq H] in
theorem recorded_iff : t.Recorded s h ↔ s ∈ t.sources h := by
  unfold Recorded sources
  cases t.blocks h <;> simp

theorem sources_update {state : Option BlockState} (hb : t'.blocks = update t.blocks p state) :
    t'.sources = update t.sources p (state.elim ∅ (·.sources)) := by
  change (Option.elim · ∅ _) ∘ t'.blocks = _
  rw [hb, comp_update]
  rfl

/-! ### A source is added -/

omit [DecidableEq H] in
/-- If a call records one more holder and queues no remove, what it must do is keep the names. -/
theorem letsGo_of_added (hk : t.Kept held) (hqueue : ∀ h, ¬t.Withdraws t' h)
    (hmono : ∀ s h, t.Recorded s h → t'.Recorded s h) :
    LetsGo t t' held held' c ↔ ∀ s h, t'.Recorded s h ↔ t'.Holds held' s h := by
  refine ⟨fun h => h.recorded, fun h => ⟨h, fun j => ?_⟩⟩
  refine iff_of_false (hqueue j) fun ⟨_, ⟨s, hs⟩, hnone⟩ => hnone ⟨s, ?_⟩
  exact (h s j).mp (hmono s j ((hk.recorded s j).mpr hs))

/-- The name of a block changed, or is new. -/
theorem store_recorded_iff {source : EngineSource} (hk : t.Kept held)
    (hadd : ∀ s h, t'.Recorded s h ↔ (h = p ∧ s = source.tag) ∨ t.Recorded s h)
    (hext : t'.externalToSeq = update t.externalToSeq (source.tag, external) (some p)) :
    (∀ s h, t'.Recorded s h ↔ t'.Holds held s h) ↔
      ∀ old, t.externalToSeq (source.tag, external) = some old → old ≠ p →
        ∃ other, other ≠ external ∧ t.externalToSeq (source.tag, other) = some old := by
  simp only [hadd, hk.recorded, holds_update hext]
  constructor
  · intro hexact old hold hne
    -- the old block still has the engine recorded, so it must still have a name
    have hnamed := (hexact source.tag old).mp (.inr (holds_tag.mpr ⟨external, hold⟩))
    rw [if_pos rfl] at hnamed
    exact hnamed.resolve_left fun heq => hne (some.inj heq).symm
  · intro hcond s h
    split_ifs with hs
    · rw [hs, holds_tag]
      constructor
      · intro hor
        by_cases hp : h = p
        · exact .inl (by rw [hp])
        obtain ⟨e, he⟩ := hor.resolve_left fun hc => hp hc.1
        by_cases hee : e = external
        · exact .inr (hcond h (hee ▸ he) hp)
        · exact .inr ⟨e, hee, he⟩
      · rintro (heq | ⟨e, -, he⟩)
        · exact .inl ⟨(some.inj heq).symm, rfl⟩
        · exact .inr ⟨e, he⟩
    · simp [hs]

omit [DecidableEq H] in
/-- The queue of a tracker does not withdraw what was queued before. -/
theorem not_withdraws_append (hq : t'.eventQueue = t.eventQueue ++ events)
    (he : ∀ source, .remove h source ∉ events) : ¬t.Withdraws t' h := by
  intro ⟨source, hmem⟩
  rw [hq, drop_left] at hmem
  exact he source hmem

omit [DecidableEq H] in
theorem kept_new : (new : Tracker H).Kept ∅ := by
  constructor
  · intro s h
    cases s <;> simp [Recorded, Holds, new]
  · intro h state hstate
    cases hstate

theorem Adds.recorded (h : Adds t t' source p) (s : EventSource) (j : H) :
    t'.Recorded s j ↔ (j = p ∧ s = source) ∨ t.Recorded s j := by
  have hsources : t'.sources = update t.sources p (insert source (t.sources p)) := by
    cases h with
    | silent hb _ | store _ _ _ hb _ => exact sources_update hb
  rw [recorded_iff, recorded_iff, hsources]
  by_cases hj : j = p
  · simp [hj]
  · simp [hj]

theorem Adds.letsGo (h : Adds t t' source p) (hk : t.Kept held) :
    LetsGo t t' held held' c ↔ ∀ s h, t'.Recorded s h ↔ t'.Holds held' s h := by
  refine letsGo_of_added hk (fun j => ?_) fun s j hs => (h.recorded s j).mpr (.inr hs)
  cases h with
  | silent _ hq => exact not_withdraws_append (hq.trans (append_nil _).symm) (by simp)
  | store _ _ _ _ hq => exact not_withdraws_append hq (by simp)

omit [DecidableEq H] in
/-- A call that changes nothing. -/
theorem letsGo_refl (hk : t.Kept held) : LetsGo t t held held c :=
  (letsGo_of_added hk (fun _ => not_withdraws_append (append_nil _).symm (by simp))
    fun _ _ h => h).mpr hk.recorded

variable {loraName : Option String} {tokenIds : List Nat} {blockSize : Nat}

theorem handleStore_letsGo {source : EngineSource} {parent : Option String} (hk : t.Kept held)
    (ht : (t.handleStore hashing source.tag external parent tokenIds blockSize loraName).1 = t') :
    LetsGo t t' held held c ↔
      t.Orderly held hashing (.store source external parent tokenIds blockSize loraName) := by
  obtain ⟨rfl, hsame⟩ | ⟨plh, hplh, hadds, hext⟩ := handleStore_cases tokenIds blockSize loraName ht
  · refine iff_of_true (letsGo_refl hk) fun plh old hplh hold hne => ?_
    rw [hsame plh hplh] at hold
    exact absurd (some.inj hold).symm hne
  rw [hadds.letsGo hk, store_recorded_iff hk hadds.recorded hext]
  constructor
  · intro h plh' old hplh'
    rw [hplh] at hplh'
    obtain rfl := some.inj hplh'
    exact h old
  · intro h old
    exact h plh old hplh

/-! ### A source is dropped -/

theorem Drops.recorded (h : Drops t t' source p) (s : EventSource) (j : H) :
    t'.Recorded s j ↔ t.Recorded s j ∧ ¬(j = p ∧ s = source) := by
  have hsources : t'.sources = update t.sources p ((t.sources p).erase source) := by
    cases h with
    | withdrawn hlast _ hb _ | forgotten hlast _ hb _ =>
      rw [hlast]
      exact sources_update hb
    | kept _ hb => exact sources_update hb
  rw [recorded_iff, recorded_iff, hsources]
  by_cases hj : j = p
  · simp [hj, and_comm]
  · simp [hj]

omit [DecidableEq H] in
theorem erase_sources : (t.sources p).erase source = ∅ ↔ ∀ s, t.Recorded s p → s = source := by
  simp only [Finset.eq_empty_iff_forall_notMem, Finset.mem_erase, not_and, recorded_iff]
  exact forall_congr' fun s => by rw [not_imp_comm, not_not]

theorem Drops.withdraws (h : Drops t t' source p) (j : H) : t.Withdraws t' j ↔
    j = p ∧ (∀ s, t.Recorded s p → s = source) ∧ t.published p = true := by
  rw [← erase_sources]
  unfold Withdraws
  cases h with
  | withdrawn hlast hpub _ hq => simp [hq, hlast, hpub, eq_comm]
  | forgotten _ hpub _ hq => simp [hq, hpub]
  | kept hrest _ hq => simp [hq, hrest]

/-- A call that drops a holder takes away what it must, and withdraws the block with its last
holder, if the block was published. -/
theorem Drops.letsGo (h : Drops t t' source p)
    (hk : t.Kept held) (hc : c ≠ .clearAll) (hsource : t.Holds held source p) :
    LetsGo t t' held held' c ↔
      (∀ s j, t'.Holds held' s j ↔ t.Holds held s j ∧ ¬(j = p ∧ s = source)) ∧
        ((∀ s, t.Holds held s p → s = source) → t.published p = true) := by
  have hrecorded : ∀ s j, t'.Recorded s j ↔ t.Holds held s j ∧ ¬(j = p ∧ s = source) := by
    intro s j
    rw [h.recorded, hk.recorded]
  constructor
  · intro hgo
    have hholds : ∀ s j, t'.Holds held' s j ↔ t.Holds held s j ∧ ¬(j = p ∧ s = source) :=
      fun s j => (hgo.recorded s j).symm.trans (hrecorded s j)
    refine ⟨hholds, fun hlast => ?_⟩
    have hwithdraws := (hgo.withdraws p).mpr ⟨hc, ⟨source, hsource⟩, fun ⟨s, hs⟩ => by
      obtain ⟨hs, hne⟩ := (hholds s p).mp hs
      exact hne ⟨rfl, hlast s hs⟩⟩
    exact ((h.withdraws p).mp hwithdraws).2.2
  · intro ⟨hholds, hpub⟩
    refine ⟨fun s j => (hrecorded s j).trans (hholds s j).symm, fun j => ?_⟩
    rw [h.withdraws]
    constructor
    · intro ⟨hj, hlast, _⟩
      rw [hj]
      refine ⟨hc, ⟨source, hsource⟩, fun ⟨s, hs⟩ => ?_⟩
      obtain ⟨hs, hne⟩ := (hholds s p).mp hs
      exact hne ⟨rfl, hlast s ((hk.recorded s p).mpr hs)⟩
    · intro ⟨_, ⟨s, hs⟩, hnone⟩
      -- only the dropped pair can have been the last one
      have hpair : j = p ∧ s = source := by
        by_contra hne
        exact hnone ⟨s, (hholds s j).mpr ⟨hs, hne⟩⟩
      obtain ⟨rfl, -⟩ := hpair
      have hlast : ∀ s, t.Holds held s j → s = source := by
        intro s hs
        by_contra hne
        exact hnone ⟨s, (hholds s j).mpr ⟨hs, fun h => hne h.2⟩⟩
      exact ⟨rfl, fun s hs => hlast s ((hk.recorded s j).mp hs), hpub hlast⟩

omit [DecidableEq H] in
theorem remove_holds_iff {source : EngineSource}
    (hname : t.externalToSeq (source.tag, external) = some h)
    (hext : t'.externalToSeq = update t.externalToSeq (source.tag, external) none) :
    (∀ s j, t'.Holds held s j ↔ t.Holds held s j ∧ ¬(j = h ∧ s = source.tag)) ↔
      ∀ other, t.externalToSeq (source.tag, other) = some h → other = external := by
  simp only [holds_update hext]
  constructor
  · intro hholds other hother
    by_contra hne
    refine ((hholds source.tag h).mp ?_).2 ⟨rfl, rfl⟩
    rw [if_pos rfl]
    exact .inr ⟨other, hne, hother⟩
  · intro hsole s j
    split_ifs with hs
    · rw [hs, holds_tag]
      constructor
      · rintro (hnone | ⟨e, hne, he⟩)
        · cases hnone
        · exact ⟨⟨e, he⟩, fun hj => hne (hsole e (hj.1 ▸ he))⟩
      · intro ⟨⟨e, he⟩, hj⟩
        refine .inr ⟨e, fun hee => hj ⟨?_, rfl⟩, he⟩
        rw [hee, hname] at he
        exact (some.inj he).symm
    · simp [hs]

theorem handleRemove_letsGo {source : EngineSource}
    (hk : t.Kept held) (ht : (t.handleRemove source.tag external).1 = t') :
    LetsGo t t' held held (.remove source external) ↔
      t.Orderly held hashing (.remove source external) := by
  obtain ⟨rfl, hnone⟩ | ⟨h, hname, hext, hcases⟩ := handleRemove_cases ht
  · refine iff_of_true (letsGo_refl hk) fun h hname => ?_
    simp [hnone] at hname
  have hdrops : Drops t t' source.tag h := by
    -- a block that has a name is tracked
    obtain ⟨state, hstate, -⟩ := (hk.recorded source.tag h).mpr (holds_tag.mpr ⟨external, hname⟩)
    exact hcases.resolve_right fun hnone => by simp [hstate] at hnone
  rw [hdrops.letsGo hk (by simp) (holds_tag.mpr ⟨external, hname⟩), remove_holds_iff hname hext]
  constructor
  · intro hboth j hj
    obtain rfl : h = j := some.inj (hname.symm.trans hj)
    exact hboth
  · intro hall
    exact hall h hname

/-! ### KVBM and the clear -/

theorem handleKvbmStore_letsGo (hk : t.Kept held)
    (ht : (t.handleKvbmStore h tokenIds blockSize loraName).1 = t') :
    LetsGo t t' held (insert h held) c := by
  obtain ⟨hadds, hext⟩ := handleKvbmStore_cases h ht
  refine (hadds.letsGo hk).mpr fun s j => ?_
  rw [hadds.recorded, hk.recorded]
  cases s with
  | kvbm => simp [Holds]
  | vllm | trtllm => simp [Holds, hext]

theorem holds_erase {h j : H} (hext : t'.externalToSeq = t.externalToSeq) :
    t'.Holds (held.erase h) s j ↔ t.Holds held s j ∧ ¬(j = h ∧ s = .kvbm) := by
  cases s with
  | kvbm => simp [Holds, and_comm]
  | vllm | trtllm => simp [Holds, hext]

theorem handleKvbmRemove_letsGo (hk : t.Kept held) (ht : (t.handleKvbmRemove h).1 = t') :
    LetsGo t t' held (held.erase h) (.kvbmRemove h) ↔ t.Orderly held hashing (.kvbmRemove h) := by
  obtain ⟨hext, hcases⟩ := handleKvbmRemove_cases h ht
  by_cases hheld : t.Holds held .kvbm h
  · have hdrops : Drops t t' .kvbm h := by
      refine hcases.resolve_left fun ⟨_, hnone⟩ => ?_
      obtain ⟨state, hstate, -⟩ := (hk.recorded _ _).mpr hheld
      simp [hnone] at hstate
    rw [hdrops.letsGo hk (by simp) hheld]
    constructor
    · intro hboth _
      exact hboth.2
    · intro hpub
      exact ⟨fun s j => holds_erase hext, hpub hheld⟩
  · refine iff_of_true ?_ fun hc => absurd hc hheld
    have hsame : held.erase h = held := Finset.erase_eq_of_notMem hheld
    cases hcases with
    | inl heq =>
      rw [heq.1, hsame]
      exact letsGo_refl hk
    | inr hdrops =>
      have hrecorded : ∀ s j, t'.Recorded s j ↔ t.Recorded s j := by
        intro s j
        rw [hdrops.recorded]
        refine and_iff_left_of_imp fun hs ⟨hj, hkvbm⟩ => hheld ?_
        rw [← hkvbm, ← hj]
        exact (hk.recorded s j).mp hs
      refine (letsGo_of_added hk (fun j hw => ?_) fun s j hs => (hrecorded s j).mpr hs).mpr
        fun s j => ?_
      · -- KVBM is not among the sources, so it is not the last one
        obtain ⟨rfl, hlast, hpub⟩ := (hdrops.withdraws j).mp hw
        obtain ⟨state, hstate, -⟩ := (any_eq_true _ _).mp hpub
        obtain ⟨s, hs⟩ := hk.nonempty j state hstate
        have hrec : t.Recorded s j := ⟨state, hstate, hs⟩
        rw [hlast s hrec] at hrec
        exact hheld ((hk.recorded _ _).mp hrec)
      · rw [hrecorded, hk.recorded, holds_erase hext, and_iff_left_of_imp]
        intro hs ⟨hj, hkvbm⟩
        rw [hkvbm, hj] at hs
        exact hheld hs

omit [DecidableEq H] in
theorem handleClearAll_letsGo : LetsGo t t.handleClearAll held ∅ .clearAll := by
  constructor
  · intro s h
    cases s <;> simp [Recorded, Holds, handleClearAll]
  · intro h
    simp [Withdraws, handleClearAll]

/-! ### Every call -/

/-- **A call lets go of what it must exactly if it is orderly.** -/
theorem call_letsGo (hk : t.Kept held) :
    LetsGo t (t.call hashing c) held (noteKvbm held c) c ↔ t.Orderly held hashing c := by
  cases c with
  | store => exact handleStore_letsGo hk rfl
  | remove => exact handleRemove_letsGo hk rfl
  | kvbmStore =>
    exact iff_of_true (handleKvbmStore_letsGo hk rfl) trivial
  | kvbmRemove => exact handleKvbmRemove_letsGo hk rfl
  | clearAll => exact iff_of_true handleClearAll_letsGo trivial

theorem Effect.nonempty (h : Effect t t')
    (hne : ∀ h state, t.blocks h = some state → state.sources.Nonempty) :
    ∀ h state, t'.blocks h = some state → state.sources.Nonempty := by
  have hupdate : ∀ {p o}, t'.blocks = update t.blocks p o →
      (∀ state, o = some state → state.sources.Nonempty) →
      ∀ h state, t'.blocks h = some state → state.sources.Nonempty := by
    intro p o hb ho
    rw [hb]
    rw [forall_update_iff t.blocks fun _ o => ∀ st, o = some st → st.sources.Nonempty]
    exact ⟨ho, fun h _ => hne h⟩
  cases h with
  | same hb =>
    rw [hb]
    exact hne
  | adds hadds =>
    cases hadds with
    | silent hb _ | store _ _ _ hb _ => exact hupdate hb (by simp)
  | drops hdrops =>
    cases hdrops with
    | withdrawn _ _ hb _ | forgotten _ _ hb _ => exact hupdate hb nofun
    | kept hrest hb =>
      exact hupdate hb (by simpa [Finset.nonempty_iff_ne_empty] using hrest)
  | clear hb =>
    rw [hb]
    nofun

theorem run_concat (hashing : Hashing H B) (calls : List (Call H)) (c : Call H) :
    run hashing (calls ++ [c]) = (run hashing calls).call hashing c := by
  simp [run]

/-- **Blocks are withdrawn exactly when their last holder lets go, in the runs whose calls are all
orderly and in no others.** -/
theorem letsGo_iff_orderly (hashing : Hashing H B) (calls : List (Call H)) :
    Stepwise (fun before c => LetsGo (run hashing before) (run hashing (before ++ [c]))
        (kvbmHeld before) (kvbmHeld (before ++ [c])) c) calls ↔
      Stepwise (fun before c => (run hashing before).Orderly (kvbmHeld before) hashing c)
        calls := by
  have hheld : ∀ (before : List (Call H)) c,
      kvbmHeld (before ++ [c]) = noteKvbm (kvbmHeld before) c := by
    intro before c
    simp [kvbmHeld]
  simp only [run_concat, hheld]
  refine stepwise_congr (I := fun before => (run hashing before).Kept (kvbmHeld before)) kept_new
    (fun before c hk hgo => ?_) fun before c hk => call_letsGo hk
  rw [run_concat, hheld]
  exact ⟨hgo.recorded, call_effect.nonempty hk.nonempty⟩

def tokenHashing : Hashing (List Nat) (List Nat) where
  firstBlock tokenIds blockSize _ :=
    if tokenIds ≠ [] ∧ blockSize ≠ 0 ∧ blockSize ≤ tokenIds.length then
      some (tokenIds.take blockSize, tokenIds.take blockSize)
    else none
  extend parent block := parent ++ block
  full := by
    intro tokenIds blockSize _ b h
    split at h
    next hfull => exact ⟨hfull.1, hfull.2.1⟩
    next => cases h

/-- With two names for a block, removing one withdraws the block although the other still names
it.  Pointing the only name of a block at another block leaves the first one advertised: no name
is left to remove it by. -/
theorem twoNames_not_letsGo :
    ((run tokenHashing [.store .vllm "a" none [1] 1 none, .store .vllm "b" none [1] 1 none,
        .remove .vllm "a"]).eventQueue =
      [.store [1] [1] 1 none .vllm, .remove [1] .vllm] ∧
    ¬Stepwise (fun before c => LetsGo (run tokenHashing before) (run tokenHashing (before ++ [c]))
        (kvbmHeld before) (kvbmHeld (before ++ [c])) c)
      [.store .vllm "a" none [1] 1 none, .store .vllm "b" none [1] 1 none, .remove .vllm "a"]) ∧
    (run tokenHashing [.store .vllm "a" none [1] 1 none, .store .vllm "a" none [2] 1 none,
        .remove .vllm "a"]).eventQueue =
      [.store [1] [1] 1 none .vllm, .store [2] [2] 1 none .vllm, .remove [2] .vllm] ∧
    ¬Stepwise (fun before c => LetsGo (run tokenHashing before) (run tokenHashing (before ++ [c]))
        (kvbmHeld before) (kvbmHeld (before ++ [c])) c)
      [.store .vllm "a" none [1] 1 none, .store .vllm "a" none [2] 1 none] := by
  refine ⟨⟨by decide, fun h => ?_⟩, by decide, fun h => ?_⟩
  · have hgo := h [.store .vllm "a" none [1] 1 none, .store .vllm "b" none [1] 1 none] _ [] rfl
    obtain ⟨state, hstate, -⟩ := (hgo.recorded .vllm [1]).mpr ⟨"b", by decide⟩
    exact absurd hstate (by rw [show (run tokenHashing _).blocks [1] = none by decide]; simp)
  · have hgo := h [.store .vllm "a" none [1] 1 none] _ [] rfl
    obtain ⟨external, hname⟩ := (hgo.recorded .vllm [1]).mp ⟨⟨{.vllm}, true⟩, by decide, by decide⟩
    have hmap : (run tokenHashing [.store .vllm "a" none [1] 1 none,
        .store .vllm "a" none [2] 1 none]).externalToSeq =
        update (update (fun _ => none) (.vllm, "a") (some [1])) (.vllm, "a") (some [2]) := rfl
    rw [singleton_append, hmap] at hname
    by_cases hext : external = "a"
    · simp [hext] at hname
    · simp [hext] at hname

end Tracker

end Kvbm.Consolidator
