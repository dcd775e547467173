/-
The consolidated stream is well formed.

A reader of the stream folds it: a store inserts, a remove deletes, a clear empties.  Every call
adds a source to a block, drops one or clears all, and changes the published blocks by what it
queues, so the fold is always the set of published blocks.  That alone makes the stream well formed:
a store is queued only for a block that is not published and a remove only for one that is.
-/
import Kvbm.Consolidator.Tracker
import Kvbm.Lib.Stepwise

namespace Kvbm.Consolidator

open Function

variable {H B : Type*} [DecidableEq H]

/-! ### Reading the stream -/

def applyEvent (live : Finset H) : ConsolidatedEvent H → Finset H
  | .store h _ _ _ _ => insert h live
  | .remove h _ => live.erase h
  | .clearAll => ∅

def liveAfter (events : List (ConsolidatedEvent H)) : Finset H := events.foldl applyEvent ∅

/-- What an event may be when some blocks are live. -/
def Acceptable (live : Finset H) : ConsolidatedEvent H → Prop
  | .store h tokenIds blockSize _ _ => h ∉ live ∧ tokenIds ≠ [] ∧ blockSize ≠ 0
  | .remove h _ => h ∈ live
  | .clearAll => True

/-- Every event is acceptable after those before it. -/
def WellFormed (events : List (ConsolidatedEvent H)) : Prop :=
  Lib.Stepwise (fun before e => Acceptable (liveAfter before) e) events

theorem liveAfter_concat {events : List (ConsolidatedEvent H)} {e : ConsolidatedEvent H} :
    liveAfter (events ++ [e]) = applyEvent (liveAfter events) e := by
  simp [liveAfter]

/-! ### What a call does -/

namespace Tracker

variable {hashing : Hashing H B} {t t' : Tracker H}

def published (t : Tracker H) (h : H) : Bool := (t.blocks h).any (·.published)

def sources (t : Tracker H) (h : H) : Finset EventSource := (t.blocks h).elim ∅ (·.sources)

/-- A source is recorded for a block, and a store is queued once there is data to publish. -/
inductive Adds (t t' : Tracker H) (source : EventSource) (p : H) : Prop
  | silent
      (hb : t'.blocks = update t.blocks p (some ⟨insert source (t.sources p), t.published p⟩))
      (hq : t'.eventQueue = t.eventQueue)
  | store (hnew : t.published p = false) (htokens : tokenIds ≠ []) (hsize : blockSize ≠ 0)
      (hb : t'.blocks = update t.blocks p (some ⟨insert source (t.sources p), true⟩))
      (hq : t'.eventQueue = t.eventQueue ++ [.store p tokenIds blockSize loraName source])

/-- A source lets go of a block, which goes with its last source. -/
inductive Drops (t t' : Tracker H) (source : EventSource) (p : H) : Prop
  | withdrawn (hlast : (t.sources p).erase source = ∅) (hpub : t.published p = true)
      (hb : t'.blocks = update t.blocks p none)
      (hq : t'.eventQueue = t.eventQueue ++ [.remove p source])
  | forgotten (hlast : (t.sources p).erase source = ∅) (hpub : t.published p = false)
      (hb : t'.blocks = update t.blocks p none) (hq : t'.eventQueue = t.eventQueue)
  | kept (hrest : (t.sources p).erase source ≠ ∅)
      (hb : t'.blocks = update t.blocks p (some ⟨(t.sources p).erase source, t.published p⟩))
      (hq : t'.eventQueue = t.eventQueue)

/-- What a call does to the blocks and the queue. -/
inductive Effect (t t' : Tracker H) : Prop
  | same (hb : t'.blocks = t.blocks) (hq : t'.eventQueue = t.eventQueue)
  | adds (h : Adds t t' source p)
  | drops (h : Drops t t' source p)
  | clear (hb : t'.blocks = fun _ => none) (hq : t'.eventQueue = t.eventQueue ++ [.clearAll])

/-- A store from an engine does nothing, or adds the engine to the block and names it. -/
theorem handleStore_cases {source : EventSource} {external : String} {parent : Option String}
    (tokenIds : List Nat) (blockSize : Nat) (loraName : Option String)
    (ht : (t.handleStore hashing source external parent tokenIds blockSize loraName).1 = t') :
    (t' = t ∧ ∀ plh, computePlh hashing (parent.bind fun e => t.externalToSeq (source, e)) tokenIds
        blockSize loraName = some plh → t.externalToSeq (source, external) = some plh) ∨
    ∃ plh, computePlh hashing (parent.bind fun e => t.externalToSeq (source, e)) tokenIds blockSize
        loraName = some plh ∧ Adds t t' source plh ∧
      t'.externalToSeq = update t.externalToSeq (source, external) (some plh) := by
  simp only [handleStore] at ht
  split at ht
  next hnone => exact .inl ⟨ht.symm, fun plh hplh => by simp [hnone] at hplh⟩
  next plh hplh =>
    obtain ⟨first, hfirst, -⟩ := Option.map_eq_some_iff.mp hplh
    obtain ⟨htokens, hfull⟩ := hashing.full hfirst
    have hsize : blockSize ≠ 0 := by
      rintro rfl
      exact hfull (Nat.zero_mod _)
    split at ht
    next hsame =>
      refine .inl ⟨ht.symm, fun plh' hplh' => ?_⟩
      rw [hsame, ← hplh, hplh']
    next =>
      refine .inr ⟨plh, hplh, ?_⟩
      split at ht
      next state hstate =>
        split at ht
        next hpub =>
          subst ht
          exact ⟨.silent (by simp [sources, published, hstate, hpub]) rfl, rfl⟩
        next hpub =>
          subst ht
          exact ⟨.store (by simpa [published, hstate] using hpub) htokens hsize
            (by simp [sources, hstate]) rfl, rfl⟩
      next hnone =>
        subst ht
        exact ⟨.store (by simp [published, hnone]) htokens hsize (by simp [sources, hnone]) rfl,
          rfl⟩

theorem handleKvbmStore_cases (h : H) {tokenIds : List Nat} {blockSize : Nat}
    {loraName : Option String} (ht : (t.handleKvbmStore h tokenIds blockSize loraName).1 = t') :
    Adds t t' .kvbm h ∧ t'.externalToSeq = t.externalToSeq := by
  simp only [handleKvbmStore] at ht
  split at ht
  next state hstate =>
    split at ht
    next hpub =>
      subst ht
      exact ⟨.store (by simp [published, hstate, hpub.2]) hpub.1.1 (Nat.ne_of_gt hpub.1.2)
        (by simp [sources, hstate]) rfl, rfl⟩
    next =>
      subst ht
      exact ⟨.silent (by simp [sources, published, hstate]) rfl, rfl⟩
  next hnone =>
    split at ht
    next hpub =>
      subst ht
      exact ⟨.store (by simp [published, hnone]) hpub.1 (Nat.ne_of_gt hpub.2)
        (by simp [sources, hnone]) rfl, rfl⟩
    next =>
      subst ht
      exact ⟨.silent (by simp [sources, published, hnone]) rfl, rfl⟩

/-- The names are not part of what a source lets go of. -/
theorem dropSource_drops {u : Tracker H} (hb : u.blocks = t.blocks)
    (hq : u.eventQueue = t.eventQueue) (hstate : t.blocks p = some state) :
    Drops t (u.dropSource source p state).1 source p := by
  have hsources : t.sources p = state.sources := by simp [sources, hstate]
  have hpublished : t.published p = state.published := by simp [published, hstate]
  simp only [dropSource, hb, hq, ← hsources, ← hpublished]
  split
  next hlast =>
    split
    next hpub => exact .withdrawn hlast hpub rfl rfl
    next hpub => exact .forgotten hlast (by simpa using hpub) rfl rfl
  next hrest => exact .kept hrest rfl rfl

theorem dropSource_external : (t.dropSource source p state).1.externalToSeq = t.externalToSeq := by
  unfold dropSource
  simp only
  split
  · split <;> rfl
  · rfl

/-- A remove from an engine does nothing, or takes away a name, and the engine from its block if
the block is tracked. -/
theorem handleRemove_cases {source : EventSource} {external : String}
    (ht : (t.handleRemove source external).1 = t') :
    (t' = t ∧ t.externalToSeq (source, external) = none) ∨
    ∃ h, t.externalToSeq (source, external) = some h ∧
      t'.externalToSeq = update t.externalToSeq (source, external) none ∧
      (Drops t t' source h ∨
        t.blocks h = none ∧ t'.blocks = t.blocks ∧ t'.eventQueue = t.eventQueue) := by
  simp only [handleRemove] at ht
  split at ht
  next hnone => exact .inl ⟨ht.symm, hnone⟩
  next h hname =>
    refine .inr ⟨h, hname, ?_⟩
    split at ht
    next hnone =>
      subst ht
      exact ⟨rfl, .inr ⟨hnone, rfl, rfl⟩⟩
    next state hstate =>
      subst ht
      exact ⟨dropSource_external, .inl (dropSource_drops rfl rfl hstate)⟩

theorem handleKvbmRemove_cases (h : H) (ht : (t.handleKvbmRemove h).1 = t') :
    t'.externalToSeq = t.externalToSeq ∧ ((t' = t ∧ t.blocks h = none) ∨ Drops t t' .kvbm h) := by
  unfold handleKvbmRemove at ht
  split at ht
  next hnone =>
    subst ht
    exact ⟨rfl, .inl ⟨rfl, hnone⟩⟩
  next state hstate =>
    subst ht
    exact ⟨dropSource_external, .inr (dropSource_drops rfl rfl hstate)⟩

theorem call_effect {c : Call H} : Effect t (t.call hashing c) := by
  cases c with
  | store source external parent tokenIds blockSize loraName =>
    obtain ⟨heq, -⟩ | ⟨_, _, hadds, -⟩ := handleStore_cases tokenIds blockSize loraName rfl (t := t)
    · exact .same (congrArg blocks heq) (congrArg eventQueue heq)
    · exact .adds hadds
  | remove source external =>
    obtain ⟨heq, -⟩ | ⟨_, _, _, hdrops | ⟨_, hb, hq⟩⟩ := handleRemove_cases rfl (t := t)
    · exact .same (congrArg blocks heq) (congrArg eventQueue heq)
    · exact .drops hdrops
    · exact .same hb hq
  | kvbmStore h tokenIds blockSize loraName =>
    exact .adds (handleKvbmStore_cases h rfl).1
  | kvbmRemove h =>
    obtain ⟨-, ⟨heq, -⟩ | hdrops⟩ := handleKvbmRemove_cases (t := t) h rfl
    · exact .same (congrArg blocks heq) (congrArg eventQueue heq)
    · exact .drops hdrops
  | clearAll => exact .clear rfl rfl

/-! ### What it queues -/

theorem published_update (hb : t'.blocks = update t.blocks p state) :
    t'.published = update t.published p (state.any (·.published)) := by
  change Option.any _ ∘ t'.blocks = _
  rw [hb, comp_update]
  rfl

/-- The stream is well formed and its live blocks are the published ones. -/
structure Consolidated (t : Tracker H) : Prop where
  wellFormed : WellFormed t.eventQueue
  live : ∀ h, h ∈ liveAfter t.eventQueue ↔ t.published h = true

theorem Consolidated.quiet (h : Consolidated t) (hp : t'.published = t.published)
    (hq : t'.eventQueue = t.eventQueue) : Consolidated t' := by
  constructor
  · rw [hq]
    exact h.wellFormed
  · rw [hq, hp]
    exact h.live

theorem Consolidated.step (h : Consolidated t) (he : Effect t t') : Consolidated t' := by
  cases he with
  | same hb hq =>
    refine h.quiet ?_ hq
    unfold published
    rw [hb]
  | @adds source p hadds =>
    cases hadds with
    | silent hb hq => exact h.quiet ((published_update hb).trans (update_eq_self _ _)) hq
    | store hnew htokens hsize hb hq =>
      have hfresh : p ∉ liveAfter t.eventQueue := by
        rw [h.live, hnew]
        simp
      constructor
      · rw [hq]
        exact Lib.stepwise_concat.mpr ⟨h.wellFormed, hfresh, htokens, hsize⟩
      · intro i
        rw [hq, published_update hb, liveAfter_concat, applyEvent, Finset.mem_insert, h.live]
        by_cases hi : i = p
        · simp [hi]
        · simp [hi]
  | @drops source p hdrops =>
    cases hdrops with
    | withdrawn _ hpub hb hq =>
      constructor
      · rw [hq]
        exact Lib.stepwise_concat.mpr ⟨h.wellFormed, (h.live p).mpr hpub⟩
      · intro i
        rw [hq, published_update hb, liveAfter_concat, applyEvent, Finset.mem_erase, h.live]
        by_cases hi : i = p
        · simp [hi]
        · simp [hi]
    | forgotten _ hpub hb hq =>
      refine h.quiet ((published_update hb).trans ?_) hq
      rw [Option.any_none, ← hpub, update_eq_self]
    | kept _ hb hq => exact h.quiet ((published_update hb).trans (update_eq_self _ _)) hq
  | clear hb hq =>
    constructor
    · rw [hq]
      exact Lib.stepwise_concat.mpr ⟨h.wellFormed, trivial⟩
    · intro i
      rw [hq, liveAfter_concat, applyEvent, published, hb]
      simp

theorem consolidated_new : Consolidated (new : Tracker H) := by
  constructor
  · exact Lib.stepwise_nil
  · intro h
    simp [new, liveAfter, published]

/-- **After any calls the queued stream is well formed, and its live blocks are the tracked blocks
that are marked published.** -/
theorem run_consolidated (hashing : Hashing H B) (calls : List (Call H)) :
    WellFormed (run hashing calls).eventQueue ∧
      ∀ h, h ∈ liveAfter (run hashing calls).eventQueue ↔
        ∃ state, (run hashing calls).blocks h = some state ∧ state.published = true := by
  have hinv : Consolidated (run hashing calls) := by
    unfold run
    induction calls using List.reverseRecOn with
    | nil => exact consolidated_new
    | append_singleton calls c ih =>
      rw [List.foldl_concat]
      exact ih.step call_effect
  refine ⟨hinv.wellFormed, fun h => ?_⟩
  rw [hinv.live, published, Option.any_eq_true]

end Tracker

end Kvbm.Consolidator
