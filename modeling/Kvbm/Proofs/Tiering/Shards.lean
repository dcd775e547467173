/-
What the shards of a search hold.

The shards tile a range of the chain of hashes: each begins where the one before it ends, was
searched over exactly its own part of the chain, and holds the first blocks of it.  From that
follows what the walk to the first hole means, and what is collected from the shards.
-/
import Kvbm.Tiering.Search

namespace Kvbm.Tiering

open Lib List Option OnboardingState

variable {H : Type} {cfg : SearchConfig} {chain : List H} {p : Bool}
  {rest : List (OnboardingShard H)} {shard : OnboardingShard H}

theorem debugAssert_of (h : p = true) : debugAssert cfg p = some () := by
  simp [debugAssert, h]

theorem debugAssert_of_debug (h : cfg.debug = true → p = true) : debugAssert cfg p = some () := by
  cases hd : cfg.debug with
  | false => simp [debugAssert, hd]
  | true => exact debugAssert_of (h hd)

/-! ### One shard -/

namespace FindSession

variable {session : FindSession H} {queried : List H}

/-- What a session holds by now. -/
def held (session : FindSession H) : List (G2Block H) := session.g2Blocks.getD []

theorem Answers.hashes (h : session.Answers queried) (ht : session.isTerminal = true) :
    session.held.map (·.sequenceHash) <+: queried := by
  cases session with
  | ready => exact h.2
  | asyncSession status =>
    cases status with
    | complete => exact h.2
    | holding => exact h.2
    | prepared => exact h.2
    | searching => cases ht
    | preparing => cases ht
    | staging => cases ht

theorem Answers.matchedCount (h : session.Answers queried) (ht : session.isTerminal = true) :
    session.terminalMatchedCount cfg = some session.held.length := by
  cases session with
  | ready => exact congrArg some h.1.symm
  | asyncSession status blocks =>
    cases status with
    | complete => exact congrArg some h.1.symm
    | holding => cases blocks <;> rfl
    | prepared => cases blocks <;> rfl
    | searching => cases ht
    | preparing => cases ht
    | staging => cases ht

end FindSession

namespace OnboardingShard

variable {shard : OnboardingShard H}

/-- The shard was searched over exactly its own part of the chain. -/
structure Searched (chain : List H) (shard : OnboardingShard H) : Prop where
  inside : shard.endBlock ≤ chain.length
  queried : shard.queried = slice chain shard.startBlock shard.endBlock
  answers : shard.findSession.Answers shard.queried

/-- The shard has matched the block. -/
def Matches (shard : OnboardingShard H) (block : Nat) : Prop :=
  shard.startBlock ≤ block ∧ block < shard.startBlock + shard.findSession.held.length

theorem Searched.held_le (h : shard.Searched chain) (ht : shard.findSession.isTerminal = true) :
    shard.findSession.held.length ≤ shard.numQueriedBlocks := by
  have hlen := (h.answers.hashes ht).length_le
  rw [length_map, h.queried, length_slice_of_le h.inside, endBlock] at hlen
  omega

theorem Searched.held_eq (h : shard.Searched chain) (ht : shard.findSession.isTerminal = true) :
    shard.findSession.held.map (·.sequenceHash) =
      slice chain shard.startBlock (shard.startBlock + shard.findSession.held.length) := by
  have hpre := h.answers.hashes ht
  have hle := h.held_le ht
  rw [prefix_iff_eq_take.mp hpre, length_map, h.queried, take_slice, endBlock,
    Nat.min_eq_left (by omega)]

end OnboardingShard

/-! ### Shards side by side -/

/-- The shards tile the chain from block `a` to block `b`. -/
inductive Tiles (chain : List H) : Nat → List (OnboardingShard H) → Nat → Prop
  | nil (a : Nat) : Tiles chain a [] a
  | cons {shard : OnboardingShard H} {rest : List (OnboardingShard H)} {a b : Nat} :
      shard.startBlock = a → shard.Searched chain → Tiles chain shard.endBlock rest b →
        Tiles chain a (shard :: rest) b

namespace Tiles

variable {a b c : Nat} {shard : OnboardingShard H} {shards shards' : List (OnboardingShard H)}
  (h : Tiles chain a shards b)

include h

theorem le : a ≤ b := by
  induction h with
  | nil a => exact Nat.le_refl a
  | cons hstart _ _ ih => exact hstart ▸ Nat.le_trans (Nat.le_add_right _ _) ih

theorem inside : shards ≠ [] → b ≤ chain.length := by
  induction h with
  | nil => intro hne; exact absurd rfl hne
  | @cons shard rest a b _ hs hrest ih =>
    intro _
    cases hrest with
    | nil => exact hs.inside
    | cons => exact ih (cons_ne_nil _ _)

theorem searched : ∀ shard ∈ shards, shard.Searched chain := by
  induction h with
  | nil => intro shard hm; cases hm
  | cons _ hs _ ih => exact forall_mem_cons.mpr ⟨hs, ih⟩

omit h in
theorem head_eq (h : Tiles chain a (shard :: shards) b) : shard.startBlock = a := by
  cases h
  assumption

theorem last_eq : ∀ last ∈ shards.getLast?, last.endBlock = b := by
  induction h with
  | nil => intro last hl; cases hl
  | cons _ _ hrest ih =>
    intro last hl
    cases hrest with
    | nil =>
      cases hl
      rfl
    | cons =>
      rw [getLast?_cons_cons] at hl
      exact ih last hl

theorem contiguous : contiguous shards = true := by
  induction h with
  | nil => rfl
  | cons _ _ hrest ih =>
    cases hrest with
    | nil => rfl
    | cons hnext =>
      rw [OnboardingState.contiguous, ih, decide_eq_true hnext]
      rfl

theorem append (h' : Tiles chain b shards' c) : Tiles chain a (shards ++ shards') c := by
  induction h with
  | nil => exact h'
  | cons hstart hs _ ih => exact .cons hstart hs (ih h')

/-- A shard is replaced by one over the same range. -/
theorem set :
    ∀ {i : Nat} {old new : OnboardingShard H}, shards[i]? = some old → new.Searched chain →
      new.startBlock = old.startBlock → new.endBlock = old.endBlock →
        Tiles chain a (shards.set i new) b := by
  induction h with
  | nil => intro i old new hi; simp at hi
  | @cons shard rest a b ha hs hrest ih =>
    intro i old new hi hnew hstart hend
    cases i with
    | zero =>
      obtain rfl : shard = old := by simpa using hi
      exact .cons (hstart.trans ha) hnew (hend ▸ hrest)
    | succ => exact .cons ha hs (ih (by simpa using hi) hnew hstart hend)

end Tiles

/-! ### The matched span -/

/-- The blocks of all shards, in order. -/
def gathered (shards : List (OnboardingShard H)) : List (G2Block H) :=
  shards.flatMap (·.findSession.held)

/-- The shards have matched the chain from block `a` to block `e`. -/
structure Spans (chain : List H) (shards : List (OnboardingShard H)) (a e : Nat) : Prop where
  le : a ≤ e
  hashes : slice chain a e <+: (gathered shards).map (·.sequenceHash)
  covers : ∀ k, a ≤ k → k < e → ∃ shard ∈ shards, shard.Matches k

theorem Spans.hole (hs : shard.Searched chain) (ht : shard.findSession.isTerminal = true) :
    Spans chain (shard :: rest) shard.startBlock
      (shard.startBlock + shard.findSession.held.length) where
  le := Nat.le_add_right _ _
  hashes := by
    rw [← hs.held_eq ht, gathered, flatMap_cons, map_append]
    exact prefix_append _ _
  covers k hk hk' := ⟨shard, mem_cons_self, hk, hk'⟩

theorem Spans.cons {e : Nat} (hs : shard.Searched chain) (ht : shard.findSession.isTerminal = true)
    (hfull : shard.findSession.held.length = shard.numQueriedBlocks) (he : e ≤ chain.length)
    (h : Spans chain rest shard.endBlock e) :
    Spans chain (shard :: rest) shard.startBlock e where
  le := Nat.le_trans (Nat.le_add_right _ _) h.le
  hashes := by
    have hheld := hs.held_eq ht
    rw [hfull] at hheld
    rw [← slice_append (Nat.le_add_right _ shard.numQueriedBlocks) h.le he, gathered,
      flatMap_cons, map_append, hheld]
    exact (prefix_append_right_inj _).mpr h.hashes
  covers k hk hk' := by
    by_cases hin : k < shard.endBlock
    · exact ⟨shard, mem_cons_self, hk, hfull ▸ hin⟩
    · obtain ⟨other, hm, hmatch⟩ := h.covers k (Nat.not_lt.mp hin) hk'
      exact ⟨other, mem_cons_of_mem _ hm, hmatch⟩

variable {shards : List (OnboardingShard H)}

/-- **The walk to the first hole ends where the match ends.** -/
theorem Tiles.spanLoop (cfg : SearchConfig) {a b : Nat} (h : Tiles chain a shards b) :
    (∀ shard ∈ shards, shard.findSession.isTerminal = true) →
      ∃ e, spanLoop cfg shards a = some e ∧ e ≤ b ∧ Spans chain shards a e := by
  induction h with
  | nil a =>
    intro _
    refine ⟨a, rfl, Nat.le_refl a, Nat.le_refl a, ?_,
      fun _ hk hk' => absurd hk (Nat.not_le.mpr hk')⟩
    rw [slice_self]
    exact nil_prefix
  | @cons shard rest a b ha hs hrest ih =>
    subst ha
    intro ht
    obtain ⟨hterm, hterms⟩ := forall_mem_cons.mp ht
    have hle := hs.held_le hterm
    have hb : b ≤ chain.length := (Tiles.cons rfl hs hrest).inside (cons_ne_nil _ _)
    simp only [OnboardingState.spanLoop, debugAssert_of, decide_true, hs.answers.matchedCount hterm,
      bind_eq_bind, bind_some]
    split
    · rename_i hlt
      refine ⟨_, rfl, ?_, .hole hs hterm⟩
      exact Nat.le_trans (Nat.add_le_add_left hle _) hrest.le
    · rename_i hlt
      obtain ⟨e, he, heb, hspan⟩ := ih hterms
      exact ⟨e, he, heb, .cons hs hterm (Nat.le_antisymm hle (Nat.not_lt.mp hlt))
        (Nat.le_trans heb hb) hspan⟩

namespace OnboardingState

variable {st : OnboardingState H} {a b : Nat}

theorem matchedSpan_eq (h : Tiles chain a st.shards b) (hne : st.shards ≠ [])
    (ht : st.allShardsTerminal = true) :
    ∃ e, st.matchedSpan cfg = some (max a (st.numComputedTokens / cfg.blockSize), e) ∧
      e ≤ b ∧ Spans chain st.shards a e := by
  obtain ⟨e, he, heb, hspan⟩ := h.spanLoop cfg (all_eq_true.mp ht)
  refine ⟨e, ?_, heb, hspan⟩
  unfold matchedSpan
  split
  · exact absurd ‹_› hne
  rename_i hcons
  have hstart := (hcons ▸ h).head_eq
  simp only [debugAssert_of ht, hstart, he, bind_eq_bind, bind_some]

theorem exists_computeOutcome (h : Tiles chain a st.shards b) (hne : st.shards ≠ []) :
    ∃ outcome, computeOutcome cfg st = some outcome := by
  unfold computeOutcome
  cases ht : st.allShardsTerminal with
  | false => exact ⟨_, rfl⟩
  | true =>
    obtain ⟨e, he, -⟩ := matchedSpan_eq h hne ht
    exact ⟨_, by rw [if_pos rfl, he]; rfl⟩

end OnboardingState

/-! ### Collecting -/

theorem collectLoop_begins {need : Nat} :
    ∀ {acc out : List (G2Block H)}, collectLoop need shards acc = some out →
      out <+: acc ++ gathered shards := by
  induction shards with
  | nil =>
    intro acc out h
    cases h
    exact prefix_append _ _
  | cons shard rest ih =>
    intro acc out h
    rw [collectLoop] at h
    split at h
    · cases h
      exact prefix_append _ _
    obtain ⟨blocks, hb, hloop⟩ := bind_eq_some_iff.mp h
    have hheld : shard.findSession.held = blocks := by rw [FindSession.held, hb]; rfl
    rw [gathered, flatMap_cons, hheld, ← append_assoc]
    exact ih hloop

/-- Blocks taken from the shards of a span carry its hashes. -/
theorem Spans.hashes_of_begins {a e skip n : Nat} {collected : List (G2Block H)}
    (h : Spans chain shards a e) (he : e ≤ chain.length) (hc : collected <+: gathered shards)
    (hlen : skip + n ≤ collected.length) (hle : a + skip + n ≤ e) :
    ((collected.drop skip).take n).map (·.sequenceHash) =
      slice chain (a + skip) (a + skip + n) := by
  have hlen' : skip + n ≤ (slice chain a e).length := by
    rw [length_slice_of_le he]
    omega
  have htake : (collected.map (·.sequenceHash)).take (skip + n) =
      (slice chain a e).take (skip + n) :=
    (take_eq_of_begins (hc.map _) (by rwa [length_map])).trans
      (take_eq_of_begins h.hashes hlen').symm
  rw [map_take, map_drop, take_drop, htake, take_slice, drop_slice,
    Nat.min_eq_left (by omega), Nat.add_assoc]

/-- **What is collected is the part of the chain after the computed prefix.** -/
theorem Tiles.collect {st : OnboardingState H} {a b start desired : Nat} {blocks : List (G2Block H)}
    (h : Tiles chain a st.shards b) (hne : st.shards ≠ []) (ht : st.allShardsTerminal = true)
    (hstart : max a (st.numComputedTokens / cfg.blockSize) = start)
    (hc : collectG2Blocks cfg st desired = some (some blocks)) :
    blocks.length = desired ∧ ∃ e, st.matchedSpan cfg = some (start, e) ∧
      (cfg.debug = true → start ≤ e) ∧
      (start ≤ e → blocks.map (·.sequenceHash) = slice chain start (start + desired)) := by
  obtain ⟨e, he, heb, hspan⟩ := matchedSpan_eq h hne ht
  have hin := Nat.le_trans heb (h.inside hne)
  have hastart : a ≤ start := hstart ▸ Nat.le_max_left _ _
  rw [hstart] at he
  unfold collectG2Blocks at hc
  split at hc
  · exact absurd ‹_› hne
  rename_i head rest hcons
  have hhead : head.startBlock = a := (hcons ▸ h).head_eq
  simp only [debugAssert_of ht, he, hhead, bind_eq_bind, bind_some] at hc
  obtain ⟨_, hassert, hc⟩ := bind_eq_some_iff.mp hc
  split at hc
  · cases hc
  rename_i hdesired
  obtain ⟨collected, hloop, hc⟩ := bind_eq_some_iff.mp (some.inj hc)
  have hpre : collected <+: gathered st.shards := by simpa using collectLoop_begins hloop
  split_ifs at hc with hskip hshort
  cases hc
  rw [length_drop] at hshort
  refine ⟨by rw [length_take, length_drop]; omega, e, he, fun hd => ?_, fun hle => ?_⟩
  · simpa [debugAssert, hd] using hassert
  · rw [wrappingSub, if_pos hle] at hdesired
    obtain ⟨skip, rfl⟩ := Nat.exists_eq_add_of_le hastart
    rw [Nat.add_sub_cancel_left] at hskip hshort ⊢
    exact hspan.hashes_of_begins hin hpre (by omega) (by omega)

end Kvbm.Tiering
