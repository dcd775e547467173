/-
A hash is claimed once, but may be claimed although it is stored.

The evaluator reads the destination before the tracker.  A transfer that registers the hash and
drops its guard between the two reads is missed by both.
-/
import Kvbm.Lib.Run
import Kvbm.Offload.Claims

namespace Kvbm.Offload.BlockPipeline

open Lib

variable {H : Type} {p p' : BlockPipeline H} {since : H → Bool} {e : Evaluation} {hash : H}

theorem after_eq_some {f : H → BlockPipeline H} (h : p.after e f = some p') :
    ∃ hash, p.evaluating = some (hash, e) ∧ p' = f hash := by
  obtain ⟨⟨hash, _⟩, hhash, hp⟩ := Option.bind_eq_some_iff.mp h
  split_ifs at hp with he
  cases he
  cases hp
  exact ⟨hash, hhash, rfl⟩

variable [DecidableEq H]

/-- Since the last presence check the hash was registered and not evicted again. -/
def landed (hash : H) (since : Bool) : PipelineAct H → Bool
  | .checkPresence => false
  | .register hash' => since || hash = hash'
  | .evict hash' => since && hash ≠ hash'
  | _ => since

/-- Guards have pending hashes of their own, and the block under evaluation was not registered
when it was looked up. -/
structure Tracks (p : BlockPipeline H) (since : H → Bool) : Prop where
  held : ∀ hash ∈ p.guards, hash ∈ p.pending
  nodup : p.guards.Nodup
  seen : ∀ hash e, p.evaluating = some (hash, e) → e ≠ .nothing →
    (hash ∈ p.registered ↔ since hash = true)

theorem filter_evaluating {found : Finset H} {e' : Evaluation} {hash' : H}
    (h : (p.filter found e hash).evaluating = some (hash', e')) : hash' = hash ∧ hash ∉ found := by
  simp only [filter] at h
  split_ifs at h with hfound
  cases h
  exact ⟨rfl, hfound⟩

theorem Tracks.step {a : PipelineAct H} (h : p.Tracks since) (hs : p.step a = some p') :
    p'.Tracks fun hash => landed hash (since hash) a := by
  obtain ⟨held, nodup, seen⟩ := h
  cases a with
  | evaluate hash =>
    obtain ⟨-, rfl⟩ : _ ∧ _ := by simpa [BlockPipeline.step] using hs
    exact ⟨held, nodup, by simp⟩
  | checkPresence =>
    obtain ⟨_, -, rfl⟩ := after_eq_some hs
    refine ⟨held, nodup, fun hash e he _ => ?_⟩
    obtain ⟨rfl, hfound⟩ := filter_evaluating he
    exact iff_of_false hfound Bool.false_ne_true
  | checkPending =>
    obtain ⟨_, hstage, rfl⟩ := after_eq_some hs
    refine ⟨held, nodup, fun hash e he _ => ?_⟩
    obtain ⟨rfl, -⟩ := filter_evaluating he
    exact seen hash _ hstage nofun
  | tryClaim =>
    obtain ⟨hash, -, rfl⟩ := after_eq_some hs
    rw [tryClaim]
    split_ifs with hpending
    · exact ⟨held, nodup, nofun⟩
    refine ⟨?_, List.nodup_cons.mpr ⟨fun hin => hpending (held hash hin), nodup⟩, nofun⟩
    rintro g (_ | ⟨_, hg⟩)
    · exact Finset.mem_insert_self _ _
    · exact Finset.mem_insert_of_mem (held g hg)
  | reject =>
    cases hs
    exact ⟨held, nodup, nofun⟩
  | register hash =>
    obtain ⟨-, rfl⟩ : _ ∧ _ := by simpa [BlockPipeline.step] using hs
    refine ⟨held, nodup, fun g e he hne => ?_⟩
    simp [landed, seen g e he hne, or_comm]
  | dropGuard hash =>
    obtain ⟨-, rfl⟩ : _ ∧ _ := by simpa [BlockPipeline.step] using hs
    refine ⟨fun g hg => ?_, nodup.erase hash, seen⟩
    obtain ⟨hne, hg⟩ := nodup.mem_erase_iff.mp hg
    exact Finset.mem_erase.mpr ⟨hne, held g hg⟩
  | evict hash =>
    cases hs
    refine ⟨held, nodup, fun g e he hne => ?_⟩
    simp [landed, seen g e he hne, and_comm]

theorem Tracks.runList {acts : List (PipelineAct H)} (h : p.Tracks since)
    (hr : runList BlockPipeline.step p acts = some p') :
    p'.Tracks fun hash => acts.foldl (landed hash) (since hash) := by
  induction acts generalizing p since with
  | nil =>
    cases hr
    exact h
  | cons a acts ih =>
    obtain ⟨q, hq, hr⟩ := Option.bind_eq_some_iff.mp hr
    exact ih (h.step hq) hr

/-- **No two guards have one hash, and a hash is claimed while it is not registered if and only if
no transfer has registered it since the presence check.** -/
theorem claimed_once {registered : Finset H} {acts : List (PipelineAct H)}
    (h : runList step ⟨registered, ∅, none, []⟩ acts = some p) :
    p.guards.Nodup ∧ ∀ hash, p.step .tryClaim = some p' → p'.guards = hash :: p.guards →
      (hash ∉ p.registered ↔ acts.foldl (landed hash) false = false) := by
  have hinit : Tracks (H := H) ⟨registered, ∅, none, []⟩ fun _ => false := ⟨by simp, .nil, by simp⟩
  have htracks := hinit.runList h
  refine ⟨htracks.nodup, fun hash hs hg => ?_⟩
  obtain ⟨_, hstage, rfl⟩ := after_eq_some hs
  rw [tryClaim] at hg
  split_ifs at hg
  · exact absurd hg.symm (List.cons_ne_self _ _)
  · cases hg
    rw [htracks.seen _ _ hstage nofun, Bool.not_eq_true]

/-- The first of two blocks of one hash is transferred. -/
theorem claimed_once_first :
    ∃ p p', runList step ⟨∅, ∅, none, []⟩ [.evaluate 7, .checkPresence, .checkPending] = some p ∧
      p.step .tryClaim = some p' ∧ 7 ∉ p.registered :=
  ⟨_, _, rfl, rfl, ((@claimed_once _ _ _ _ ∅ [.evaluate 7, .checkPresence, .checkPending] rfl).2 7
    rfl rfl).mpr rfl⟩

/-- The transfer of the first block ends between the two checks of the second, which then claims
the hash that is registered. -/
theorem claimed_registered :
    ∃ p p', runList step ⟨∅, ∅, none, []⟩
        [.evaluate 7, .checkPresence, .checkPending, .tryClaim, .evaluate 7, .checkPresence,
          .register 7, .dropGuard 7, .checkPending] = some p ∧
      p.step .tryClaim = some p' ∧ p'.guards = 7 :: p.guards ∧ 7 ∈ p.registered :=
  ⟨_, _, rfl, rfl, rfl, by decide⟩

end Kvbm.Offload.BlockPipeline
