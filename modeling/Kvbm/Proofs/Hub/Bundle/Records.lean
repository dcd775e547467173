/-
Whose call changes an owner's advertisements.

They go when they expire, when the owner itself publishes or invalidates, when the owner is removed,
and when a replaced registration is finished.  No other call changes them; a transition that is
staged and taken back leaves them all.
-/
import Kvbm.Proofs.Hub.Bundle.Revival

namespace Kvbm.Hub.Bundle

open Lib

variable {H : Type} [DecidableEq H] [SequenceHash H]

namespace BundleDirectoryState

/-- The owner's advertisements stay, but for those that have expired. -/
def Keeps (o : InstanceId) (now : Nat) (s s' : BundleDirectoryState H) : Prop :=
  ∀ key, s'.advertisements.get key o = s.advertisements.get key o ∨
    s'.advertisements.get key o = none ∧
      ∀ a, s.advertisements.get key o = some a → a.expiresAtUnixMs ≤ now

variable {s s' t : BundleDirectoryState H} {o owner : InstanceId} {now : Nat}

omit [SequenceHash H] in
theorem Keeps.of_eq (h : s'.advertisements = s.advertisements) : Keeps o now s s' :=
  fun key => .inl (by rw [h])

omit [SequenceHash H] in
theorem Keeps.trans {later : Nat} (h : Keeps o now s t) (h' : Keeps o later t s')
    (hle : now ≤ later) : Keeps o later s s' := by
  intro key
  obtain hsame | ⟨hgone, hexpired⟩ := h key
  · obtain hsame' | ⟨hgone', hexpired'⟩ := h' key
    · exact .inl (hsame'.trans hsame)
    · exact .inr ⟨hgone', fun a ha => hexpired' a (hsame.trans ha)⟩
  have hlate : ∀ a, s.advertisements.get key o = some a → a.expiresAtUnixMs ≤ later :=
    fun a ha => (hexpired a ha).trans hle
  obtain hsame' | ⟨hgone', -⟩ := h' key
  · exact .inr ⟨hsame'.trans hgone, hlate⟩
  · exact .inr ⟨hgone', hlate⟩

theorem keeps_prune (hs : s.Sound) : Keeps o now s (s.prune now) := by
  intro key
  have hlook := (hs.advertisements.pruneExpired now).2 (key, o)
  cases ha : s.advertisements.byKey.lookup (key, o) with
  | none =>
    rw [ha] at hlook
    exact .inl (hlook.trans ha.symm)
  | some =>
    rw [ha, Option.filter_some] at hlook
    split_ifs at hlook with hlive
    · exact .inl (hlook.trans ha.symm)
    refine .inr ⟨hlook, fun b hb => ?_⟩
    cases ha.symm.trans hb
    simpa using hlive

omit [SequenceHash H] in
theorem get_discard {i : AdvertisementIndex H} {key key' : BundleKey H} (ho : o ≠ owner) :
    (i.discard (key', owner)).get key o = i.get key o := by
  have hlook := AdvertisementIndex.lookup_discard (s := i) (i := (key', owner)) (key, o)
  rw [if_neg (by simp [ho])] at hlook
  exact hlook

end BundleDirectoryState

namespace BundleDirectory

open BundleDirectoryState

variable {d : BundleDirectory H} {o owner : InstanceId}

/-- The call is one that takes advertisements from the owner, or gives it some. -/
def Touches (d : BundleDirectory H) (o : InstanceId) : Action H → Prop
  | .removeOwner owner => o = owner
  | .publish request => o = request.advertisement.owner ∧ (d.publish request).1 = .ok ()
  | .invalidate request => o = request.owner ∧ ∃ exact, (d.invalidate request).1 = .ok exact
  | action => d.Renews o action

theorem touches_of_renews {action : Action H} (h : d.Renews o action) : d.Touches o action := by
  cases action with
  | removeOwner | publish | invalidate => exact h.elim
  | _ => exact h

theorem Edits.keeps {action : Action H} {s : BundleDirectoryState H} (hs : d.state.Sound)
    (hn : ¬ d.Touches o action) (h : Edits d action s) : Keeps o d.clock d.state s := by
  have hpruned : Keeps o d.clock d.state (d.state.prune d.clock) := keeps_prune hs
  have hsound : (d.state.prune d.clock).Sound := (moves_prune (p := fun _ => False) hs).sound
  induction h with
  | start => exact .of_eq rfl
  | authority _ hadv _ _ ih => exact (ih hn).trans (.of_eq hadv) le_rfl
  | prune h ih =>
    have hsound := (h.moves (p := fun _ => False) hs fun _ _ => id).sound
    exact (ih hn).trans (keeps_prune hsound) le_rfl
  | @clear owner _ hrenews =>
    have ho : o ≠ owner := fun ho => hn (ho ▸ touches_of_renews hrenews)
    intro key
    have hlook := (hs.advertisements.removeOwner owner).2 (key, o)
    rw [if_neg ho] at hlook
    obtain ⟨history, heq, -⟩ := @clear_eq _ _ _ (d.state.removePending owner) owner
    rw [heq]
    exact .inl hlook
  | accept hok haccept =>
    have ho : o ≠ (d.stamp _).owner := fun ho => hn ⟨ho, hok⟩
    obtain ⟨-, index, hindex, rfl⟩ := accept_eq_ok haccept
    refine hpruned.trans (fun key => .inl ?_) le_rfl
    have hlook := (hsound.advertisements.insert hindex).2 (key, o)
    rwa [if_neg (by simp [ho])] at hlook
  | retire hok hretire =>
    obtain ⟨r, -, rfl | ⟨rfl, -⟩⟩ := retire_eq_ok hretire
    · exact hpruned.trans (fun _ => .inl (get_discard fun ho => hn ⟨ho, _, hok⟩)) le_rfl
    · exact hpruned
  | retireRecord _ ih =>
    refine (ih hn).trans (fun key => .inl ?_) le_rfl
    unfold BundleDirectoryState.retireRecord
    split
    · rfl
    · exact get_discard hn
  | reorder hperm => exact fun key => .inl (AList.perm_lookup hperm).symm

/-- **No other call changes an owner's advertisements.** -/
theorem keeps_step (hs : d.state.Sound) (action : Action H) (hn : ¬ d.Touches o action) :
    Keeps o d.clock d.state (d.step action).state := by
  obtain ⟨s, clock, heq, -, hedits⟩ := step_edits action
  rw [heq]
  exact hedits.keeps hs hn

end BundleDirectory

end Kvbm.Hub.Bundle
