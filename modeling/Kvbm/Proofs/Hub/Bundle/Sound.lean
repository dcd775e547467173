/-
What every call keeps of a directory.

A stored advertisement is newer than what has been retired for its key and owner, and everything
that is kept beside the records agrees with them.  A mark stays as long as it is to be kept, and
only rises, until its owner's lifecycle ends.
-/
import Kvbm.Lib.Run
import Kvbm.Hub.Bundle.Directory
import Kvbm.Proofs.Hub.Bundle.Index
import Kvbm.Proofs.Hub.Bundle.Retired
import Kvbm.Proofs.Hub.Bundle.History

namespace Kvbm.Hub.Bundle

open Lib Option RetiredGenerations

variable {H : Type} [DecidableEq H] [SequenceHash H]

namespace BundleDirectoryState

/-- **An advertisement is newer than what is retired under its identity**, and the agenda, the
counters and the lengths agree with the records. -/
structure Sound (s : BundleDirectoryState H) : Prop where
  advertisements : s.advertisements.Exact
  retired : s.retiredGenerations.Exact
  expired : s.expiredAdvertisements.Exact
  newer : ∀ i a m, s.advertisements.byKey.lookup i = some a →
    s.retiredGenerations.entries.lookup i = some m → m.generation < a.generation

/-- A call at time `now` keeps the directory sound, and the marks of the owners in `p` that are
to be kept beyond `now`. -/
structure Moves (now : Nat) (p : InstanceId → Prop) (s s' : BundleDirectoryState H) : Prop where
  sound : s'.Sound
  marks : ∀ i m, p i.2 → s.retiredGenerations.entries.lookup i = some m →
    now < m.retainUntilUnixMs → ∃ m', s'.retiredGenerations.entries.lookup i = some m' ∧
      m.generation ≤ m'.generation ∧ m.retainUntilUnixMs ≤ m'.retainUntilUnixMs

variable {s s' t : BundleDirectoryState H} {now : Nat} {p : InstanceId → Prop}
  {owner : InstanceId} {a : BundleAdvertisementRecord H}

theorem sound_new {l m n j k : Nat} : (new l m n j k : BundleDirectoryState H).Sound where
  advertisements := AdvertisementIndex.exact_new
  retired := exact_new
  expired := ExpiredAdvertisementHistory.exact_new
  newer _ _ _ h := by cases h

theorem Moves.trans (h : Moves now p s t) (h' : Moves now p t s') : Moves now p s s' where
  sound := h'.sound
  marks i m hp hm hkeep := by
    obtain ⟨n, hn, hgen, hret⟩ := h.marks i m hp hm hkeep
    obtain ⟨n', hn', hgen', hret'⟩ := h'.marks i n hp hn (hkeep.trans_le hret)
    exact ⟨n', hn', hgen.trans hgen', hret.trans hret'⟩

/-- Nothing changes that the records are judged by. -/
theorem Moves.of_eq (hs : s.Sound) (hadv : s'.advertisements = s.advertisements)
    (hret : s'.retiredGenerations = s.retiredGenerations)
    (hexp : s'.expiredAdvertisements.Exact) : Moves now p s s' where
  sound := ⟨hadv ▸ hs.advertisements, hret ▸ hs.retired, hexp, by rw [hadv, hret]; exact hs.newer⟩
  marks i m _ hm _ := ⟨m, hret ▸ hm, le_rfl, le_rfl⟩

theorem Moves.refl (hs : s.Sound) : Moves now p s s := .of_eq hs rfl rfl hs.expired

variable {key : BundleKey H}

theorem moves_prune (hs : s.Sound) : Moves now p s (s.prune now) := by
  obtain ⟨hadv, hadvLook⟩ := hs.advertisements.pruneExpired now
  obtain ⟨hret, hretLook⟩ := hs.retired.prune now
  refine ⟨⟨hadv, hret, hs.expired.record, ?_⟩, ?_⟩
  · intro i a m ha hm
    have ha' := (hadvLook i).symm.trans ha
    have hm' := (hretLook i).symm.trans hm
    exact hs.newer i a m (filter_eq_some_iff.mp ha').1 (filter_eq_some_iff.mp hm').1
  · intro i m _ hm hkeep
    refine ⟨m, (hretLook i).trans ?_, le_rfl, le_rfl⟩
    rw [hm, filter_some, if_pos (decide_eq_true hkeep)]

/-- After pruning every mark is to be kept, and every advertisement has time left. -/
theorem prune_live (hs : s.Sound) {i : Identity H} :
    (∀ m, (s.prune now).retiredGenerations.entries.lookup i = some m → now < m.retainUntilUnixMs) ∧
    ∀ a, (s.prune now).advertisements.byKey.lookup i = some a → now < a.expiresAtUnixMs := by
  obtain ⟨-, hadvLook⟩ := hs.advertisements.pruneExpired now
  obtain ⟨-, hretLook⟩ := hs.retired.prune now
  constructor
  · intro m hm
    exact of_decide_eq_true (filter_eq_some_iff.mp ((hretLook i).symm.trans hm)).2
  · intro a ha
    exact of_decide_eq_true (filter_eq_some_iff.mp ((hadvLook i).symm.trans ha)).2

/-! ### The end of a lifecycle -/

theorem forget_all_eq (keys : List (BundleKey H)) :
    ∃ history, keys.foldl forget s = { s with expiredAdvertisements := history } ∧
      (s.expiredAdvertisements.Exact → history.Exact) := by
  induction keys generalizing s with
  | nil => exact ⟨_, rfl, id⟩
  | cons key keys ih =>
    obtain ⟨history, heq, hexact⟩ := @ih (s.forget key)
    exact ⟨history, heq, fun h => hexact h.forget⟩

theorem clear_eq (owner : InstanceId) :
    ∃ history, s.clearOwnerMetadata owner = { s with
        advertisements := (s.advertisements.removeOwner owner).2
        retiredGenerations := (s.retiredGenerations.removeOwner owner).2
        expiredAdvertisements := history } ∧
      (s.expiredAdvertisements.Exact → history.Exact) :=
  forget_all_eq _

/-- **Clearing an owner** leaves the marks of all others. -/
theorem moves_clear (hs : s.Sound) (hp : ¬ p owner) :
    Moves now p s (s.clearOwnerMetadata owner) := by
  obtain ⟨hadv, hadvLook⟩ := hs.advertisements.removeOwner owner
  obtain ⟨hret, hretLook⟩ := hs.retired.removeOwner owner
  obtain ⟨history, heq, hexact⟩ := @clear_eq _ _ _ s owner
  rw [heq]
  refine ⟨⟨hadv, hret, hexact hs.expired, ?_⟩, ?_⟩
  · intro i a m ha hm
    have ha' := (hadvLook i).symm.trans ha
    have hm' := (hretLook i).symm.trans hm
    split_ifs at ha' hm'
    exact hs.newer i a m ha' hm'
  · intro i m hpi hm _
    have hi : i.2 ≠ owner := fun h => hp (h ▸ hpi)
    exact ⟨m, ((hretLook i).trans (if_neg hi)).trans hm, le_rfl, le_rfl⟩

/-! ### Publishing -/

omit [SequenceHash H] in
/-- What is not refused is newer than the mark. -/
theorem lt_of_not_rejected {generation : Nat} {m : RetiredGeneration}
    (h : s.retiredGenerations.rejectedGeneration key owner generation now = none)
    (hm : s.retiredGenerations.entries.lookup (key, owner) = some m)
    (hkeep : now < m.retainUntilUnixMs) : m.generation < generation := by
  rw [rejectedGeneration, hm, filter_some, map_eq_none_iff] at h
  by_contra hlt
  rw [if_pos (decide_eq_true ⟨not_lt.mp hlt, hkeep⟩)] at h
  cases h

/-- An accepted advertisement is not refused, and there is room for it. -/
theorem accept_eq_ok (h : s.accept a now = .ok s') :
    s.retiredGenerations.rejectedGeneration a.key a.owner a.generation now = none ∧
      ∃ index, s.advertisements.insert a = .ok index ∧
        s' = { s with advertisements := index }.forget a.key := by
  simp only [accept] at h
  split at h
  next => cases h
  next hrejected =>
    obtain ⟨-, -, hmap⟩ := bind_eq_ok.mp h
    obtain ⟨index, hindex, rfl⟩ := map_eq_ok.mp hmap
    exact ⟨hrejected, index, mapError_eq_ok.mp hindex, rfl⟩

/-- **An accepted advertisement is newer than the mark.** -/
theorem moves_accept (hs : s.Sound)
    (hlive : ∀ i m, s.retiredGenerations.entries.lookup i = some m → now < m.retainUntilUnixMs)
    (h : s.accept a now = .ok s') : Moves now p s s' := by
  obtain ⟨hrejected, index, hindex, rfl⟩ := accept_eq_ok h
  obtain ⟨hexact, hlook⟩ := hs.advertisements.insert hindex
  refine ⟨⟨hexact, hs.retired, hs.expired.forget, ?_⟩, fun i m _ hm _ => ⟨m, hm, le_rfl, le_rfl⟩⟩
  intro i b m hb hm
  have hb' := (hlook i).symm.trans hb
  split_ifs at hb' with hi
  · subst hi
    rw [← some.inj hb']
    exact lt_of_not_rejected hrejected hm (hlive _ m hm)
  · exact hs.newer i b m hb' hm

/-! ### Retiring -/

variable {key : BundleKey H} {generation keep : Nat} {r : RetiredGenerations H}

/-- A generation is retired and the advertisement goes. -/
theorem moves_retire_discard (hs : s.Sound)
    (hr : RetiredGenerations.Retires s.retiredGenerations r (key, owner) generation keep now) :
    Moves now p s ({ s with
      retiredGenerations := r
      advertisements := s.advertisements.discard (key, owner) }.forget key) := by
  refine ⟨⟨hs.advertisements.discard, hr.exact hs.retired, hs.expired.forget, ?_⟩,
    fun i m _ hm _ => hr.rises hm⟩
  intro i a m ha hm
  have ha' := (AdvertisementIndex.lookup_discard i).symm.trans ha
  split_ifs at ha' with hi
  exact hs.newer i a m ha' ((hr.others i hi).symm.trans hm)

/-- A generation is retired that is older than the advertisement, if there is one. -/
theorem moves_retire_only (hs : s.Sound)
    (hr : RetiredGenerations.Retires s.retiredGenerations r (key, owner) generation keep now)
    (hnewer : ∀ a, s.advertisements.get key owner = some a → generation < a.generation) :
    Moves now p s { s with retiredGenerations := r } := by
  refine ⟨⟨hs.advertisements, hr.exact hs.retired, hs.expired, ?_⟩, fun i m _ hm _ => hr.rises hm⟩
  intro i a m ha hm
  by_cases hi : i = (key, owner)
  · subst hi
    exact hr.below (fun old hold => hs.newer _ a old ha hold) (hnewer a ha) hm
  · exact hs.newer i a m ha ((hr.others i hi).symm.trans hm)

/-- How long a retirement is asked to be kept: at least as long as the advertisement it ends. -/
def keepUntil (s : BundleDirectoryState H) (request : BundleInvalidateRequest H) (now : Nat) :
    Nat :=
  let bounded := s.retiredGenerations.boundedAbsentDeadline request.retainUntilUnixMs now
  match (s.advertisements.get request.key request.owner).filter
      fun entry => entry.generation ≤ request.generation with
  | some entry => max entry.expiresAtUnixMs bounded
  | none => bounded

/-- A live advertisement goes, or a generation is retired that is older than it. -/
theorem retire_eq_ok {request : BundleInvalidateRequest H} {exact : Bool}
    (h : s.retire request now = .ok (exact, s')) :
    ∃ r, Retires s.retiredGenerations r (request.key, request.owner) request.generation
        (s.keepUntil request now) now ∧
      (s' = { s with
        retiredGenerations := r
        advertisements := s.advertisements.discard (request.key, request.owner) }.forget
          request.key ∨
      s' = { s with retiredGenerations := r } ∧
        ∀ a, s.advertisements.get request.key request.owner = some a →
          request.generation < a.generation) := by
  simp only [retire] at h
  simp only [keepUntil]
  cases hentry : (s.advertisements.get request.key request.owner).filter
      fun entry => decide (entry.generation ≤ request.generation) with
  | some entry =>
    simp only [hentry] at h
    obtain ⟨r, hr, heq⟩ := map_eq_ok.mp h
    obtain ⟨-, rfl⟩ := Prod.mk.inj heq
    exact ⟨r, retires_retireLive (mapError_eq_ok.mp hr), .inl rfl⟩
  | none =>
    simp only [hentry] at h
    obtain ⟨-, -, hmap⟩ := bind_eq_ok.mp h
    obtain ⟨r, hr, heq⟩ := map_eq_ok.mp hmap
    obtain ⟨-, rfl⟩ := Prod.mk.inj heq
    refine ⟨r, retires_retireAbsent (mapError_eq_ok.mp hr), .inr ⟨rfl, fun a ha => ?_⟩⟩
    rw [ha, filter_some] at hentry
    by_contra hle
    rw [if_pos (decide_eq_true (not_lt.mp hle))] at hentry
    cases hentry

/-- **A successful invalidation raises the mark.** -/
theorem moves_retire {request : BundleInvalidateRequest H} {exact : Bool} (hs : s.Sound)
    (h : s.retire request now = .ok (exact, s')) : Moves now p s s' := by
  obtain ⟨r, hr, rfl | ⟨rfl, hnewer⟩⟩ := retire_eq_ok h
  · exact moves_retire_discard hs hr
  · exact moves_retire_only hs hr hnewer

theorem moves_retireRecord (hs : s.Sound) : Moves now p s (retireRecord owner now s a) := by
  unfold retireRecord
  split
  · exact .refl hs
  · rename_i r hr
    exact moves_retire_discard hs (retires_retireLive hr)

end BundleDirectoryState

/-! ### The calls -/

namespace BundleDirectory

open BundleDirectoryState

/-- A replaced registration is finished: the owner's lifecycle ends, and the next one begins. -/
def Renews (d : BundleDirectory H) (o : InstanceId) : Action H → Prop
  | .stage owner credential transactionEpoch =>
    o = owner ∧ ∃ pending, d.state.pendingOwnerRegistrations owner = some pending ∧
      pending.nextAuthority = .of credential transactionEpoch ∧
      pending.transactionEpoch ≠ transactionEpoch
  | .finalize owner incarnation =>
    o = owner ∧ ∃ pending, d.state.pendingOwnerRegistrations owner = some pending ∧
      pending.incarnation = some incarnation
  | _ => False

/-- What the calls are made of.  Only the last calls of an owner's lifecycle clear, and only calls
that succeed store or retire. -/
inductive Edits (d : BundleDirectory H) : Action H → BundleDirectoryState H → Prop
  | start : Edits d action d.state
  | authority (h : Edits d action s) (hadv : t.advertisements = s.advertisements)
      (hret : t.retiredGenerations = s.retiredGenerations)
      (hexp : t.expiredAdvertisements = s.expiredAdvertisements) : Edits d action t
  | prune (h : Edits d action s) : Edits d action (s.prune d.clock)
  | clear (hrenews : d.Renews owner action) :
      Edits d action ((d.state.removePending owner).clearOwnerMetadata owner)
  | accept (hok : (d.publish request).1 = .ok ())
      (h : (d.state.prune d.clock).accept (d.stamp request.advertisement) d.clock = .ok s) :
      Edits d (.publish request) s
  | retire (hok : (d.invalidate request).1 = .ok exact)
      (h : (d.state.prune d.clock).retire request d.clock = .ok (exact, s)) :
      Edits d (.invalidate request) s
  | retireRecord (h : Edits d (.removeOwner owner) s) :
      Edits d (.removeOwner owner) (.retireRecord owner d.clock s a)
  | reorder (hperm : d.state.advertisements.byKey.entries.Perm byKey.entries) :
      Edits d (.reorder byKey)
        { d.state with advertisements := { d.state.advertisements with byKey } }

variable {d : BundleDirectory H} {p : InstanceId → Prop} {owner : InstanceId} {action : Action H}
  {s : BundleDirectoryState H}

/-- Every step is made of edits, and the clock does not go back. -/
theorem step_edits (action : Action H) :
    ∃ s clock, d.step action = { d with state := s, clock } ∧ d.clock ≤ clock ∧
      Edits d action s := by
  have kept {s : BundleDirectoryState H} (h : Edits d action s) : ∃ s' clock,
      { d with state := s } = { d with state := s', clock } ∧ d.clock ≤ clock ∧ Edits d action s' :=
    ⟨s, d.clock, rfl, le_rfl, h⟩
  cases action with
  | tick => exact ⟨_, _, rfl, le_max_left _ _, .start⟩
  | stage =>
    simp only [step, stageOwnerTransition]
    split
    next pending hpending =>
      split_ifs with hnext hepoch
      · exact kept .start
      · exact kept (.authority (.clear ⟨rfl, pending, hpending, hnext, hepoch⟩) rfl rfl rfl)
      · exact kept (.authority .start rfl rfl rfl)
      · exact kept .start
    next =>
      split_ifs
      · exact kept .start
      · exact kept (.authority .start rfl rfl rfl)
  | bind =>
    simp only [step, bindOwnerRegistration]
    split
    · exact kept .start
    split_ifs
    · exact kept .start
    split
    · split_ifs <;> exact kept .start
    · exact kept (.authority .start rfl rfl rfl)
  | finalize =>
    simp only [step, finalizeOwnerRegistration]
    split
    next => exact kept .start
    next pending hpending =>
      split
      next => exact kept .start
      next expected hbound =>
        split_ifs with hexpected
        · exact kept .start
        rw [not_not] at hexpected
        exact kept (.authority (.prune (.clear ⟨rfl, pending, hpending, hexpected ▸ hbound⟩))
          rfl rfl rfl)
  | removeOwner =>
    exact kept (.prune (List.foldlRecOn (motive := Edits d _) _ _ (.authority .start rfl rfl rfl)
      fun _ h _ _ => h.retireRecord))
  | publish request =>
    simp only [step]
    cases hcheck : d.checkPublish request with
    | error => exact ⟨d.state, _, by simp only [publish, hcheck], le_rfl, .start⟩
    | ok =>
      cases haccept : (d.state.prune d.clock).accept (d.stamp request.advertisement) d.clock with
      | error =>
        exact ⟨_, _, by simp only [publish, hcheck, haccept], le_rfl, .prune .start⟩
      | ok s =>
        exact ⟨s, _, by simp only [publish, hcheck, haccept], le_rfl,
          .accept (by simp only [publish, hcheck, haccept]) haccept⟩
  | invalidate request =>
    simp only [step]
    cases hauthorize : d.state.authorizeOwner request.owner request.credential with
    | error => exact ⟨d.state, _, by simp only [invalidate, hauthorize], le_rfl, .start⟩
    | ok =>
      cases hretire : (d.state.prune d.clock).retire request d.clock with
      | error =>
        exact ⟨_, _, by simp only [invalidate, hauthorize, hretire], le_rfl, .prune .start⟩
      | ok retired =>
        exact ⟨retired.2, _, by simp only [invalidate, hauthorize, hretire], le_rfl,
          .retire (by simp only [invalidate, hauthorize, hretire]) hretire⟩
  | prune => exact kept (.prune .start)
  | query =>
    simp only [step]
    split_ifs
    · exact kept (.prune .start)
    · exact kept .start
  | reorder =>
    simp only [step, BundleDirectory.reorder]
    split_ifs with hperm
    · exact kept (.reorder hperm)
    · exact kept .start

theorem clock_le_step : d.clock ≤ (d.step action).clock := by
  obtain ⟨s, clock, heq, hle, -⟩ := step_edits action
  rw [heq]
  exact hle

theorem moves_reorder {byKey : Listed (Identity H) (BundleAdvertisementRecord H)}
    (hs : s.Sound) (hperm : s.advertisements.byKey.entries.Perm byKey.entries) (now : Nat) :
    Moves now p s { s with advertisements := { s.advertisements with byKey } } := by
  have hlook : ∀ i, byKey.lookup i = s.advertisements.byKey.lookup i :=
    fun i => (AList.perm_lookup hperm).symm
  have hadv := hs.advertisements
  refine ⟨⟨⟨⟨?_, ?_, ?_⟩, ?_⟩, hs.retired, hs.expired, ?_⟩, fun i m _ hm _ =>
    ⟨m, hm, le_rfl, le_rfl⟩⟩
  · intro i r hr
    exact hadv.identity i r ((hlook i).symm.trans hr)
  · intro o
    rw [hadv.owners o]
    exact congrArg stored (Listed.count_perm hperm)
  · exact hadv.total.trans hperm.length_eq
  · exact hadv.scheduled.congr fun i => congrArg (Option.map _) (hlook i)
  · intro i a m ha hm
    exact hs.newer i a m ((hlook i).symm.trans ha) hm

/-- **Edits** keep the directory sound, and the marks of the owners whose lifecycle goes on. -/
theorem Edits.moves (hs : d.state.Sound) (hp : ∀ o, d.Renews o action → ¬ p o)
    (h : Edits d action s) : Moves d.clock p d.state s := by
  have hpruned : Moves d.clock p d.state (d.state.prune d.clock) := moves_prune hs
  induction h with
  | start => exact .refl hs
  | authority _ hadv hret hexp ih =>
    exact (ih hp).trans (.of_eq (ih hp).sound hadv hret (hexp ▸ (ih hp).sound.expired))
  | prune _ ih => exact (ih hp).trans (moves_prune (ih hp).sound)
  | @clear owner _ hrenews =>
    have hremoved : Moves d.clock p d.state (d.state.removePending owner) :=
      .of_eq hs rfl rfl hs.expired
    exact hremoved.trans (moves_clear hremoved.sound (hp _ hrenews))
  | accept _ haccept =>
    exact hpruned.trans (moves_accept hpruned.sound (fun i => (prune_live hs).1) haccept)
  | retire _ hretire => exact hpruned.trans (moves_retire hpruned.sound hretire)
  | retireRecord _ ih => exact (ih hp).trans (moves_retireRecord (ih hp).sound)
  | reorder hperm => exact moves_reorder hs hperm _

theorem moves_step (hs : d.state.Sound) (action : Action H)
    (hp : ∀ o, d.Renews o action → ¬ p o) : Moves d.clock p d.state (d.step action).state := by
  obtain ⟨s, clock, heq, -, hedits⟩ := step_edits action
  rw [heq]
  exact hedits.moves hs hp

end BundleDirectory

end Kvbm.Hub.Bundle
