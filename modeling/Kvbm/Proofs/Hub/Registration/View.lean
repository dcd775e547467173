/-
What a step of the hub changes of an instance.

Of an instance three things matter for its registration: the state of its credential, its authority
in the directory, and the transition that is pending there.  A handler changes those of its own
instance only, and each call into the directory changes the two of them in one definite way.
-/
import Kvbm.Hub.Registration.Transaction
import Kvbm.Proofs.Hub.Bundle.Sound

namespace Kvbm.Hub.Bundle

open Lib

variable {H : Type} [DecidableEq H] [Bundle.SequenceHash H]

/-- An owner's authority, and its transition if one is pending. -/
abbrev Standing := Option OwnerAuthority × Option PendingOwnerRegistration

namespace Standing

/-- What `stage_owner_transition` makes of a standing, if it does not refuse. -/
def stage (s : Standing) (next : NextAuthority) (epoch : RegistrationEpoch) : Option Standing :=
  match s.2 with
  | some pending =>
    if pending.nextAuthority = next then
      if pending.transactionEpoch = epoch then some s else some (next.toOption, none)
    else if pending.previousAuthority = next.toOption then some (next.toOption, none)
    else none
  | none =>
    if s.1 = next.toOption then some s else some (none, some ⟨s.1, next, epoch, none⟩)

/-- What `bind_owner_registration` makes of a standing, if it does not refuse. -/
def bind (s : Standing) (epoch : RegistrationEpoch) (incarnation : RegistryIncarnation) :
    Option Standing :=
  match s.2 with
  | none => some s
  | some pending =>
    if pending.transactionEpoch ≠ epoch then none
    else
      match pending.incarnation with
      | some current => if current ≠ incarnation then none else some s
      | none => some (s.1, some { pending with incarnation := some incarnation })

/-- What `finalize_owner_registration` makes of a standing. -/
def finalize (s : Standing) (incarnation : RegistryIncarnation) : Standing :=
  match s.2 with
  | none => s
  | some pending =>
    if pending.incarnation = some incarnation then (pending.nextAuthority.toOption, none) else s

end Standing

def BundleDirectoryState.standing (s : BundleDirectoryState H) (i : InstanceId) : Standing :=
  (s.ownerCredentials i, s.pendingOwnerRegistrations i)

def BundleDirectory.standing (d : BundleDirectory H) (i : InstanceId) : Standing :=
  d.state.standing i

namespace BundleDirectoryState

variable {s : BundleDirectoryState H} {owner i : InstanceId}

theorem standing_clear : (s.clearOwnerMetadata owner).standing i = s.standing i := by
  obtain ⟨history, heq, -⟩ := @clear_eq _ _ _ s owner
  rw [heq]
  rfl

variable {now : Nat}

omit [DecidableEq H] [Bundle.SequenceHash H] in
theorem standing_install {next : NextAuthority} :
    (s.installNextAuthority owner next).standing i =
      if i = owner then (next.toOption, (s.standing i).2) else s.standing i := by
  unfold installNextAuthority standing
  by_cases hi : i = owner
  · subst hi
    simp
  · simp [hi]

omit [DecidableEq H] [Bundle.SequenceHash H] in
theorem standing_removePending :
    (s.removePending owner).standing i =
      if i = owner then ((s.standing i).1, none) else s.standing i := by
  unfold removePending standing
  by_cases hi : i = owner
  · subst hi
    simp
  · simp [hi]

end BundleDirectoryState

namespace BundleDirectory

open BundleDirectoryState

variable {d : BundleDirectory H} {owner i : InstanceId} {incarnation : RegistryIncarnation}

/-! ### Calls that change one owner's standing -/

variable {epoch : RegistrationEpoch} {credential : Option MutationCredential} {s : Standing}

theorem standing_stage_ne (hi : i ≠ owner) :
    (d.stageOwnerTransition owner credential epoch).2.standing i = d.standing i := by
  simp only [stageOwnerTransition]
  split
  · split_ifs
    · rfl
    · simp only [standing, standing_install, if_neg hi, standing_clear, standing_removePending]
    · simp only [standing, standing_install, if_neg hi, standing_removePending]
    · rfl
  · split_ifs
    · rfl
    · simp [standing, BundleDirectoryState.standing, hi]

theorem stageOwnerTransition_eq
    (h : (d.standing owner).stage (.of credential epoch) epoch = some s) :
    (d.stageOwnerTransition owner credential epoch).1 = .ok () ∧
      (d.stageOwnerTransition owner credential epoch).2.standing owner = s := by
  simp only [Standing.stage, standing, BundleDirectoryState.standing] at h
  simp only [stageOwnerTransition]
  cases hpending : d.state.pendingOwnerRegistrations owner with
  | some pending =>
    simp only [hpending] at h ⊢
    by_cases hnext : pending.nextAuthority = .of credential epoch
    · simp only [if_pos hnext] at h ⊢
      by_cases hepoch : pending.transactionEpoch = epoch
      · simp only [if_pos hepoch, Option.some.injEq] at h ⊢
        exact ⟨trivial, by rw [← h, ← hpending]; rfl⟩
      simp only [if_neg hepoch, Option.some.injEq] at h ⊢
      refine ⟨trivial, ?_⟩
      simp only [standing, standing_install, if_true, standing_clear, standing_removePending,
        hnext, h]
    · simp only [if_neg hnext] at h ⊢
      by_cases hprevious : pending.previousAuthority = (NextAuthority.of credential epoch).toOption
      · simp only [if_pos hprevious, Option.some.injEq] at h ⊢
        refine ⟨trivial, ?_⟩
        simp only [standing, standing_install, if_true, standing_removePending, h]
      · simp only [if_neg hprevious] at h
        cases h
  | none =>
    simp only [hpending] at h ⊢
    by_cases hsame : d.state.ownerCredentials owner = (NextAuthority.of credential epoch).toOption
    · simp only [if_pos hsame, Option.some.injEq] at h ⊢
      exact ⟨trivial, by rw [← h, ← hpending]; rfl⟩
    simp only [if_neg hsame, Option.some.injEq] at h ⊢
    refine ⟨trivial, ?_⟩
    simp [standing, BundleDirectoryState.standing, ← h]

omit [DecidableEq H] [Bundle.SequenceHash H] in
theorem standing_bind_ne (hi : i ≠ owner) :
    (d.bindOwnerRegistration owner epoch incarnation).2.standing i = d.standing i := by
  simp only [bindOwnerRegistration]
  split
  · rfl
  split_ifs
  · rfl
  split
  · split_ifs <;> rfl
  · simp [standing, BundleDirectoryState.standing, hi]

omit [DecidableEq H] [Bundle.SequenceHash H] in
theorem bindOwnerRegistration_eq (h : (d.standing owner).bind epoch incarnation = some s) :
    (d.bindOwnerRegistration owner epoch incarnation).1 = .ok () ∧
      (d.bindOwnerRegistration owner epoch incarnation).2.standing owner = s := by
  simp only [Standing.bind, standing, BundleDirectoryState.standing] at h
  simp only [bindOwnerRegistration]
  cases hpending : d.state.pendingOwnerRegistrations owner with
  | none =>
    simp only [hpending] at h
    cases h
    simp [standing, BundleDirectoryState.standing, hpending]
  | some pending =>
    simp only [hpending] at h
    simp only
    split_ifs at h ⊢ with hepoch
    cases hbound : pending.incarnation with
    | some =>
      simp only [hbound] at h
      simp only
      split_ifs at h ⊢
      cases h
      simp [standing, BundleDirectoryState.standing, hpending]
    | none =>
      simp only [hbound] at h
      cases h
      simp [standing, BundleDirectoryState.standing]

/-- What a finished transition leaves of everybody's standing. -/
theorem standing_finished {next : NextAuthority} {now : Nat} :
    ((((d.state.removePending owner).clearOwnerMetadata owner).prune now).installNextAuthority owner
      next).standing i = if i = owner then (next.toOption, none) else d.standing i := by
  have h : (((d.state.removePending owner).clearOwnerMetadata owner).prune now).standing i =
      ((d.state.removePending owner).clearOwnerMetadata owner).standing i := rfl
  rw [standing_install, h, standing_clear, standing_removePending]
  split_ifs <;> rfl

theorem standing_finalize :
    (d.finalizeOwnerRegistration owner incarnation).2.standing i =
      if i = owner then (d.standing i).finalize incarnation else d.standing i := by
  simp only [finalizeOwnerRegistration]
  cases hpending : d.state.pendingOwnerRegistrations owner with
  | none =>
    by_cases hi : i = owner
    · subst hi
      rw [if_pos rfl]
      simp [Standing.finalize, standing, BundleDirectoryState.standing, hpending]
    · rw [if_neg hi]
  | some pending =>
    by_cases hinc : pending.incarnation = some incarnation
    · simp only [hinc, ne_eq, not_true_eq_false, if_false]
      refine standing_finished.trans ?_
      by_cases hi : i = owner
      · subst hi
        rw [if_pos rfl, if_pos rfl]
        simp [Standing.finalize, standing, BundleDirectoryState.standing, hpending, hinc]
      · rw [if_neg hi, if_neg hi]
    · have hsame : ∀ e : Except BundleDirectoryError Unit, (e, d).2.standing i =
          if i = owner then (d.standing i).finalize incarnation else d.standing i := by
        intro e
        by_cases hi : i = owner
        · subst hi
          rw [if_pos rfl]
          simp [Standing.finalize, standing, BundleDirectoryState.standing, hpending, hinc]
        · rw [if_neg hi]
      cases hbound : pending.incarnation with
      | none =>
        simp only [hbound]
        exact hsame (.error (.unboundOwnerRegistration owner))
      | some expected =>
        have hne : expected ≠ incarnation := fun h => hinc (by rw [hbound, h])
        simp only [hbound, if_pos hne]
        exact hsame (.error (.staleOwnerRegistration owner expected incarnation))

theorem standing_removeOwner :
    (d.removeOwner owner).standing i = if i = owner then (none, none) else d.standing i := by
  have h : (d.removeOwner owner).standing i =
      ((d.state.installNextAuthority owner .removed).removePending owner).standing i := by
    refine List.foldlRecOn (motive := fun s : BundleDirectoryState H => s.standing i = _) _ _ rfl
      fun s hs a _ => ?_
    rw [← hs]
    unfold retireRecord
    split <;> rfl
  rw [h, standing_removePending, standing_install]
  split_ifs <;> rfl

end BundleDirectory

end Kvbm.Hub.Bundle

namespace Kvbm.Hub.Registration

open Hub.Bundle

variable {H : Type} [DecidableEq H]

/-- What the credentials and the directory know of an instance. -/
@[ext]
structure View where
  slot : Slot
  standing : Standing

namespace Server

variable {h h' : Server H} {owner i : InstanceId} {ok : Bool}

def view (h : Server H) (i : InstanceId) : View := ⟨h.credentials i, h.directory.standing i⟩

/-- A step leaves what the hub knows of an instance. -/
structure Spares (h h' : Server H) (i : InstanceId) : Prop where
  view : h'.view i = h.view i
  entry : h'.registry.entries i = h.registry.entries i

theorem Spares.refl : Spares h h i := ⟨rfl, rfl⟩

/-! ### The calls of a handler -/

variable {slot : Slot} {epoch : RegistrationEpoch} {permit : RegistrationPermit}
  {incarnation : RegistryIncarnation}

theorem view_setSlot :
    (h.setSlot owner slot).view i =
      if i = owner then ⟨slot, (h.view i).standing⟩ else h.view i := by
  by_cases hi : i = owner
  · subst hi
    simp [view, setSlot]
  · simp [view, setSlot, hi]

section

variable (hi : i ≠ owner)

include hi

theorem spares_setSlot : Spares h (h.setSlot owner slot) i := ⟨by rw [view_setSlot, if_neg hi], rfl⟩

theorem spares_register : Spares h (h.register owner).2 i :=
  ⟨rfl, by simp [register, Registry.register, hi]⟩

theorem spares_unregister : Spares h (h.unregister owner incarnation) i := by
  refine ⟨rfl, ?_⟩
  simp only [unregister, Registry.unregister]
  split_ifs <;> simp [hi]

theorem spares_bindRegistration : Spares h (h.bindRegistration owner epoch incarnation).2 i :=
  ⟨View.ext rfl (BundleDirectory.standing_bind_ne hi), rfl⟩

theorem spares_bindPrevious : Spares h (h.bindPrevious owner permit incarnation).2 i := by
  unfold bindPrevious
  split
  · exact .refl
  · exact spares_bindRegistration hi

variable [Bundle.SequenceHash H]

theorem spares_stageAuthority {credential : MutationCredential} {participates : Bool} :
    Spares h (h.stageAuthority owner credential epoch participates).2 i :=
  ⟨View.ext rfl (BundleDirectory.standing_stage_ne hi), rfl⟩

theorem spares_stagePrevious : Spares h (h.stagePrevious owner permit).2 i := by
  unfold stagePrevious
  split
  · exact .refl
  · exact spares_stageAuthority hi

end

variable [Bundle.SequenceHash H]

theorem view_onRegisterAny :
    (h.onRegisterAny owner incarnation).view i =
      if i = owner then ⟨(h.view i).slot, (h.view i).standing.finalize incarnation⟩
      else h.view i := by
  refine View.ext ?_ ?_
  · split_ifs <;> rfl
  · refine BundleDirectory.standing_finalize.trans ?_
    split_ifs <;> rfl

theorem view_onUnregister :
    ({ h with directory := h.directory.removeOwner owner } : Server H).view i =
      if i = owner then ⟨(h.view i).slot, (none, none)⟩ else h.view i := by
  refine View.ext ?_ ?_
  · split_ifs <;> rfl
  · refine BundleDirectory.standing_removeOwner.trans ?_
    split_ifs <;> rfl

end Server

end Kvbm.Hub.Registration
