/-
Releases.

The destructor of an object without references ends the tenure of the slot the object
owns, if it still owns one.  A batch ends several tenures under one lock; each entry
stands for a reference that the batch owns, and this is what keeps the objects alive that
it comes to.  Whatever a release does, a primary is lost only if its flag says so.
-/
import Kvbm.Proofs.Store.Lookup

namespace Kvbm

open Lib LawfulIndex BlockStore

/-- What the end of a tenure leaves behind, and the handles to be marked absent. -/
inductive BlockStore.Ends {ι : Type} (s : BlockStore ι) (id : BlockId) (s' : BlockStore ι) :
    List BlockRegistrationHandle → Prop
  | reset {b : Bool} {h : SequenceHash} {x : BlockRegistrationHandle} :
      s.reg id = some (b, h, x) → (b = true ∨ s.resetOnRelease id = true) →
      s'.state id = .reset → Ends s id s' [x]
  | inactive {h : SequenceHash} {x : BlockRegistrationHandle} :
      s.reg id = some (false, h, x) → s'.state id = .inactive h x → Ends s id s' []

namespace World

section Frees

variable {ι : Type} {w w' w'' : World ι}

/-- Moves that lose a primary only where its flag says so, and do not touch reset slots. -/
structure Frees (w w' : World ι) : Prop where
  moves : Moves w w'
  saves : ∀ {id h x}, w.store.reg id = some (false, h, x) →
    w'.store.reg id = some (false, h, x) ∨
      w'.store.state id = .reset ∧ w'.store.resetOnRelease id = true
  blank : ∀ {id}, w.store.state id = .reset →
    w'.store.state id = .reset ∧ w'.store.resetOnRelease id = w.store.resetOnRelease id

theorem Frees.refl (w : World ι) : w.Frees w := ⟨.refl, .inl, fun hst => ⟨hst, rfl⟩⟩

theorem Frees.trans (hf : w.Frees w') (hf' : w'.Frees w'') : w.Frees w'' where
  moves := hf.moves.trans hf'.moves
  saves hr := by
    rcases hf.saves hr with hr' | ⟨hst, hflag⟩
    · exact hf'.saves hr'
    · exact .inr ⟨(hf'.blank hst).1, (hf'.blank hst).2.trans hflag⟩
  blank hst := by
    obtain ⟨h1, h2⟩ := hf.blank hst
    obtain ⟨h1', h2'⟩ := hf'.blank h1
    exact ⟨h1', h2'.trans h2⟩

theorem Frees.of_store (hm : Moves w w') (hs : w'.store = w.store) : w.Frees w' := by
  refine ⟨hm, fun hr => .inl (hs ▸ hr), fun hst => ?_⟩
  rw [hs]
  exact ⟨hst, rfl⟩

theorem Frees.flag {id : BlockId} {v : Bool} (ho : w.store.owner id ≠ none) :
    w.Frees { w with store := w.store.setFlag id v } := by
  refine ⟨.single (.quiet (.of_state rfl) rfl le_rfl), .inl, fun {j} hst => ⟨hst, ?_⟩⟩
  have hj : j ≠ id := by
    rintro rfl
    simp [BlockStore.owner, hst, SlotState.owner] at ho
  exact Function.update_of_ne hj _ _

end Frees

section Destructor

variable {ι : Type} {w w' : World ι} {i : InnerId}

/-- What an object owns, if anything, is the slot it names, in the state it expects. -/
theorem Ok.owner_cases (hok : w.Ok) (i : InnerId) :
    (w.store.owner (w.inners i).blockId = some i ∧
      w.store.state (w.inners i).blockId = (w.inners i).slotState i) ∨
    ∀ id, w.store.owner id ≠ some i := by
  by_cases ho : w.store.owner (w.inners i).blockId = some i
  · exact .inl ⟨ho, (hok.own ho).2.2.2⟩
  · exact .inr fun id hid => ho ((hok.own hid).2.2.1 ▸ hid)

theorem releasePrimary_cases [InactiveIndex ι] (hok : w.Ok) (hp : (w.inners i).isPrimary = true)
    (hr : w.releasePrimary i = some w') :
    (∃ s absent, w.store.owner (w.inners i).blockId = some i ∧
      w.store.state (w.inners i).blockId = .primary (w.inners i).seqHash (w.inners i).handle i ∧
      w.store.retirePrimary (w.inners i).blockId (w.inners i).seqHash (w.inners i).handle =
        some (absent, s) ∧ w' = { w with store := s }.markLater absent.toList) ∨
    (∀ id, w.store.owner id ≠ some i) ∧ w' = w := by
  rcases hok.owner_cases i with ⟨ho, hst⟩ | hno
  · rw [ImmutableBlockInner.slotState, if_pos hp] at hst
    simp only [releasePrimary, hst, if_true] at hr
    obtain ⟨⟨absent, s⟩, hret, rfl⟩ := Option.map_eq_some_iff.mp hr
    exact .inl ⟨s, absent, ho, hst, hret, rfl⟩
  · refine .inr ⟨hno, ?_⟩
    simp only [releasePrimary] at hr
    split at hr
    · next h x j hst =>
        rw [if_neg fun hj => hno _ (owner_primary (hj ▸ hst))] at hr
        exact (Option.some.inj hr).symm
    · exact (Option.some.inj hr).symm

theorem releaseDuplicate_cases (hok : w.Ok) (hp : (w.inners i).isPrimary = false) :
    (w.store.owner (w.inners i).blockId = some i ∧
      w.store.state (w.inners i).blockId = .duplicate (w.inners i).seqHash (w.inners i).handle i ∧
      w.releaseDuplicate i =
        { w with store := w.store.resetSlot (w.inners i).blockId }.markLater
          [(w.inners i).handle]) ∨
    (∀ id, w.store.owner id ≠ some i) ∧ w.releaseDuplicate i = w := by
  rcases hok.owner_cases i with ⟨ho, hst⟩ | hno
  · rw [ImmutableBlockInner.slotState, if_neg (by simp [hp])] at hst
    refine .inl ⟨ho, hst, ?_⟩
    simp only [releaseDuplicate, hst, if_true]
  refine .inr ⟨hno, ?_⟩
  simp only [releaseDuplicate]
  split
  · next h x j hst =>
      rw [if_neg fun hj => hno _ (owner_duplicate (hj ▸ hst))]
  · rfl

end Destructor

variable {ι : Type} [InactiveIndex ι] [LawfulIndex ι]
variable {w w' : World ι} {i : InnerId} {id : BlockId} {s : BlockStore ι}
  {x : BlockRegistrationHandle} {h : SequenceHash}

/-- The end of a tenure, as a move. -/
theorem Frees.vacate {absent : List BlockRegistrationHandle}
    (hi : w.strong i = 0) (ho : w.store.owner id = some i) (hret : w.store.Retires id s)
    (hend : w.store.Ends id s absent) : w.Frees ({ w with store := s }.markLater absent) := by
  have hblank : ∀ {j}, w.store.state j = .reset →
      s.state j = .reset ∧ s.resetOnRelease j = w.store.resetOnRelease j := by
    intro j hst
    have hj : j ≠ id := by
      rintro rfl
      simp [BlockStore.owner, hst, SlotState.owner] at ho
    exact ⟨(hret.state_ne hj).trans hst, congrFun hret.flag j⟩
  have hsaves : ∀ {j r}, j ≠ id → w.store.reg j = some r → s.reg j = some r := fun hj hr =>
    (congrArg SlotState.reg (hret.state_ne hj)).trans hr
  cases hend with
  | @reset b h x hreg hflag hst =>
    obtain ⟨hd, hh⟩ := hret.deregisters hst hreg
    refine ⟨.single (.vacate hi ho hret.owner (fun j hj => hret.state_ne hj) hd hh
      (slotCount_congr hret.config)), fun {j g y} hr => ?_, hblank⟩
    by_cases hj : j = id
    · subst hj
      rw [hreg] at hr
      cases hr
      refine .inr ⟨hst, ?_⟩
      show s.resetOnRelease j = true
      rw [hret.flag]
      exact hflag.resolve_left (by simp)
    · exact .inl (hsaves hj hr)
  | inactive hreg hst =>
    have hsame := hret.reg_eq hst hreg
    refine ⟨.single (.vacate hi ho hret.owner (fun j hj => hret.state_ne hj) (.of_reg hsame) rfl
      (slotCount_congr hret.config)), fun hr => .inl ?_, hblank⟩
    show s.reg _ = _
    rw [hsame]
    exact hr

/-! ### The destructor -/

omit [InactiveIndex ι] [LawfulIndex ι] in
theorem owns_nothing (hok : w.Ok) (ho : w.store.owner id = some i) (hself : s.owner id = none)
    (hother : ∀ j, j ≠ id → s.state j = w.store.state j) (j : BlockId) : s.owner j ≠ some i := by
  intro hj
  by_cases hid : j = id
  · rw [hid, hself] at hj
    cases hj
  · rw [BlockStore.owner, hother j hid] at hj
    exact hid (hok.owner_unique hj ho)

/-- **The destructor keeps the store in order.** -/
theorem releaseInner_spec (hok : w.Ok) (ht : w.store.Tidy []) (hi : w.strong i = 0)
    (hlt : i < w.nextInner) (hr : w.releaseInner i = some w') : w.Frees w' ∧ w'.store.Tidy [] := by
  have hend : ∀ {s : BlockStore ι} {absent : List BlockRegistrationHandle},
      w.store.owner (w.inners i).blockId = some i → w.store.Retires (w.inners i).blockId s →
      w.store.Ends (w.inners i).blockId s absent →
      w.Frees (({ w with store := s }.markLater absent).setReleased i) ∧ s.Tidy [] := by
    intro s absent ho hret hends
    have hfinish : Move ({ w with store := s }.markLater absent)
        (({ w with store := s }.markLater absent).setReleased i) :=
      .finish hi hlt (owns_nothing hok ho hret.owner fun j hj => hret.state_ne hj)
    exact ⟨(Frees.vacate hi ho hret hends).trans (.of_store (.single hfinish) rfl), hret.tidy⟩
  have hnone : (∀ id, w.store.owner id ≠ some i) → w.Frees (w.setReleased i) ∧ w.store.Tidy [] :=
    fun hno => ⟨.of_store (.single (.finish hi hlt hno)) rfl, ht⟩
  unfold releaseInner at hr
  split_ifs at hr with hp
  · obtain ⟨w1, hw1, rfl⟩ := Option.map_eq_some_iff.mp hr
    rcases releasePrimary_cases hok hp hw1 with ⟨s, absent, ho, hst, hret, rfl⟩ | ⟨hno, rfl⟩
    · obtain ⟨hret, hcase⟩ := retirePrimary_spec ht hst hret
      refine hend ho hret ?_
      rcases hcase with ⟨rfl, hflag, hself⟩ | ⟨rfl, -, hself⟩
      · exact .reset (reg_primary hst) (.inr hflag) hself
      · exact .inactive (reg_primary hst) hself
    · exact hnone hno
  · cases hr
    rcases releaseDuplicate_cases hok (by simpa using hp) with ⟨ho, hst, heq⟩ | ⟨hno, heq⟩
    · rw [heq]
      exact hend ho (resetDuplicate_spec ht hst)
        (.reset (reg_duplicate hst) (.inl rfl) resetSlot_state_self)
    · rw [heq]
      exact hnone hno

end World

end Kvbm
