/-
Registration.

A staged block is registered after a lookup of its hash.  If the hash has a primary, the
block becomes a duplicate that keeps the primary alive, or it is turned down; if not, it
becomes the primary.
-/
import Kvbm.Proofs.Store.Lookup

namespace Kvbm.World

open Lib LawfulIndex BlockStore List Option

section Enlists

variable {ι : Type} {w w' w'' : World ι}

/-- Moves that keep every registration; those that are made are among `blocks`. -/
structure Enlists (w : World ι) (blocks : List (BlockId × BlockRegistrationHandle))
    (w' : World ι) : Prop where
  moves : MovesOf (fun x => x ∈ blocks.map Prod.snd) w w'
  keeps : ∀ {id r}, w.store.reg id = some r → w'.store.reg id = some r
  plain : ∀ id, id ∉ blocks.map Prod.fst → w.store.reg id = none →
    w'.store.state id = w.store.state id

theorem Finds.enlists (hf : w.Finds w') : w.Enlists [] w' :=
  ⟨hf.moves.of, fun hr => hf.reg ▸ hr, fun id _ hid => hf.plain id hid⟩

theorem Enlists.trans {blocks blocks' : List (BlockId × BlockRegistrationHandle)}
    (he : w.Enlists blocks w') (he' : w'.Enlists blocks' w'') :
    w.Enlists (blocks ++ blocks') w'' := by
  refine ⟨?_, fun hr => he'.keeps (he.keeps hr), fun id hid hreg => ?_⟩
  · rw [map_append]
    exact (he.moves.mono fun _ hx => mem_append_left _ hx).trans
      (he'.moves.mono fun _ hx => mem_append_right _ hx)
  · rw [map_append, mem_append, not_or] at hid
    have hst := he.plain id hid.1 hreg
    refine (he'.plain id hid.2 ?_).trans hst
    rw [BlockStore.reg, hst]
    exact hreg

/-- One slot gets a registration. -/
theorem Creates.enlists {x : ImmutableBlockInner} {s : BlockStore ι} (hc : w.Creates x s)
    (hreg : w.store.reg x.blockId = none) :
    w.Enlists [(x.blockId, x.handle)]
      { w.newInner x with store := s, marking := w.nextInner :: w.marking } := by
  refine ⟨.single (.register hc hreg (by simp)), fun {id r} hr => ?_,
    fun id hid _ => hc.other id (by simpa using hid)⟩
  have hne : id ≠ x.blockId := by
    rintro rfl
    rw [hreg] at hr
    cases hr
  show s.reg id = some r
  rw [BlockStore.reg, hc.other id hne]
  exact hr

end Enlists

variable {ι : Type} [InactiveIndex ι] [LawfulIndex ι]
variable {w w' : World ι} {h : SequenceHash} {id : BlockId} {handle : BlockRegistrationHandle}

variable {policy : BlockDuplicationPolicy}

/-- **Registering a staged block keeps the store in order.** -/
theorem registerStaged_spec {r : InnerId × Bool} (hok : w.Ok)
    (ht : w.store.Tidy []) (hst : w.store.state id = .staged h) (hname : handle.seqHash = h)
    (hr : w.registerStaged policy id h handle = some (r, w')) :
    w.Enlists [(id, handle)] w' ∧ w'.store.Tidy [] := by
  obtain ⟨⟨existing, w1⟩, hacq, hr⟩ := bind_eq_some_iff.mp hr
  obtain ⟨hf, ht1, hsome, hnone⟩ := acquireRegisteredForHash_spec hok ht hacq
  have hst1 : w1.store.state id = .staged h :=
    (hf.plain id (ht.guard_out (.inr ⟨h, hst⟩)).2.1).trans hst
  obtain ⟨hout, hreg, howner, hlt⟩ := ht1.guard_out (.inr ⟨h, hst1⟩)
  cases existing with
  | none =>
    cases hr
    have hc : w1.Creates ⟨id, h, handle, true, none⟩
        (w1.store.becomePrimary id h handle w1.nextInner) := by
      refine ⟨hlt, howner, becomePrimary_state_self, fun j hj => becomePrimary_state_ne hj, hname,
        fun _ => rfl, fun hc => ?_, rfl⟩
      cases hc
    exact ⟨hf.enlists.trans (hc.enlists hreg), hout.becomePrimary (hnone rfl).1 (hnone rfl).2⟩
  | some p =>
    simp only at hr
    split_ifs at hr with hid
    cases policy with
    | allow =>
      cases hr
      have hp := hsome p rfl
      have hc : w1.Creates ⟨id, h, handle, false, some p⟩
          (w1.store.setState id (.duplicate h handle w1.nextInner)) := by
        refine ⟨hlt, howner, state_setState_self, fun j hj => state_setState_ne hj, hname,
          fun hc => ?_, fun _ => ⟨p, rfl, hp.guard.trans_le guards_le_strong, hp.primary, hp.hash⟩,
          rfl⟩
        cases hc
      have he := hc.enlists hreg
      refine ⟨hf.enlists.trans ⟨he.moves.tail (.sub hp.guard), he.keeps, he.plain⟩, ?_⟩
      refine (hout.setState mem_cons_self (.duplicate h handle w1.nextInner)).putPlain ?_
      simp [BlockStore.place]
    | reject =>
      cases hr
      exact ⟨⟨hf.moves.of, hf.enlists.keeps, fun j _ hj => hf.plain j hj⟩, ht1⟩

theorem registerLoop_spec {blocks : List (BlockId × BlockRegistrationHandle)} :
    ∀ {w w' : World ι} {r : List (InnerId × Bool)}, w.Ok → w.store.Tidy [] →
      (blocks.map Prod.fst).Nodup → (∀ b ∈ blocks, w.store.state b.1 = .staged b.2.seqHash) →
      registerLoop policy blocks w = some (r, w') →
      w.Enlists blocks w' ∧ w'.store.Tidy [] := by
  induction blocks with
  | nil =>
    intro w w' r _ ht _ _ hr
    cases hr
    exact ⟨(Finds.refl w).enlists, ht⟩
  | cons b blocks ih =>
    intro w w' r hok ht hnd hst hr
    obtain ⟨⟨r1, w1⟩, hone, hr⟩ := bind_eq_some_iff.mp hr
    obtain ⟨⟨rs, w2⟩, hrest, hr⟩ := map_eq_some_iff.mp hr
    cases hr
    obtain ⟨hnew, hnd⟩ := nodup_cons.mp hnd
    obtain ⟨he, ht1⟩ := registerStaged_spec hok ht (hst b mem_cons_self) rfl hone
    -- the blocks that follow are other slots, and still staged
    have hst1 : ∀ b' ∈ blocks, w1.store.state b'.1 = .staged b'.2.seqHash := by
      intro b' hb'
      have hst' := hst b' (mem_cons_of_mem _ hb')
      have hne : b'.1 ≠ b.1 := fun hc => hnew (hc ▸ mem_map_of_mem hb')
      exact (he.plain _ (by simpa using hne) (ht.guard_out (.inr ⟨_, hst'⟩)).2.1).trans hst'
    obtain ⟨he', ht'⟩ := ih (he.moves.ok hok) ht1 hnd hst1 hrest
    exact ⟨he.trans he', ht'⟩

end Kvbm.World
