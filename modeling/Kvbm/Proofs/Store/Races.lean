/-
The race between a drop and a lookup.

The last reference to a block is given up in one step, and its destructor takes the store
lock in another.  In between a lookup may retire the slot in the owner's stead, bring it
back under a new owner, move it, or evict it.  The destructor then finds that the slot is
not its own; it ends a tenure only if nobody has ended it before.
-/
import Kvbm.Proofs.Store.Reachable

namespace Kvbm

open Lib Function List Option BlockStore LawfulIndex

namespace World

section Moves

variable {ι : Type} {H : BlockRegistrationHandle → Prop} {w w' : World ι} {i : InnerId}

theorem MovesOf.nextInner (hm : MovesOf H w w') : w.nextInner ≤ w'.nextInner := by
  induction hm with
  | refl => exact le_rfl
  | tail _ hstep ih =>
    cases hstep with
    | resurrect => exact Nat.le_succ_of_le ih
    | register => exact Nat.le_succ_of_le ih
    | _ => exact ih

/-- The object owns no slot. -/
def Slotless (w : World ι) (i : InnerId) : Prop := ∀ id, w.store.owner id ≠ some i

variable {s : BlockStore ι}

theorem Slotless.sameOwned (hi : w.Slotless i) (ho : w.store.SameOwned s) :
    Slotless { w with store := s } i := by
  intro id hid
  have hid : s.owner id = some i := hid
  have hst := ho id (.inr (by simp [hid]))
  exact hi id (by rw [owner, ← hst]; exact hid)

theorem Slotless.creates {x : ImmutableBlockInner} (hi : w.Slotless i)
    (hlt : i < w.nextInner) (hc : w.Creates x s) (id : BlockId) : s.owner id ≠ some i := by
  intro hid
  by_cases hx : id = x.blockId
  · rw [hx, owner, hc.self, ImmutableBlockInner.slotState_owner] at hid
    exact hlt.ne (some.inj hid).symm
  · rw [owner, hc.other id hx] at hid
    exact hi id hid

/-- **What has lost its slot never owns one again.** -/
theorem MoveOf.slotless (hm : MoveOf H w w') (hlt : i < w.nextInner) (hi : w.Slotless i) :
    w'.Slotless i := by
  cases hm with
  | quiet ho => exact hi.sameOwned ho
  | lose ho => exact hi.sameOwned ho
  | @vacate s id k _ _ _ _ hnone hother =>
    intro j hj
    have hj : s.owner j = some i := hj
    by_cases hid : j = id
    · rw [hid, hnone] at hj
      cases hj
    · rw [owner, hother j hid] at hj
      exact hi j hj
  | resurrect hc => exact hi.creates hlt hc
  | register hc => exact hi.creates hlt hc
  | @move s k src dst _ _ _ _ _ hdst hsrc hother =>
    intro j hj
    have hj : s.owner j = some i := hj
    by_cases hjd : j = dst
    · rw [hjd, owner, hdst] at hj
      exact hi src hj
    by_cases hjs : j = src
    · rw [hjs, owner, hsrc] at hj
      cases hj
    · rw [owner, hother j hjs hjd] at hj
      exact hi j hj
  | shift _ _ _ ho => exact hi.sameOwned ho
  | _ => exact hi

theorem MovesOf.slotless (hm : MovesOf H w w') (hlt : i < w.nextInner) (hi : w.Slotless i) :
    w'.Slotless i := by
  induction hm with
  | refl => exact hi
  | tail hpre hstep ih => exact hstep.slotless (hlt.trans_le (MovesOf.nextInner hpre)) ih

/-- A destructor has been at the store once and for all. -/
theorem MoveOf.released (hm : MoveOf H w w') (hi : w.released i = true) : w'.released i = true := by
  cases hm with
  | @finish k =>
    show update w.released k true i = true
    by_cases hk : i = k
    · rw [hk, update_self]
    · rw [update_of_ne hk, hi]
  | _ => exact hi

theorem MovesOf.released (hm : MovesOf H w w') (hi : w.released i = true) :
    w'.released i = true := by
  induction hm with
  | refl => exact hi
  | tail _ hstep ih => exact hstep.released ih

end Moves

section Effects

variable {ι : Type} [InactiveIndex ι] [LawfulIndex ι]
variable {w w' : World ι} {op : Op} {evs : List SequenceHash} {i : InnerId}

theorem Effect.nextInner (ht : w.store.Tidy []) (he : w.Effect op evs w') :
    w.nextInner ≤ w'.nextInner := by
  rcases he.moves ht with hm | ⟨k, -, -, rfl⟩ | ⟨x, -, -, rfl⟩
  · exact hm.nextInner
  · exact le_rfl
  · exact le_rfl

theorem Effect.slotless (ht : w.store.Tidy []) (he : w.Effect op evs w') (hlt : i < w.nextInner)
    (hi : w.Slotless i) : w'.Slotless i := by
  rcases he.moves ht with hm | ⟨k, -, -, rfl⟩ | ⟨x, -, -, rfl⟩
  · exact hm.slotless hlt hi
  · exact hi
  · exact hi

theorem Effect.released (ht : w.store.Tidy []) (he : w.Effect op evs w')
    (hi : w.released i = true) : w'.released i = true := by
  rcases he.moves ht with hm | ⟨k, -, -, rfl⟩ | ⟨x, -, -, rfl⟩
  · exact hm.released hi
  · exact hi
  · exact hi

/-- Where a registration that is not a duplicate's is after a step: where it was, or where the
block has moved; or the hash was reported as evicted, or a held copy gave way to a newer one, or
the flag of the slot asked for it. -/
def Accounted (w : World ι) (evs : List SequenceHash) (w' : World ι) (id : BlockId)
    (h : SequenceHash) (x : BlockRegistrationHandle) : Prop :=
  (∃ id', (id' = id ∨ w.store.reg id' = none) ∧ w'.store.reg id' = some (false, h, x)) ∨
    h ∈ evs ∨ (w.store.state id = .held h x ∧ w'.store.Registered h) ∨
    (w'.store.state id = .reset ∧ w'.store.resetOnRelease id = true)

variable {x : BlockRegistrationHandle} {h : SequenceHash} {id : BlockId}

/-- **A block is lost only by an eviction that is reported, a hold, or its flag.** -/
theorem Effect.accounted (ht : w.store.Tidy []) (he : w.Effect op evs w')
    (hreg : w.store.reg id = some (false, h, x)) : w.Accounted evs w' id h x := by
  have hsame : w'.store.reg id = some (false, h, x) → w.Accounted evs w' id h x :=
    fun hr => .inl ⟨id, .inl rfl, hr⟩
  cases he with
  | @evict s pairs handles _ hev =>
    by_cases hid : id ∈ pairs.map Prod.snd
    · obtain ⟨e, hp, rfl⟩ := mem_map.mp hid
      obtain ⟨y, -, hreg', -⟩ := ht.reg_of_mem (hev.mem e hp)
      rw [hreg'] at hreg
      cases hreg
      exact .inr (.inl (mem_map_of_mem hp))
    · exact hsame (((hev.deregisters ht).kept id hid).trans hreg)
  | keep _ _ hkeep => exact hsame (hkeep hreg)
  | free hf =>
    rcases hf.saves hreg with hr | hr
    · exact hsame hr
    · exact .inr (.inr (.inr hr))
  | shift hs =>
    rcases hs.keeps hreg with hr | ⟨dst, hdst, hr⟩
    · exact hsame hr
    · exact .inl ⟨dst, .inr hdst, hr⟩
  | @giveBack s ids handles reported holds _ _ hd _ hlost =>
    by_cases hid : id ∈ ids
    · obtain ⟨g, y, hst, hcase⟩ := hlost id hid
      simp only [reg, hst, SlotState.reg, some.injEq, Prod.mk.injEq, true_and] at hreg
      obtain ⟨rfl, rfl⟩ := hreg
      rcases hcase with hc | hc
      · exact .inr (.inr (.inl ⟨hst, hc⟩))
      · exact .inr (.inl (mem_toList.mpr hc))
    · exact hsame ((hd.kept id hid).trans hreg)
  | present | absent => exact hsame hreg

/-- A slot that is registered, and no duplicate, is in the map, in the index or held. -/
theorem listed_of_reg (ht : w.store.Tidy []) (hreg : w.store.reg id = some (false, h, x)) :
    w.store.activeByHash h = some id ∨ (h, id) ∈ w.store.entries ∨
      w.store.heldByHash h = some id := by
  unfold reg SlotState.reg at hreg
  split at hreg
  · next hst =>
      cases hreg
      exact .inl (ht.active_iff.mpr ⟨not_mem_nil, _, _, hst⟩)
  · cases hreg
  · next hst =>
      cases hreg
      exact .inr (.inl (ht.mem_entries.mpr ⟨not_mem_nil, _, hst⟩))
  · next hst =>
      cases hreg
      exact .inr (.inr (ht.held_iff.mpr ⟨not_mem_nil, _, hst⟩))
  · cases hreg

omit [LawfulIndex ι] in
/-- The destructor of an object that has lost its slot changes nothing in the store. -/
theorem releaseInner_slotless (hok : w.Ok) (hi : w.Slotless i) (hr : w.releaseInner i = some w') :
    w' = w.setReleased i := by
  unfold releaseInner at hr
  split_ifs at hr with hp
  · obtain ⟨w1, hw1, rfl⟩ := map_eq_some_iff.mp hr
    rcases releasePrimary_cases hok hp hw1 with ⟨s, absent, ho, -⟩ | ⟨-, rfl⟩
    · exact absurd ho (hi _)
    · rfl
  · cases hr
    rcases releaseDuplicate_cases hok (by simpa using hp) with ⟨ho, -⟩ | ⟨-, heq⟩
    · exact absurd ho (hi _)
    · rw [heq]

end Effects

theorem Ok.slotless {ι : Type} {w : World ι} (hok : w.Ok) {i : InnerId}
    (hi : w.released i = true) : w.Slotless i := by
  intro id ho
  rw [(hok.own ho).2.1] at hi
  cases hi

/-- What makes drops and lookups safe against each other. -/
structure DropSafe {ι : Type} [InactiveIndex ι] [LawfulIndex ι] (w : World ι) : Prop where
  /-- A destructor that has been at the store has ended the tenure, and does not run again. -/
  once : ∀ {i}, w.released i = true → w.Slotless i ∧ w.enabled (.release i) = false
  /-- A destructor ends the tenure of its object, if nobody else has; if somebody has, it changes
  nothing. -/
  ends : ∀ {i evs w'}, w.enabled (.release i) = true → w.exec (.release i) = some (evs, w') →
    w'.released i = true ∧ w'.Slotless i ∧
      (w.Slotless i → w'.store = w.store ∧ w'.absents = w.absents)
  /-- A tenure that has ended stays ended, whatever happens next. -/
  stays : ∀ {i ops w'}, i < w.nextInner → runList step w ops = some w' →
    (w.Slotless i → w'.Slotless i) ∧ (w.released i = true → w'.released i = true)
  /-- Two live objects are never in the same slot. -/
  distinct : ∀ {i j}, 0 < w.strong i → 0 < w.strong j →
    (w.inners i).blockId = (w.inners j).blockId → i = j
  /-- A registered block that is no duplicate can be found. -/
  listed : ∀ {id h x}, w.store.reg id = some (false, h, x) →
    w.store.activeByHash h = some id ∨ (h, id) ∈ w.store.entries ∨ w.store.heldByHash h = some id
  /-- It goes only where somebody asked for it. -/
  accounted : ∀ {op evs w' id h x}, w.enabled op = true → w.exec op = some (evs, w') →
    w.store.reg id = some (false, h, x) → w.Accounted evs w' id h x

variable {C : Type} [LruCache C] {w w' : World (Backend C)} {i : InnerId}

theorem Reached.stays (hw : w.Reached) (hlt : i < w.nextInner) :
    ∀ {ops : List Op}, runList step w ops = some w' →
      (w.Slotless i → w'.Slotless i) ∧ (w.released i = true → w'.released i = true) := by
  intro ops
  induction ops generalizing w with
  | nil =>
    intro hr
    cases hr
    exact ⟨fun hi => hi, fun hi => hi⟩
  | cons op ops ih =>
    intro hr
    obtain ⟨w1, hstep, hr⟩ := bind_eq_some_iff.mp hr
    obtain ⟨hok, ht⟩ := Reached.sound hw
    obtain ⟨evs, -, heff⟩ := step_effect hok ht hstep
    have hlt1 : i < w1.nextInner := hlt.trans_le (heff.nextInner ht)
    obtain ⟨hs, hrel⟩ := ih (.step hw trivial hstep) hlt1 hr
    exact ⟨fun hi => hs (heff.slotless ht hlt hi), fun hi => hrel (heff.released ht hi)⟩

/-- **Drops and lookups are safe against each other** in every store a program can get to. -/
theorem Reached.dropSafe (hw : w.Reached) : w.DropSafe := by
  obtain ⟨hok, ht⟩ := hw.sound
  refine ⟨fun hi => ⟨hok.slotless hi, ?_⟩, fun {i evs w'} hen hr => ?_,
    fun hlt hr => hw.stays hlt hr, fun hi hj heq => ?_, fun hreg => listed_of_reg ht hreg,
    fun hen hr hreg => ?_⟩
  · simp [enabled, hi]
  · have hok' := (exec_effect hok ht hen hr).ok hok ht
    obtain ⟨w1, hrel, heq⟩ := map_eq_some_iff.mp hr
    cases heq
    have hdone : w'.released i = true := by
      obtain ⟨s, absent, rfl⟩ := releaseInner_shape hrel
      exact update_self _ _ _
    refine ⟨hdone, hok'.slotless hdone, fun hi => ?_⟩
    rw [releaseInner_slotless hok hi hrel]
    exact ⟨rfl, rfl⟩
  · have hownerj := hok.live hj
    rw [← heq, hok.live hi] at hownerj
    exact some.inj hownerj
  · exact (exec_effect hok ht hen hr).accounted ht hreg

end World

namespace Sample

/-- A lookup comes between the last drop and its destructor, and its guard is a new owner's. -/
def lookupFirst : List Op :=
  [.allocateResetBlocks 1, .stage 0 (hash 7), .registerBlocks .allow [(0, handle 7)],
    .markPresent 0, .drop 0, .acquire (hash 7)]

end Sample

theorem World.Reached.dropSafe_lookupFirst :
    ∃ w, runList World.step (Sample.lineage 2) Sample.lookupFirst = some w ∧
      w.store.state 0 = .primary (Sample.hash 7) (Sample.handle 7) 1 ∧
      w.enabled (.release 0) = true ∧ w.DropSafe := by
  refine exists_of_map (f := fun w => (w.store.state 0, w.enabled (.release 0)))
    (b := (.primary (Sample.hash 7) (Sample.handle 7) 1, true)) (by decide) fun w hw heq => ?_
  obtain ⟨hst, hen⟩ := Prod.mk.inj heq
  exact ⟨hst, hen, World.Reached.dropSafe (Sample.lineage_reached.runList hw)⟩

end Kvbm
