/-
A batch, act by act.

Under the lock a batch does four things: it writes a flag; it releases a primary whose
last reference it owns; it releases a duplicate and puts the reference to its primary
aside, or gives that reference up where another one is left.  Each release is the one
that the destructor would make, so what holds of destructors holds of batches.
-/
import Kvbm.Proofs.Store.Retire

namespace Kvbm.World

open Function List Option

open Lib LawfulIndex BlockStore

section Acts

variable {ι : Type} [InactiveIndex ι]

inductive Acts (opts : Option Bool) : Batch ι → Batch ι → Prop
  | flag {b : Batch ι} {i : InnerId} {v : Bool} : some i ∈ b.entries → opts = some v →
      Acts opts b { b with
        world := { b.world with
          store := b.world.store.setFlag (b.world.inners i).blockId v } }
  | primary {b : Batch ι} {w : World ι} {idx : Nat} {i : InnerId} :
      b.entries[idx]? = some (some i) → b.world.strong i = 1 →
      (b.world.inners i).isPrimary = true → (b.world.subGuard i).releaseInner i = some w →
      Acts opts b ⟨w, b.entries.set idx none, b.deferred, b.toDrop ++ [i]⟩
  | defer {b : Batch ι} {w : World ι} {idx : Nat} {i p : InnerId} :
      b.entries[idx]? = some (some i) → b.world.strong i = 1 →
      (b.world.inners i).isPrimary = false → (b.world.inners i).keepalive = some p →
      (b.world.subGuard i).releaseInner i = some w →
      Acts opts b ⟨(w.clearKeepalive i).addGuard p, b.entries.set idx none, b.deferred ++ [p],
        b.toDrop ++ [i]⟩
  | merge {b : Batch ι} {w : World ι} {idx : Nat} {i p : InnerId} :
      b.entries[idx]? = some (some i) → b.world.strong i = 1 →
      (b.world.inners i).isPrimary = false → (b.world.inners i).keepalive = some p →
      (b.world.subGuard i).releaseInner i = some w → 0 < (w.clearKeepalive i).strong p →
      Acts opts b ⟨w.clearKeepalive i, b.entries.set idx none, b.deferred, b.toDrop ++ [i]⟩

/-- The references that the batch owns are counted. -/
def Covers (b : Batch ι) : Prop :=
  ∀ i, b.entries.count (some i) + b.deferred.count i ≤ b.world.guards i

variable {w w' : World ι} {i : InnerId} {h : SequenceHash} {x : BlockRegistrationHandle}

omit [InactiveIndex ι] in
theorem Covers.guard {b : Batch ι} (hc : Covers b) (hi : some i ∈ b.entries) :
    0 < b.world.guards i := by
  have := hc i
  have := count_pos_iff.mpr hi
  omega

/-! ### What a release is -/

/-- A release changes the store, the marks to be made and the mark of the object itself. -/
theorem releaseInner_shape (hr : w.releaseInner i = some w') :
    ∃ s absent, w' = ({ w with store := s }.markLater absent).setReleased i := by
  have hsame : w = { w with store := w.store }.markLater [] := by
    simp [markLater]
  unfold releaseInner at hr
  split_ifs at hr with hp
  · obtain ⟨w1, hw1, rfl⟩ := map_eq_some_iff.mp hr
    simp only [releasePrimary] at hw1
    split at hw1
    · split_ifs at hw1
      · obtain ⟨r, -, rfl⟩ := map_eq_some_iff.mp hw1
        exact ⟨r.2, r.1.toList, rfl⟩
      · cases hw1
        exact ⟨w.store, [], congrArg (·.setReleased i) hsame⟩
    · cases hw1
      exact ⟨w.store, [], congrArg (·.setReleased i) hsame⟩
  · cases hr
    simp only [releaseDuplicate]
    split
    · split_ifs
      · exact ⟨_, _, rfl⟩
      · exact ⟨w.store, [], congrArg (·.setReleased i) hsame⟩
    · exact ⟨w.store, [], congrArg (·.setReleased i) hsame⟩

/-- The flag is written for every entry that is reached. -/
def flagged (opts : Option Bool) (w : World ι) (i : InnerId) : World ι :=
  match opts with
  | none => w
  | some v => { w with store := w.store.setFlag (w.inners i).blockId v }

/-- What becomes of the reference of a released duplicate. -/
def followKeepalive (blocks : List InnerId) (opts : Option Bool) (fuel idx : Nat) (p : InnerId)
    (b : Batch ι) : Option (Batch ι) :=
  let later := { b with world := b.world.addGuard p, deferred := b.deferred ++ [p] }
  match targetPosition blocks p with
  | none => some later
  | some j =>
    if j < idx then
      if ((b.entries[j]?).join).isSome then
        (b.world.dropUnderLock p).bind fun w =>
          releaseEntryAt blocks opts fuel j { b with world := w }
      else some later
    else if idx < j then (b.world.dropUnderLock p).map fun w => { b with world := w }
    else some later

variable {blocks : List InnerId} {opts : Option Bool} {fuel idx : Nat} {b b' : Batch ι}

/-- What is done with an entry once its flag is written. -/
def settle (blocks : List InnerId) (opts : Option Bool) (fuel idx : Nat) (i : InnerId)
    (b : Batch ι) : Option (Batch ι) :=
  let id := (b.world.inners i).blockId
  if b.world.store.ownedBy id i ∧ b.world.strong i = 1 then
    match b.world.store.state id with
    | .primary h handle _ =>
      (b.world.store.retirePrimary id h handle).map fun (absent, s) =>
        ⟨({ b.world with store := s }.unwrap i).markLater absent.toList, b.entries.set idx none,
          b.deferred, b.toDrop ++ [i]⟩
    | .duplicate _ handle _ =>
      let w := { b.world with store := b.world.store.resetSlot id }.markLater [handle]
      let b := ⟨(w.unwrap i).clearKeepalive i, b.entries.set idx none, b.deferred, b.toDrop ++ [i]⟩
      match (w.inners i).keepalive with
      | none => some b
      | some p => followKeepalive blocks opts fuel idx p b
    | _ => none
  else some b

theorem settle_primary (hs : b.world.strong i = 1) (hp : (b.world.inners i).isPrimary = true)
    (hst : b.world.store.state (b.world.inners i).blockId = .primary h x i) :
    settle blocks opts fuel idx i b = ((b.world.subGuard i).releaseInner i).map fun w =>
      ⟨w, b.entries.set idx none, b.deferred, b.toDrop ++ [i]⟩ := by
  simp only [settle, releaseInner, releasePrimary, BlockStore.ownedBy, subGuard, hp, hst, hs,
    decide_true, and_self, if_true, Option.map_map]
  rfl

variable {p : InnerId}

theorem settle_duplicate (hs : b.world.strong i = 1) (hp : (b.world.inners i).isPrimary = false)
    (hst : b.world.store.state (b.world.inners i).blockId = .duplicate h x i)
    (hk : (b.world.inners i).keepalive = some p) :
    settle blocks opts fuel idx i b = ((b.world.subGuard i).releaseInner i).bind fun w =>
      followKeepalive blocks opts fuel idx p
        ⟨w.clearKeepalive i, b.entries.set idx none, b.deferred, b.toDrop ++ [i]⟩ := by
  simp [settle, releaseInner, releaseDuplicate, BlockStore.ownedBy, subGuard, unwrap, markLater,
    hp, hst, hs, hk]

omit [InactiveIndex ι] in
theorem dropUnderLock_eq (hd : w.dropUnderLock p = some w') : 0 < w.strong p ∧ w' = w := by
  unfold dropUnderLock at hd
  split_ifs at hd with hpos
  exact ⟨hpos, (some.inj hd).symm⟩

/-- The reference of a released duplicate is put aside, or another one is left and the entry of
the primary may be tried again. -/
theorem followKeepalive_cases (hr : followKeepalive blocks opts fuel idx p b = some b') :
    b' = { b with world := b.world.addGuard p, deferred := b.deferred ++ [p] } ∨
      0 < b.world.strong p ∧ (b' = b ∨ ∃ j, releaseEntryAt blocks opts fuel j b = some b') := by
  simp only [followKeepalive] at hr
  split at hr
  · exact .inl (some.inj hr).symm
  split_ifs at hr with hj hsome hj'
  · obtain ⟨w, hdrop, hr⟩ := bind_eq_some_iff.mp hr
    obtain ⟨hpos, rfl⟩ := dropUnderLock_eq hdrop
    exact .inr ⟨hpos, .inr ⟨_, hr⟩⟩
  · exact .inl (some.inj hr).symm
  · obtain ⟨w, hdrop, rfl⟩ := map_eq_some_iff.mp hr
    obtain ⟨hpos, rfl⟩ := dropUnderLock_eq hdrop
    exact .inr ⟨hpos, .inl rfl⟩
  · exact .inl (some.inj hr).symm

end Acts

variable {ι : Type} [InactiveIndex ι] [LawfulIndex ι]
variable {blocks : List InnerId} {opts : Option Bool} {b b' : Batch ι}

/-- What the loop under the lock keeps. -/
structure Sound (b : Batch ι) : Prop where
  ok : b.world.Ok
  tidy : b.world.store.Tidy []
  covers : Covers b

namespace Sound

variable {i : InnerId}

/-- The object of an entry owns its slot. -/
theorem owner (hb : Sound b) (hi : some i ∈ b.entries) :
    b.world.store.owner (b.world.inners i).blockId = some i :=
  hb.ok.live ((hb.covers.guard hi).trans_le guards_le_strong)

omit [InactiveIndex ι] [LawfulIndex ι] in
theorem count_set {l : List (Option InnerId)} {idx : Nat}
    (he : l[idx]? = some (some i)) (k : InnerId) :
    (l.set idx none).count (some k) + (if k = i then 1 else 0) = l.count (some k) := by
  obtain ⟨hlt, hget⟩ := List.getElem?_eq_some_iff.mp he
  have hmem : some i ∈ l := hget ▸ List.getElem_mem hlt
  rw [List.count_set hlt, hget]
  by_cases hk : k = i
  · subst hk
    have := count_pos_iff.mpr hmem
    simp
    omega
  · have hk' : i ≠ k := fun hc => hk hc.symm
    simp [hk, hk']

/-- The last reference to an object is given up and its tenure ends. -/
theorem release {w : World ι} (hb : Sound b) (hi : some i ∈ b.entries)
    (hs : b.world.strong i = 1) (hr : (b.world.subGuard i).releaseInner i = some w) :
    b.world.Frees w ∧ w.Ok ∧ w.store.Tidy [] ∧ w.guards = (b.world.subGuard i).guards ∧
      w.released i = true ∧ i < w.nextInner := by
  have hguard := hb.covers.guard hi
  have hsub : b.world.Frees (b.world.subGuard i) := .of_store (.single (.sub hguard)) rfl
  have hzero : (b.world.subGuard i).strong i = 0 := by
    have := strong_subGuard (p := i) hguard
    rw [if_pos rfl] at this
    omega
  have hlt : i < b.world.nextInner := hb.ok.lt_of_strong (by omega)
  obtain ⟨hf, ht⟩ := releaseInner_spec (hsub.moves.ok hb.ok) hb.tidy hzero hlt hr
  obtain ⟨s, absent, rfl⟩ := releaseInner_shape hr
  have hf' := hsub.trans hf
  exact ⟨hf', hf'.moves.ok hb.ok, ht, rfl, update_self _ _ _, hlt⟩

/-- The reference of the entry is used up, the others stay counted. -/
theorem covers_set {idx : Nat} (hb : Sound b) (he : b.entries[idx]? = some (some i))
    (k : InnerId) : (b.entries.set idx none).count (some k) + b.deferred.count k ≤
      (b.world.subGuard i).guards k := by
  have hcovers := hb.covers k
  have hcount := count_set he k
  by_cases hk : k = i
  · subst hk
    simp only [subGuard, update_self, if_true] at hcount ⊢
    omega
  · simp only [subGuard, update_of_ne hk, if_neg hk] at hcount ⊢
    omega

end Sound

/-- **Each act of a batch keeps the store in order.** -/
theorem Acts.spec (hb : Sound b) (ha : Acts opts b b') : b.world.Frees b'.world ∧ Sound b' := by
  cases ha with
  | @flag i v hi =>
    have hf : b.world.Frees { b.world with
        store := b.world.store.setFlag (b.world.inners i).blockId v } :=
      .flag (by rw [hb.owner hi]; simp)
    exact ⟨hf, hf.moves.ok hb.ok, hb.tidy.setFlag _ _, hb.covers⟩
  | @primary w idx i he hs hp hr =>
    obtain ⟨hf, hok, ht, hguards, -⟩ := hb.release (mem_of_getElem? he) hs hr
    exact ⟨hf, hok, ht, fun k => (hb.covers_set he k).trans_eq (congrFun hguards k).symm⟩
  | @defer w idx i p he hs hp hk hr =>
    obtain ⟨hf, hok, ht, hguards, hrel, hlt⟩ := hb.release (mem_of_getElem? he) hs hr
    have hkeep : (w.inners i).keepalive = some p := by
      obtain ⟨s, absent, rfl⟩ := releaseInner_shape hr
      exact hk
    -- the reference of the duplicate is still counted when it is taken over
    have hadd : w.Frees (w.addGuard p) :=
      .of_store (.single (.add (strong_pos_of_keepalive hlt hkeep))) rfl
    have hclear : (w.addGuard p).Frees ((w.addGuard p).clearKeepalive i) :=
      .of_store (.single (.clear hrel hlt)) rfl
    have hf' := hf.trans (hadd.trans hclear)
    refine ⟨hf', hf'.moves.ok hb.ok, ht, fun k => ?_⟩
    have hcovers := hb.covers_set he k
    show _ + (b.deferred ++ [p]).count k ≤ update w.guards p (w.guards p + 1) k
    rw [count_append, hguards]
    by_cases hkp : k = p
    · subst hkp
      simp only [count_singleton_self, update_self]
      omega
    · rw [update_of_ne hkp, count_singleton, if_neg (by simpa using Ne.symm hkp)]
      exact hcovers
  | @merge w idx i p he hs hp hk hr =>
    obtain ⟨hf, hok, ht, hguards, hrel, hlt⟩ := hb.release (mem_of_getElem? he) hs hr
    have hclear : w.Frees (w.clearKeepalive i) := .of_store (.single (.clear hrel hlt)) rfl
    have hf' := hf.trans hclear
    exact ⟨hf', hf'.moves.ok hb.ok, ht,
      fun k => (hb.covers_set he k).trans_eq (congrFun hguards k).symm⟩

theorem Acts.spec_many (hb : Sound b) (ha : Relation.ReflTransGen (Acts opts) b b') :
    b.world.Frees b'.world ∧ Sound b' := by
  induction ha with
  | refl => exact ⟨.refl _, hb⟩
  | tail _ hstep ih =>
    obtain ⟨hf, hb'⟩ := hstep.spec ih.2
    exact ⟨ih.1.trans hf, hb'⟩

/-! ### The loop is made of acts -/

/-- The slot of an entry is as the object of the entry says. -/
theorem Sound.state (hb : Sound b) {i : InnerId} (hi : some i ∈ b.entries) :
    b.world.store.state (b.world.inners i).blockId = (b.world.inners i).slotState i :=
  (hb.ok.own (hb.owner hi)).2.2.2

theorem Sound.keepalive (hb : Sound b) {i : InnerId} (hi : some i ∈ b.entries)
    (hp : (b.world.inners i).isPrimary = false) : ∃ p, (b.world.inners i).keepalive = some p := by
  obtain ⟨hlt, hrel, -⟩ := hb.ok.own (hb.owner hi)
  exact ne_none_iff_exists'.mp (hb.ok.dup hlt hp hrel)

theorem releaseEntryAt_acts {fuel : Nat} :
    ∀ {idx : Nat} {b b' : Batch ι}, Sound b →
      releaseEntryAt blocks opts fuel idx b = some b' →
      Relation.ReflTransGen (Acts opts) b b' := by
  induction fuel with
  | zero =>
    intro idx b b' _ hr
    cases hr
  | succ fuel ih =>
    intro idx b b' hb hr
    cases hjoin : (b.entries[idx]?).join with
    | none =>
      rw [releaseEntryAt, hjoin] at hr
      cases hr
      exact .refl
    | some i =>
      have he : { b with world := flagged opts b.world i }.entries[idx]? = some (some i) :=
        join_eq_some_iff.mp hjoin
      have hflag :
          Relation.ReflTransGen (Acts opts) b { b with world := flagged opts b.world i } := by
        cases opts with
        | none => exact .refl
        | some => exact .single (.flag (mem_of_getElem? he) rfl)
      obtain ⟨-, hb1⟩ := Acts.spec_many hb hflag
      have hr : settle blocks opts fuel idx i { b with world := flagged opts b.world i } =
          some b' := by
        rw [releaseEntryAt, hjoin] at hr
        cases opts <;> exact hr
      generalize { b with world := flagged opts b.world i } = b1 at hflag he hb1 hr
      have hi := mem_of_getElem? he
      by_cases hs : b1.world.strong i = 1
      · have hst := hb1.state hi
        unfold ImmutableBlockInner.slotState at hst
        split_ifs at hst with hp
        · rw [settle_primary hs hp hst] at hr
          obtain ⟨w, hrel, rfl⟩ := map_eq_some_iff.mp hr
          exact hflag.tail (.primary he hs hp hrel)
        have hp : (b1.world.inners i).isPrimary = false := by simpa using hp
        obtain ⟨p, hk⟩ := hb1.keepalive hi hp
        rw [settle_duplicate hs hp hst hk] at hr
        obtain ⟨w, hrel, hr⟩ := bind_eq_some_iff.mp hr
        rcases followKeepalive_cases hr with rfl | ⟨hpos, hcase⟩
        · exact hflag.tail (.defer he hs hp hk hrel)
        have hpath := hflag.tail (.merge he hs hp hk hrel hpos)
        rcases hcase with rfl | ⟨j, hr⟩
        · exact hpath
        · exact hpath.trans (ih (Acts.spec_many hb hpath).2 hr)
      · rw [settle, if_neg fun h => hs h.2] at hr
        cases hr
        exact hflag

theorem releaseEntries_acts (positions : List Nat) :
    ∀ {b b' : Batch ι}, Sound b → releaseEntries blocks opts positions b = some b' →
      Relation.ReflTransGen (Acts opts) b b' := by
  induction positions with
  | nil =>
    intro b b' _ hr
    cases hr
    exact .refl
  | cons idx positions ih =>
    intro b b' hb hr
    obtain ⟨b1, hone, hr⟩ := bind_eq_some_iff.mp hr
    have hpath := releaseEntryAt_acts hb hone
    exact hpath.trans (ih (Acts.spec_many hb hpath).2 hr)

/-- **A batch keeps the store in order**, and the references it leaves are counted. -/
theorem releaseBlocksLocked_spec {w : World ι} (hok : w.Ok) (ht : w.store.Tidy [])
    (hblocks : ∀ i ∈ blocks, blocks.count i ≤ w.guards i)
    (hr : w.releaseBlocksLocked blocks opts = some b) :
    w.Frees b.world ∧ b.world.store.Tidy [] := by
  obtain ⟨b1, hloop, rfl⟩ := map_eq_some_iff.mp hr
  have hb : Sound (⟨w, blocks.map some, [], []⟩ : Batch ι) := by
    refine ⟨hok, ht, fun i => ?_⟩
    show (blocks.map some).count (some i) + 0 ≤ w.guards i
    rw [count_map_of_injective _ _ (some_injective _), Nat.add_zero]
    by_cases hi : i ∈ blocks
    · exact hblocks i hi
    · rw [count_eq_zero_of_not_mem hi]
      exact Nat.zero_le _
  obtain ⟨hf, hb1⟩ := Acts.spec_many hb (releaseEntries_acts _ hb hloop)
  exact ⟨hf, hb1.tidy⟩

end Kvbm.World
