/-
Lookups.

Whatever a lookup finds, it changes no registration: a live block gets one more
reference, an inactive one a new owner, and a block whose owner has died but has not come
to the store yet is first sent to the index in its owner's stead.
-/
import Kvbm.Proofs.Store.Moves
import Kvbm.Proofs.Store.Tenure

namespace Kvbm.World

open Lib LawfulIndex BlockStore List Option

section Finds

variable {ι : Type} {w w' w'' : World ι}

/-- Moves that leave every registration, and every slot without one, as they are. -/
structure Finds (w w' : World ι) : Prop where
  moves : Moves w w'
  reg : w'.store.reg = w.store.reg
  plain : ∀ id, w.store.reg id = none → w'.store.state id = w.store.state id

theorem Finds.refl (w : World ι) : w.Finds w := ⟨.refl, rfl, fun _ _ => rfl⟩

theorem Finds.trans (hf : w.Finds w') (hf' : w'.Finds w'') : w.Finds w'' where
  moves := hf.moves.trans hf'.moves
  reg := hf'.reg.trans hf.reg
  plain id hid := (hf'.plain id (hf.reg ▸ hid)).trans (hf.plain id hid)

theorem Finds.index {ix : ι} : w.Finds { w with store := { w.store with inactive := ix } } :=
  ⟨.single (.quiet (.of_state rfl) rfl le_rfl), rfl, fun _ _ => rfl⟩

theorem Finds.add {i : InnerId} (hi : 0 < w.strong i) : w.Finds (w.addGuard i) :=
  ⟨.single (.add hi), rfl, fun _ _ => rfl⟩

/-- A guard of a primary of that hash. -/
structure Holds (w : World ι) (h : SequenceHash) (p : InnerId) : Prop where
  guard : 0 < w.guards p
  primary : (w.inners p).isPrimary = true
  hash : (w.inners p).seqHash = h

/-! ### Live blocks -/

theorem addGuard_if_moves {i : InnerId} : Moves w (if 0 < w.strong i then w.addGuard i else w) := by
  split_ifs with hi
  · exact .single (.add hi)
  · exact .refl

/-- References to live blocks are taken; the store is only read. -/
theorem liveLoop_spec {ids : List BlockId} :
    ∀ {w : World ι}, Moves w (liveLoop ids w) ∧ (liveLoop ids w).store = w.store := by
  induction ids with
  | nil => exact ⟨.refl, rfl⟩
  | cons id ids ih =>
    intro w
    have hstore : ∀ i, (if 0 < w.strong i then w.addGuard i else w).store = w.store := by
      intro i
      split_ifs <;> rfl
    unfold liveLoop
    split
    · next i _ => exact ⟨addGuard_if_moves.trans ih.1, ih.2.trans (hstore i)⟩
    · next i _ => exact ⟨addGuard_if_moves.trans ih.1, ih.2.trans (hstore i)⟩
    · exact ih

end Finds

variable {ι : Type} [InactiveIndex ι] [LawfulIndex ι]
variable {w w' : World ι} {h : SequenceHash} {i : InnerId} {r : List InnerId} {l : List Entry}
  (hok : w.Ok)

include hok

/-- **A loose block gets a new owner.** -/
theorem resurrect_spec {e : Entry} (hl : w.store.Loose (e :: l) []) (hf : w.store.Fresh (e :: l))
    (hr : w.resurrect e = some (i, w')) :
    w.Finds w' ∧ w'.store.Loose l [] ∧ w'.store.Fresh l ∧ w'.Holds e.1 i := by
  obtain ⟨handle, hst⟩ := hl.inactive e mem_cons_self
  have hreg := reg_inactive hst
  unfold resurrect takeInactiveHandle at hr
  rw [hst, map_some, some.injEq, Prod.mk.injEq] at hr
  obtain ⟨rfl, rfl⟩ := hr
  set x : ImmutableBlockInner := ⟨e.2, e.1, handle, true, none⟩ with hx
  have hcreates : w.Creates x (w.store.becomePrimary e.2 e.1 handle w.nextInner) := by
    refine ⟨hok.below (by simp [x, hreg]), ?_, becomePrimary_state_self,
      fun j hj => becomePrimary_state_ne hj, hok.names hreg, fun _ => rfl, ?_, rfl⟩
    · exact owner_inactive hst
    · intro hc
      cases hc
  have hsame : (w.store.becomePrimary e.2 e.1 handle w.nextInner).reg = w.store.reg := by
    funext j
    by_cases hj : j = e.2
    · rw [hj, hreg, BlockStore.reg, becomePrimary_state_self]
      rfl
    · rw [BlockStore.reg, becomePrimary_state_ne hj]
      rfl
  obtain ⟨hl', hf'⟩ : (w.store.becomePrimary e.2 e.1 handle w.nextInner).Loose l [] ∧
      (w.store.becomePrimary e.2 e.1 handle w.nextInner).Fresh l := hl.becomePrimary hf
  refine ⟨⟨.single (.resurrect hcreates hsame), hsame, fun j hj => ?_⟩, hl', hf', ?_, ?_, ?_⟩
  · exact becomePrimary_state_ne fun hc => by simp [hc, hreg] at hj
  · simp [addGuard, newInner]
  · simp [addGuard, newInner, x]
  · simp [addGuard, newInner, x]

variable (ht : w.store.Tidy [])

include ht

theorem acquireInactive_spec {r : Option InnerId} (hr : w.acquireInactive h = some (r, w')) :
    w.Finds w' ∧ w'.store.Tidy [] ∧ (∀ p, r = some p → w'.Holds h p) ∧
      (r = none →
        w'.store.activeByHash = w.store.activeByHash ∧ ∀ b, (h, b) ∉ w'.store.entries) := by
  obtain ⟨r0, ix, hpop, hk, hhash, hnone⟩ := findMatch_spec w.store.inactive h ht.index
  unfold acquireInactive at hr
  rw [hpop, bind_some] at hr
  cases r0 with
  | none =>
    cases hr
    refine ⟨.index, by simpa using ht.takeIndex hk, nofun, fun _ => ⟨rfl, fun b hb => ?_⟩⟩
    exact hnone rfl b (hk.mem_rest.mp hb).1
  | some e =>
    obtain ⟨⟨i, w1⟩, hres, hr⟩ := map_eq_some_iff.mp hr
    cases hr
    have he : (h, e.2) = e := Prod.ext (hhash e rfl).symm rfl
    rw [he] at hres
    have hfind : w.Finds { w with store := { w.store with inactive := ix } } := .index
    obtain ⟨hf, hl, -, hp⟩ := resurrect_spec (hfind.moves.ok hok) (loose_of_taken ht hk)
      (fresh_of_taken ht hk) hres
    refine ⟨hfind.trans hf, hl.tidy, fun p hpi => ?_, nofun⟩
    cases hpi
    exact hhash e rfl ▸ hp

variable {id : BlockId}

theorem active_state (ha : w.store.activeByHash h = some id) :
    ∃ handle i, w.store.state id = .primary h handle i ∧ (w.inners i).isPrimary = true ∧
      (w.inners i).seqHash = h := by
  obtain ⟨-, handle, i, hst⟩ := ht.active_iff.mp ha
  have hself := (hok.own (owner_primary hst)).2.2.2
  rw [hst] at hself
  unfold ImmutableBlockInner.slotState at hself
  split_ifs at hself with hp
  · cases hself
    exact ⟨_, i, hst, hp, rfl⟩

omit hok in
/-- A primary whose owner has died goes to the index in its owner's stead. -/
theorem eager_finds {handle : BlockRegistrationHandle} {s : BlockStore ι}
    (hst : w.store.state id = .primary h handle i) (hi : w.strong i = 0)
    (hr : w.store.eagerPrimaryToInactive h id = some s) :
    w.Finds { w with store := s } ∧ s.Tidy [] ∧ s.activeByHash h = none := by
  unfold eagerPrimaryToInactive at hr
  rw [hst] at hr
  obtain ⟨s1, hs1, rfl⟩ := map_eq_some_iff.mp hr
  obtain ⟨hret, hself⟩ := enterInactive_retires ht hst hs1
  set s := s1.removeActive h
  have hreg := reg_primary hst
  have hsame := hret.reg_eq hself hreg
  have hmove : w.Move ({ w with store := s }.markLater []) :=
    .vacate hi (owner_primary hst) hret.owner (fun j hj => hret.state_ne hj) (.of_reg hsame) rfl
      (slotCount_congr hret.config)
  have hnil : ({ w with store := s }.markLater []) = { w with store := s } := by
    unfold markLater
    rw [append_nil]
  refine ⟨⟨.single (hnil ▸ hmove), hsame, fun j hj => ?_⟩, hret.tidy, ?_⟩
  · exact hret.state_ne fun hc => by simp [hc, hreg] at hj
  · have hmem : (h, id) ∈ s.entries := hret.tidy.mem_entries.mpr ⟨not_mem_nil, handle, hself⟩
    cases hact : s.activeByHash h with
    | none => rfl
    | some => exact absurd hmem (hret.tidy.exclusive hact)

/-- What a lookup returns is a guard of a primary of the hash; if it returns nothing, the hash is
neither active nor in the index. -/
theorem acquireRegisteredForHash_spec {r : Option InnerId}
    (hr : w.acquireRegisteredForHash h = some (r, w')) :
    w.Finds w' ∧ w'.store.Tidy [] ∧ (∀ p, r = some p → w'.Holds h p) ∧
      (r = none → w'.store.activeByHash h = none ∧ ∀ b, (h, b) ∉ w'.store.entries) := by
  unfold acquireRegisteredForHash at hr
  split at hr
  · next hact =>
      obtain ⟨hf, ht', hp, hnone⟩ := acquireInactive_spec hok ht hr
      exact ⟨hf, ht', hp, fun hn => ⟨congrFun (hnone hn).1 h ▸ hact, (hnone hn).2⟩⟩
  next id hact =>
    obtain ⟨handle, i, hst, hprim, hhash⟩ := active_state hok ht hact
    rw [hst] at hr
    simp only at hr
    split_ifs at hr with hi
    · cases hr
      refine ⟨.add hi, ht, fun p hp => ?_, nofun⟩
      cases hp
      exact ⟨by simp [addGuard], hprim, hhash⟩
    · obtain ⟨s, hs, hr⟩ := bind_eq_some_iff.mp hr
      obtain ⟨hf, ht1, hno⟩ := eager_finds ht hst (Nat.eq_zero_of_not_pos hi) hs
      obtain ⟨hf', ht', hp, hnone⟩ := acquireInactive_spec (hf.moves.ok hok) ht1 hr
      exact ⟨hf.trans hf', ht', hp, fun hn => ⟨congrFun (hnone hn).1 h ▸ hno, (hnone hn).2⟩⟩

theorem acquireForHash_spec {r : Option InnerId} (hr : w.acquireForHash h = some (r, w')) :
    w.Finds w' ∧ w'.store.Tidy [] := by
  unfold acquireForHash at hr
  split_ifs at hr with hheld
  · cases hr
    exact ⟨.refl w, ht⟩
  · obtain ⟨hf, ht', -⟩ := acquireRegisteredForHash_spec hok ht hr
    exact ⟨hf, ht'⟩

omit ht in
omit hok in
theorem matchPrefix_spec {hashes : List SequenceHash} :
    ∀ {w w' : World ι} {r : List InnerId}, w.Ok → w.store.Tidy [] →
      matchPrefix hashes w = some (r, w') → w.Finds w' ∧ w'.store.Tidy [] := by
  induction hashes with
  | nil =>
    intro w w' r _ ht hr
    cases hr
    exact ⟨.refl w, ht⟩
  | cons h hashes ih =>
    intro w w' r hok ht hr
    obtain ⟨⟨r1, w1⟩, hacq, hr⟩ := bind_eq_some_iff.mp hr
    obtain ⟨hf, ht1⟩ := acquireForHash_spec hok ht hacq
    cases r1 with
    | none =>
      cases hr
      exact ⟨hf, ht1⟩
    | some =>
      obtain ⟨⟨is, w2⟩, hrest, hr⟩ := map_eq_some_iff.mp hr
      cases hr
      obtain ⟨hf', ht'⟩ := ih (hf.moves.ok hok) ht1 hrest
      exact ⟨hf.trans hf', ht'⟩

/-! ### Inactive blocks -/

omit ht in
omit hok in
theorem resurrectAll_spec :
    ∀ {w w' : World ι} {r : List InnerId}, w.Ok → w.store.Loose l [] → w.store.Fresh l →
      resurrectAll l w = some (r, w') → w.Finds w' ∧ w'.store.Tidy [] := by
  induction l with
  | nil =>
    intro w w' r _ hl _ hr
    cases hr
    exact ⟨.refl w, hl.tidy⟩
  | cons e l ih =>
    intro w w' r hok hl hf hr
    obtain ⟨⟨i, w1⟩, hres, hr⟩ := bind_eq_some_iff.mp hr
    obtain ⟨⟨is, w2⟩, hrest, hr⟩ := map_eq_some_iff.mp hr
    cases hr
    obtain ⟨hfind, hl1, hf1, -⟩ := resurrect_spec hok hl hf hres
    obtain ⟨hfind', ht'⟩ := ih (hfind.moves.ok hok) hl1 hf1 hrest
    exact ⟨hfind.trans hfind', ht'⟩

/-- Everything that is taken from the index gets a new owner. -/
theorem resurrectAll_taken {ix : ι} (hk : view.Taken w.store.inactive l ix)
    (hr : resurrectAll l { w with store := { w.store with inactive := ix } } = some (r, w')) :
    w.Finds w' ∧ w'.store.Tidy [] := by
  have hf : w.Finds { w with store := { w.store with inactive := ix } } := .index
  obtain ⟨hf', ht'⟩ := resurrectAll_spec (hf.moves.ok hok) (loose_of_taken ht hk)
    (fresh_of_taken ht hk) hr
  exact ⟨hf.trans hf', ht'⟩

variable {hashes : List SequenceHash}

theorem scanInactivePrimaries_spec (hr : w.scanInactivePrimaries hashes = some (r, w')) :
    w.Finds w' ∧ w'.store.Tidy [] := by
  obtain ⟨l, ix, hscan, hk, -⟩ := scanMatches_spec
    (hashes.filter fun h => (w.store.heldByHash h).isNone) ht.index
  simp only [scanInactivePrimaries] at hr
  rw [hscan] at hr
  exact resurrectAll_taken hok ht hk hr

theorem matchInactivePrimaries_spec (hr : w.matchInactivePrimaries hashes = some (r, w')) :
    w.Finds w' ∧ w'.store.Tidy [] := by
  have hsame : ∀ {r' : List InnerId}, some (r', w) = some (r, w') →
      w.Finds w' ∧ w'.store.Tidy [] := by
    intro r' heq
    cases heq
    exact ⟨.refl w, ht⟩
  unfold matchInactivePrimaries at hr
  split_ifs at hr with hany hdup
  · exact hsame hr
  · cases hashes with
    | nil => exact hsame hr
    | cons first rest =>
      simp only at hr
      split at hr
      · exact hsame hr
      obtain ⟨r0, ix, hpop, hk, -, -⟩ := findMatch_spec w.store.inactive first ht.index
      rw [hpop, bind_some] at hr
      cases r0 with
      | none =>
        cases hr
        exact ⟨.index, by simpa using ht.takeIndex hk⟩
      | some =>
        obtain ⟨⟨matched, ix'⟩, hmatched, hr⟩ := bind_eq_some_iff.mp hr
        have hk' : view.Taken ix matched ix' := by
          split_ifs at hmatched with hrest
          · cases hmatched
            exact .refl hk.wf
          obtain ⟨l, ix2, hfind, hk', -⟩ := findMatches_spec
            (rest.takeWhile fun h => (w.store.heldByHash h).isNone) hk.wf
          rw [hfind] at hmatched
          cases hmatched
          exact hk'
        exact resurrectAll_taken hok ht (hk.trans hk') hr
  · exact hsame hr

end Kvbm.World
