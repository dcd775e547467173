/-
What an eviction notice says.

An operation that evicts reports hashes, and a consumer takes them off its view of the
store.  The notice is true if no slot is registered under the hash any more.  A hash that
is evicted from the index is neither active nor in the index, and with no primary it has
no duplicate; but a lineage hold may still own an older copy of it.
-/
import Kvbm.Proofs.Store.Reachable

namespace Kvbm

open Lib LawfulIndex BlockStore List Option

/-- Some slot is registered under the hash: as a primary, a duplicate, inactive or held. -/
def BlockStore.Known {ι : Type} (s : BlockStore ι) (h : SequenceHash) : Prop :=
  ∃ id b x, s.reg id = some (b, h, x)

namespace World

variable {ι : Type} [InactiveIndex ι] [LawfulIndex ι] {w w' : World ι} {h : SequenceHash}

theorem active_of_duplicate (hok : w.Ok) (ht : w.store.Tidy []) {id : BlockId}
    {x : BlockRegistrationHandle} {i : InnerId} (hst : w.store.state id = .duplicate h x i) :
    w.store.activeByHash h ≠ none := by
  obtain ⟨hlt, hrel, -, hself⟩ := hok.own (owner_duplicate hst)
  rw [hst] at hself
  unfold ImmutableBlockInner.slotState at hself
  split_ifs at hself with hp
  have hp : (w.inners i).isPrimary = false := by simpa using hp
  obtain ⟨p, hk⟩ := ne_none_iff_exists'.mp (hok.dup hlt hp hrel)
  obtain ⟨-, hprim, hhash⟩ := hok.keep hlt hk
  have howner := hok.live (strong_pos_of_keepalive hlt hk)
  have hstp := (hok.own howner).2.2.2
  rw [ImmutableBlockInner.slotState, if_pos hprim, hhash] at hstp
  have hh : (w.inners i).seqHash = h := by
    injection hself with hh
    exact hh.symm
  rw [hh] at hstp
  rw [ht.active_iff.mpr ⟨not_mem_nil, _, p, hstp⟩]
  exact some_ne_none _

theorem known_iff (hok : w.Ok) (ht : w.store.Tidy []) :
    w.store.Known h ↔ w.store.Registered h ∨ w.store.heldByHash h ≠ none := by
  constructor
  · rintro ⟨id, b, x, hreg⟩
    unfold BlockStore.reg SlotState.reg at hreg
    split at hreg
    · next hst =>
        cases hreg
        exact .inl (.inl (by simp [ht.active_iff.mpr ⟨not_mem_nil, _, _, hst⟩]))
    · next hst =>
        cases hreg
        exact .inl (.inl (active_of_duplicate hok ht hst))
    · next hst =>
        cases hreg
        exact .inl (.inr ⟨id, ht.mem_entries.mpr ⟨not_mem_nil, _, hst⟩⟩)
    · next hst =>
        cases hreg
        exact .inr (by simp [ht.held_iff.mpr ⟨not_mem_nil, _, hst⟩])
    · cases hreg
  · rintro ((hact | ⟨id, hent⟩) | hheld)
    · obtain ⟨id, hid⟩ := ne_none_iff_exists'.mp hact
      obtain ⟨-, x, i, hst⟩ := ht.active_iff.mp hid
      exact ⟨id, _, x, reg_primary hst⟩
    · obtain ⟨-, x, hst⟩ := ht.mem_entries.mp hent
      exact ⟨id, _, x, reg_inactive hst⟩
    · obtain ⟨id, hid⟩ := ne_none_iff_exists'.mp hheld
      obtain ⟨-, x, hst⟩ := ht.held_iff.mp hid
      exact ⟨id, false, x, by simp [BlockStore.reg, hst, SlotState.reg]⟩

/-- A notice is true unless it is an eviction under a hold of the same hash. -/
theorem Effect.notice {op : Op} {evs : List SequenceHash} (hok : w.Ok) (ht : w.store.Tidy [])
    (he : w.Effect op evs w') (hh : h ∈ evs) :
    ¬ w'.store.Known h ↔ w.store.heldByHash h = none ∨ ∃ source, op = .commitHold source := by
  have hok' := he.ok hok ht
  have ht' := he.tidy ht
  rw [known_iff hok' ht']
  cases he with
  | @evict s pairs handles hop hev =>
    obtain ⟨hact, hent⟩ := hev.evicted_gone ht hh
    have hreg : ¬ s.Registered h := by
      rintro (hc | ⟨b, hb⟩)
      · exact hc hact
      · exact hent b hb
    have hheld : s.heldByHash h = w.store.heldByHash h := congrFun hev.cleared.held h
    have hno : ¬ ∃ source, op = .commitHold source := fun ⟨source, hs⟩ => hop source hs
    show ¬ (s.Registered h ∨ s.heldByHash h ≠ none) ↔ _
    simp [hreg, hheld, hno]
  | @giveBack s ids handles reported holds _ _ _ _ _ hrep =>
    obtain ⟨hop, hreg, hheld⟩ := hrep h (mem_toList.mp hh)
    show ¬ (s.Registered h ∨ s.heldByHash h ≠ none) ↔ _
    simp [hreg, hheld, hop]
  | keep | free | shift | present | absent => cases hh

end World

variable {C : Type} [LruCache C] {w w' : World (Backend C)} {h : SequenceHash}

/-- **When a notice is true**: if the hash is not held when it is evicted, or if it is a hold that
gives it up. -/
theorem World.Reached.notice_true_iff {op : Op} {evs : List SequenceHash} (hw : w.Reached)
    (hen : w.enabled op = true) (hr : w.exec op = some (evs, w')) (hh : h ∈ evs) :
    ¬ w'.store.Known h ↔ w.store.heldByHash h = none ∨ ∃ source, op = .commitHold source :=
  (World.exec_effect hw.sound.1 hw.sound.2 hen hr).notice hw.sound.1 hw.sound.2 hh

theorem World.Reached.notice_true_dropOne :
    ∃ w w', runList World.step (Sample.lineage 2) Sample.dropOne = some w ∧
      w.exec .drainInactive = some ([Sample.hash 7], w') ∧ ¬ w'.store.Known (Sample.hash 7) := by
  have hrun : ((runList World.step (Sample.lineage 2) Sample.dropOne).bind fun w =>
      (w.exec .drainInactive).map fun r => (w.store.heldByHash (Sample.hash 7), r.1)) =
        some (none, [Sample.hash 7]) := by decide
  obtain ⟨w, hw, hrun⟩ := bind_eq_some_iff.mp hrun
  obtain ⟨⟨evs, w'⟩, hr, heq⟩ := map_eq_some_iff.mp hrun
  obtain ⟨hheld, rfl⟩ := Prod.mk.inj heq
  refine ⟨w, w', hw, hr, (World.Reached.notice_true_iff ?_ rfl hr mem_cons_self).mpr (.inl hheld)⟩
  exact Sample.lineage_reached.runList hw

namespace Sample

/-- The block of `dropOne` is held, and a newer copy of its hash comes to rest in the index. -/
def holdAndCopy : List Op :=
  dropOne ++ [.tryHold ⟨hash 7, 0, 1, 1⟩ none, .allocateResetBlocks 1, .stage 1 (hash 7),
    .registerBlocks .allow [(1, handle 7)], .markPresent 1, .drop 1, .release 1]

end Sample

/-- An allocation reports a hash that a hold can still bring back. -/
theorem World.notice_false_under_hold :
    ∃ w w', runList World.step (Sample.lineage 2) Sample.holdAndCopy = some w ∧
      w.enabled (.allocateAtomic 1) = true ∧
      w.exec (.allocateAtomic 1) = some ([Sample.hash 7], w') ∧
      w'.store.state 0 = .held (Sample.hash 7) (Sample.handle 7) ∧
      w'.store.Known (Sample.hash 7) := by
  have hrun : ((runList World.step (Sample.lineage 2) Sample.holdAndCopy).bind fun w =>
      (w.exec (.allocateAtomic 1)).map fun r => (r.1, r.2.store.state 0)) =
        some ([Sample.hash 7], .held (Sample.hash 7) (Sample.handle 7)) := by decide
  obtain ⟨w, hw, hrun⟩ := bind_eq_some_iff.mp hrun
  obtain ⟨⟨evs, w'⟩, hr, heq⟩ := map_eq_some_iff.mp hrun
  obtain ⟨rfl, hst⟩ := Prod.mk.inj heq
  have hreg : w'.store.reg 0 = some (false, Sample.hash 7, Sample.handle 7) := by
    simp only [BlockStore.reg, hst, SlotState.reg]
  exact ⟨w, w', hw, rfl, hr, hst, 0, false, Sample.handle 7, hreg⟩

end Kvbm
