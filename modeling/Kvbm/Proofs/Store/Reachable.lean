/-
Every store a program can get to is in order.

A new store is in order and nobody owns anything; every step keeps both.  So the five
structures of the store agree with its slots whatever the clients have done, in whatever
order their steps came.
-/
import Kvbm.Proofs.Index.Backend
import Kvbm.Proofs.Index.ListCache
import Kvbm.Proofs.Store.Steps

namespace Kvbm

open Lib LawfulIndex BlockStore

section New

variable {ι : Type}

theorem World.strong_new {s : BlockStore ι} (i : InnerId) : (World.new s).strong i = 0 := rfl

/-- Nothing is owned in a store that nobody has used. -/
theorem World.new_ok {s : BlockStore ι} (hs : ∀ id, s.state id = .reset) : (World.new s).Ok := by
  have hreg : ∀ id, s.reg id = none := fun id => BlockStore.Blank.reg (.inl (hs id))
  have howner : ∀ id, s.owner id = none := fun id => BlockStore.Blank.owner (.inl (hs id))
  refine ⟨fun {id b h x} hr => ?_, fun {id i} ho => ?_, fun {i} hi => ?_,
    fun _ => ⟨World.strong_new _, rfl⟩, nofun, nofun, nofun, nofun⟩
  · have hr : s.reg id = some (b, h, x) := hr
    rw [hreg] at hr
    cases hr
  · have ho : s.owner id = some i := ho
    rw [howner] at ho
    cases ho
  · rw [World.strong_new] at hi
    exact absurd hi (Nat.lt_irrefl 0)

variable [InactiveIndex ι] [LawfulIndex ι]

theorem BlockStore.new_tidy {id : ManagerId} {n m : Nat} {ix : ι} {v : Bool}
    (hix : LawfulIndex.Empty ix n) : (new id n m ix v).Tidy [] := by
  refine ⟨hix.wf, hix.fits, le_rfl, fun _ _ => rfl, nofun, ⟨List.nodup_nil, fun j p => ?_⟩, nofun⟩
  have hplace : (new id n m ix v).place j = if j < n then some .free else none := by
    have hceil : (new id n m ix v).effectiveCeiling = n := Nat.min_self n
    unfold place
    rw [show (new id n m ix v).state j = .reset from rfl, hceil]
    show (if j < n then _ else if j < n then _ else _) = _
    split_ifs <;> rfl
  rw [hplace]
  cases p with
  | free | fenced | active | held => simp [BlockStore.Lists, new]
  | inactive h =>
    have hent : (h, j) ∉ view.entries ix := by simp [hix.entries]
    show (h, j) ∈ view.entries ix ↔ _
    simp [hent]

end New

/-- The sets, the maps and the index of a store list exactly the slots that belong there. -/
structure BlockStore.Partitioned {ι : Type} [InactiveIndex ι] [LawfulIndex ι] (s : BlockStore ι) :
    Prop where
  free : ∀ id < s.capacity, id ∈ s.free ↔ s.state id = .reset ∧ id < s.effectiveCeiling
  fenced : ∀ id < s.capacity, id ∈ s.fenced ↔ s.state id = .reset ∧ s.effectiveCeiling ≤ id
  above : ∀ id, s.capacity ≤ id → s.state id = .reset ∧ id ∉ s.free ∧ id ∉ s.fenced
  inactive : ∀ h id, (h, id) ∈ s.entries ↔ ∃ handle, s.state id = .inactive h handle
  has : ∀ h, InactiveIndex.has s.inactive h = true ↔ ∃ id handle, s.state id = .inactive h handle
  active : ∀ h id, s.activeByHash h = some id ↔ ∃ handle i, s.state id = .primary h handle i
  held : ∀ h id, s.heldByHash h = some id ↔ ∃ handle, s.state id = .held h handle

theorem BlockStore.Tidy.toPartitioned {ι : Type} [InactiveIndex ι] [LawfulIndex ι]
    {s : BlockStore ι} (ht : s.Tidy []) : s.Partitioned := by
  have hinactive : ∀ h id, (h, id) ∈ s.entries ↔ ∃ handle, s.state id = .inactive h handle :=
    fun h id => by simp [ht.mem_entries]
  refine ⟨fun id _ => ?_, fun id hid => ?_, fun id hid => ⟨ht.above id hid, fun hm => ?_,
    fun hm => ?_⟩, hinactive, fun h => ?_, fun h id => ?_, fun h id => ?_⟩
  · simp [ht.mem_free]
  · rw [ht.mem_fenced]
    simp [hid]
  · exact absurd (ht.lists_lt (p := .free) hm) (Nat.not_lt.mpr hid)
  · exact absurd (ht.lists_lt (p := .fenced) hm) (Nat.not_lt.mpr hid)
  · rw [LawfulIndex.has_iff ht.index]
    exact exists_congr (hinactive h)
  · simp [ht.active_iff]
  · simp [ht.held_iff]

namespace World

variable {C : Type} [LruCache C] {w : World (Backend C)}

theorem Initial.sound (hw : w.Initial) : w.Ok ∧ w.store.Tidy [] := by
  obtain ⟨config, id, n, m, ix, v, hix, rfl⟩ := hw
  exact ⟨new_ok fun _ => rfl, new_tidy (InactiveBackendConfig.build_empty hix)⟩

/-- A store, with its clients, that a program can get to. -/
abbrev Reached (w : World (Backend C)) : Prop := Reachable Initial step w

/-- **Whatever the clients do, the store stays in order and its owners agree with it.** -/
theorem Reached.sound (hw : w.Reached) : w.Ok ∧ w.store.Tidy [] := by
  refine hw.invariant (P := fun w => w.Ok ∧ w.store.Tidy []) (fun _ => Initial.sound) ?_
  intro w op w' ⟨hok, ht⟩ hs
  obtain ⟨evs, -, heff⟩ := step_effect hok ht hs
  exact ⟨heff.ok hok ht, heff.tidy ht⟩

/-- **The partition of the slots holds in every store a program can get to.** -/
theorem Reached.partitioned (hw : w.Reached) : w.store.Partitioned := hw.sound.2.toPartitioned

end World

/-! ### A run -/

namespace Sample

def hash (n : Nat) : SequenceHash := ⟨n, 0, n, 0⟩

def handle (n : Nat) : BlockRegistrationHandle := ⟨n, hash n⟩

/-- A new store over a lineage index. -/
def lineage (blocks : Nat) : World (Backend ListCache) :=
  .new (.new 0 blocks blocks (.inr (.inr (.withPolicy (.tick .new)))) false)

theorem lineage_reached {blocks : Nat} : (lineage blocks).Reached :=
  .init ⟨.lineage .tick, 0, blocks, blocks, _, false, rfl, rfl⟩

/-- One block is registered and dropped, and comes to rest in the index. -/
def dropOne : List Op :=
  [.allocateResetBlocks 1, .stage 0 (hash 7), .registerBlocks .allow [(0, handle 7)],
    .markPresent 0, .drop 0, .release 0]

end Sample

theorem World.Reached.partitioned_dropOne :
    ∃ w, runList World.step (Sample.lineage 2) Sample.dropOne = some w ∧
      w.store.state 0 = .inactive (Sample.hash 7) (Sample.handle 7) ∧ w.store.Partitioned := by
  exact exists_of_map (f := fun w => w.store.state 0) (by decide) fun w hw hst =>
    ⟨hst, World.Reached.partitioned (Sample.lineage_reached.runList hw)⟩

end Kvbm
