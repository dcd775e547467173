/-
What a stream of placements means.

A view says of every key what is held there and which generation of it was removed.  Operations act
on views, a snapshot has a view, and batches are replayed on it.  The maps of the hub, without the
times of observation, are such a view, and the hub's operations act on them as on views.
-/
import Kvbm.Hub.Tier.Projection

namespace Kvbm.Hub.Tier

open Lib Function

variable {H : Type} [DecidableEq H]

/-! ### Views -/

structure View (H : Type) where
  /-- Generation and layout of the copy. -/
  ready : PlacementKey H → Option (Nat × PhysicalPlacementMode)
  removed : PlacementKey H → Option Nat

namespace View

def empty : View H := ⟨fun _ => none, fun _ => none⟩

/-- A removal of this generation or a later one, or a later copy, outweighs it. -/
def applyReady (key : PlacementKey H) (generation : Nat) (placement : PhysicalPlacementMode)
    (v : View H) : View H :=
  if (v.removed key).any (generation ≤ ·) ∨ (v.ready key).any (generation < ·.1) then v
  else
    ⟨update v.ready key (some (generation, placement)), update v.removed key none⟩

/-- A later copy outweighs it. -/
def applyRemove (key : PlacementKey H) (generation : Nat) (v : View H) : View H :=
  if (v.ready key).any (generation < ·.1) then v
  else
    ⟨update v.ready key none, update v.removed key
      (some (max ((v.removed key).getD generation) generation))⟩

def applyOp (v : View H) (op : TierPlacementOp H × List H) : View H :=
  match op.1 with
  | .ready scope tier placement generation _ =>
    op.2.foldl (fun v hash => v.applyReady (scope.key tier hash) generation placement) v
  | .remove scope tier generation _ =>
    op.2.foldl (fun v hash => v.applyRemove (scope.key tier hash) generation) v

/-- Nothing where a batch names keys that cannot be resolved. -/
def applyBatch (manifests : Nat → Option (BundleResourceLineage H)) (v : View H)
    (batch : TierPlacementBatch H) : Option (View H) :=
  (resolveOps manifests batch.ops).map fun resolved => resolved.foldl applyOp v

def install (key : PlacementKey H) (generation : Nat) (placement : PhysicalPlacementMode)
    (v : View H) : View H :=
  ⟨update v.ready key (some (generation, placement)), fun _ => none⟩

def installEntry (v : View H) (entry : TierPlacementEntry H) : View H :=
  match entry.keys with
  | .hashes hashes => hashes.foldl (fun v hash =>
    v.install (entry.scope.key entry.tier hash) entry.generation entry.placement) v
  | .manifestInterval _ _ _ => v

end View

def TierPlacementSnapshot.view (snapshot : TierPlacementSnapshot H) : View H :=
  snapshot.entries.foldl View.installEntry .empty

variable [LineageHash H]

def TierPlacementSnapshot.lineages (snapshot : TierPlacementSnapshot H) :
    Nat → Option (BundleResourceLineage H) :=
  match Projection.installManifests snapshot.manifests with
  | .ok manifests => manifests
  | .error _ => fun _ => none

/-- A snapshot and then batches, in order. -/
def replay (snapshot : TierPlacementSnapshot H) (batches : List (TierPlacementBatch H)) :
    Option (View H) :=
  batches.foldlM (View.applyBatch snapshot.lineages) snapshot.view

/-! ### The hub's maps as a view -/

omit [LineageHash H]

namespace PlacementSet

variable {p : PlacementSet H} {key : PlacementKey H} {generation now : Nat}
  {placement : PhysicalPlacementMode} {record : ReadyRecord}

def view (p : PlacementSet H) : View H :=
  ⟨fun k => (p.ready.lookup k).map fun record => (record.generation, record.placement),
    fun k => p.tombstones.lookup k⟩

@[simp] theorem view_empty : (empty : PlacementSet H).view = .empty := by
  simp [view, empty, View.empty]

theorem map_lookup_insert {κ β γ : Type} [DecidableEq κ] {m : Keyed κ β} {k : κ} {v : β}
    (f : β → γ) : (fun j => ((m.insert k v).lookup j).map f) =
      update (fun j => (m.lookup j).map f) k (some (f v)) := by
  funext j
  rw [Keyed.lookup_insert]
  by_cases h : j = k <;> simp [h]

theorem any_view : (p.view.ready key).any (generation < ·.1) =
    (p.ready.lookup key).any (generation < ·.generation) := by
  simp only [view]
  cases p.ready.lookup key <;> rfl

theorem view_applyReady :
    (p.applyReady key generation ⟨generation, placement, now⟩).view =
      p.view.applyReady key generation placement := by
  unfold applyReady View.applyReady
  rw [any_view]
  by_cases hr : (p.tombstones.lookup key).any (generation ≤ ·) = true
  · rw [if_pos hr, if_pos (.inl hr)]
  rw [if_neg hr]
  by_cases hn : (p.ready.lookup key).any (generation < ·.generation) = true
  · rw [if_pos hn, if_pos (.inr hn)]
  rw [if_neg hn, if_neg (fun h => h.elim hr hn)]
  simp only [view, map_lookup_insert]
  congr 1
  funext k
  rw [Keyed.lookup_erase]
  by_cases h : k = key <;> simp [h]

theorem view_applyRemove :
    (p.applyRemove key generation).view = p.view.applyRemove key generation := by
  unfold applyRemove View.applyRemove
  rw [any_view]
  split
  · rfl
  simp only [view]
  congr 1
  · funext k
    rw [Keyed.lookup_erase]
    by_cases h : k = key <;> simp [h]
  · funext k
    rw [Keyed.lookup_insert]
    by_cases h : k = key <;> simp [h]

theorem view_foldl {α : Type} {f : PlacementSet H → α → PlacementSet H} {g : View H → α → View H}
    (h : ∀ p a, (f p a).view = g p.view a) {l : List α} :
    (l.foldl f p).view = l.foldl g p.view := by
  induction l generalizing p with
  | nil => rfl
  | cons a l ih => rw [List.foldl_cons, List.foldl_cons, ih, h]

theorem view_applyOp {op : TierPlacementOp H × List H} :
    (p.applyOp now op).view = p.view.applyOp op := by
  obtain ⟨op, hashes⟩ := op
  cases op with
  | ready =>
    exact view_foldl (fun p hash => view_applyReady)
  | remove scope tier generation keys => exact view_foldl (fun p hash => view_applyRemove)

theorem view_install :
    (p.install key record).view = p.view.install key record.generation record.placement := by
  simp [view, install, View.install, map_lookup_insert]

theorem len_eq_of_view {q : PlacementSet H} (h : p.view = q.view) : p.ready.len = q.ready.len := by
  have hkeys : p.ready.keys = q.ready.keys := by
    ext k
    have hk : (p.view.ready k).isSome = (q.view.ready k).isSome := by rw [h]
    simpa [view, Keyed.mem_keys] using congrArg (· = true) hk
  rw [Keyed.len, Keyed.len, hkeys]

end PlacementSet

/-! ### Building a snapshot -/

namespace Projection

variable {limit now now' : Nat} {p p' q : PlacementSet H} {entry : TierPlacementEntry H}
  {hashes : List H} {entries : List (TierPlacementEntry H)}

theorem installHashes_view (h : installHashes limit now entry hashes p = .ok p') :
    p'.view = hashes.foldl (fun v hash =>
      v.install (entry.scope.key entry.tier hash) entry.generation entry.placement) p.view := by
  induction hashes generalizing p with
  | nil =>
    cases h
    rfl
  | cons hash rest ih =>
    obtain ⟨_, -, h⟩ := bind_eq_ok.mp h
    rw [List.foldl_cons, ih h, PlacementSet.view_install]

theorem installEntries_view (h : installEntries limit now entries p = .ok p') :
    p'.view = entries.foldl View.installEntry p.view := by
  induction entries generalizing p with
  | nil =>
    cases h
    rfl
  | cons entry rest ih =>
    rw [installEntries] at h
    split at h
    · rename_i hashes hkeys
      obtain ⟨q, hq, h⟩ := bind_eq_ok.mp h
      rw [List.foldl_cons, ih h, installHashes_view hq, View.installEntry, hkeys]
    · cases h

/-- The room there is does not depend on the time. -/
theorem installHashes_retime
    (h : installHashes limit now entry hashes p = .ok p') (hv : p.view = q.view) :
    ∃ q', installHashes limit now' entry hashes q = .ok q' := by
  induction hashes generalizing p q with
  | nil => exact ⟨q, rfl⟩
  | cons hash rest ih =>
    obtain ⟨_, hroom, h⟩ := bind_eq_ok.mp h
    obtain ⟨q', hq'⟩ := ih h (q := q.install (entry.scope.key entry.tier hash)
      ⟨entry.generation, entry.placement, now'⟩) (by simp [PlacementSet.view_install, hv])
    refine ⟨q', bind_eq_ok.mpr ⟨(), ensure_eq_ok.mpr ?_, hq'⟩⟩
    rw [← PlacementSet.len_eq_of_view hv]
    exact ensure_eq_ok.mp hroom

theorem installEntries_retime
    (h : installEntries limit now entries p = .ok p') (hv : p.view = q.view) :
    ∃ q', installEntries limit now' entries q = .ok q' := by
  induction entries generalizing p q with
  | nil => exact ⟨q, rfl⟩
  | cons entry rest ih =>
    rw [installEntries] at h ⊢
    split at h
    · rename_i hashes hkeys
      obtain ⟨r, hr, h⟩ := bind_eq_ok.mp h
      obtain ⟨r', hr'⟩ := installHashes_retime hr hv
      obtain ⟨q', hq'⟩ := ih h (q := r') (by
        rw [installHashes_view hr, installHashes_view hr', hv])
      exact ⟨q', by simpa only [hkeys] using bind_eq_ok.mpr ⟨r', hr', hq'⟩⟩
    · cases h

variable [LineageHash H] {limits : ProjectionLimits} {snapshot : TierPlacementSnapshot H}
  {epoch : RegistrationEpoch}
  {built : (Nat → Option (BundleResourceLineage H)) × PlacementSet H}

/-- **What is built from a snapshot is what the snapshot says.** -/
theorem buildSnapshot_view (h : buildSnapshot limits snapshot epoch now = .ok built) :
    built.1 = snapshot.lineages ∧ built.2.view = snapshot.view := by
  obtain ⟨_, -, h⟩ := bind_eq_ok.mp h
  obtain ⟨_, -, h⟩ := bind_eq_ok.mp h
  obtain ⟨_, -, h⟩ := bind_eq_ok.mp h
  obtain ⟨manifests, hmanifests, h⟩ := bind_eq_ok.mp h
  obtain ⟨placements, hplacements, rfl⟩ := map_eq_ok.mp h
  constructor
  · rw [TierPlacementSnapshot.lineages, mapError_eq_ok.mp hmanifests]
  · rw [installEntries_view hplacements, PlacementSet.view_empty]
    rfl

/-- A snapshot that could be installed once can be installed at any time. -/
theorem buildSnapshot_retime (h : buildSnapshot limits snapshot epoch now = .ok built) :
    ∃ built', buildSnapshot limits snapshot epoch now' = .ok built' := by
  obtain ⟨_, hvalid, h⟩ := bind_eq_ok.mp h
  obtain ⟨_, hepoch, h⟩ := bind_eq_ok.mp h
  obtain ⟨_, hroom, h⟩ := bind_eq_ok.mp h
  obtain ⟨manifests, hmanifests, h⟩ := bind_eq_ok.mp h
  obtain ⟨placements, hplacements, -⟩ := map_eq_ok.mp h
  obtain ⟨q, hq⟩ := installEntries_retime hplacements rfl
  exact ⟨(manifests, q), bind_eq_ok.mpr ⟨_, hvalid, bind_eq_ok.mpr ⟨_, hepoch, bind_eq_ok.mpr
    ⟨_, hroom, bind_eq_ok.mpr ⟨_, hmanifests, map_eq_ok.mpr ⟨q, hq, rfl⟩⟩⟩⟩⟩⟩

end Projection

end Kvbm.Hub.Tier
