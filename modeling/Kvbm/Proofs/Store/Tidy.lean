/-
The store in order.

A slot belongs to the structure that its state names: a reset slot to the free or to the
fenced set, an inactive one to the index, a primary to the map of active hashes, a held
one to the map of held hashes; the others belong nowhere.  The store is tidy when its
structures list exactly the slots that belong to them.  An operation takes slots out,
changes them and files them again, so each of these moves is proved once here, and the
operations are put together from them.
-/
import Kvbm.Lib.Filing
import Kvbm.Store.World
import Kvbm.Proofs.Index.Lawful

namespace Kvbm

open Lib LawfulIndex Finset

/-- A structure of the store that lists slots. -/
inductive Place
  | free
  | fenced
  | inactive (h : SequenceHash)
  | active (h : SequenceHash)
  | held (h : SequenceHash)
  deriving DecidableEq, Repr

namespace BlockStore

section Slots

variable {ι : Type} {s : BlockStore ι} {id j : BlockId} {slot : BlockSlot} {st : SlotState}

/-- The structure that a slot belongs to. -/
def place (s : BlockStore ι) (id : BlockId) : Option Place :=
  match s.state id with
  | .reset =>
    if id < s.effectiveCeiling then some .free
    else if id < s.capacity then some .fenced else none
  | .primary h _ _ => some (.active h)
  | .inactive h _ => some (.inactive h)
  | .held h _ => some (.held h)
  | _ => none

theorem state_setSlot : (s.setSlot id slot).state j = if j = id then slot.state else s.state j := by
  unfold state setSlot
  by_cases hj : j = id
  · subst hj
    simp
  · simp [hj]

@[simp] theorem state_setSlot_self : (s.setSlot id slot).state id = slot.state := by
  simp [state_setSlot]

@[simp] theorem state_setState_self : (s.setState id st).state id = st := state_setSlot_self

theorem state_setState_ne (hj : j ≠ id) : (s.setState id st).state j = s.state j := by
  simp [setState, state_setSlot, hj]

theorem place_setSlot_ne (hj : j ≠ id) : (s.setSlot id slot).place j = s.place j := by
  unfold place
  rw [state_setSlot, if_neg hj]
  rfl

theorem effectiveCeiling_le : s.effectiveCeiling ≤ s.capacity := min_le_right _ _

/-- What a slot must be to belong to a structure. -/
def Belongs (s : BlockStore ι) (id : BlockId) : Place → Prop
  | .free => s.state id = .reset ∧ id < s.effectiveCeiling
  | .fenced => s.state id = .reset ∧ s.effectiveCeiling ≤ id ∧ id < s.capacity
  | .inactive h => ∃ handle, s.state id = .inactive h handle
  | .active h => ∃ handle i, s.state id = .primary h handle i
  | .held h => ∃ handle, s.state id = .held h handle

theorem place_eq {p : Place} : s.place id = some p ↔ s.Belongs id p := by
  unfold place Belongs
  split
  · split_ifs <;> cases p <;> simp_all
  all_goals cases p <;> simp_all

end Slots

variable {ι : Type} [InactiveIndex ι] [LawfulIndex ι]
variable {s s' : BlockStore ι} {out : List BlockId} {id : BlockId} {h : SequenceHash}

/-- The pairs in the inactive index. -/
def entries (s : BlockStore ι) : Finset Entry := view.entries s.inactive

theorem entries_congr (hix : s'.inactive = s.inactive) : s'.entries = s.entries :=
  congrArg view.entries hix

/-- The slot is listed there. -/
def Lists (s : BlockStore ι) (id : BlockId) : Place → Prop
  | .free => id ∈ s.free
  | .fenced => id ∈ s.fenced
  | .inactive h => (h, id) ∈ s.entries
  | .active h => s.activeByHash h = some id
  | .held h => s.heldByHash h = some id

/-- In order, but for the slots `out`, which are being worked on. -/
structure Tidy (s : BlockStore ι) (out : List BlockId) : Prop where
  index : view.Wf s.inactive
  fits : view.Fits s.inactive s.slotCount
  slots : s.capacity ≤ s.slotCount
  above : ∀ id, s.capacity ≤ id → s.state id = .reset
  below : ∀ id ∈ out, id < s.capacity
  filed : Filed s.place s.Lists out
  exclusive : ∀ {h a b}, s.activeByHash h = some a → (h, b) ∉ s.entries

namespace Tidy

section

variable (ht : s.Tidy out)

include ht

theorem perm {out' : List BlockId} (hp : out.Perm out') : s.Tidy out' :=
  { ht with
    below := fun id hid => ht.below id (hp.mem_iff.mpr hid)
    filed := ht.filed.perm hp }

theorem lt_capacity (hst : s.state id ≠ .reset) : id < s.capacity := by
  by_contra hge
  exact hst (ht.above id (Nat.le_of_not_lt hge))

theorem lists_lt {p : Place} (hp : s.Lists id p) : id < s.capacity := by
  have hplace := ht.filed.place_eq hp
  by_contra hge
  have hst := ht.above id (Nat.le_of_not_lt hge)
  have hceil : ¬ id < s.effectiveCeiling := fun hc => hge (hc.trans_le effectiveCeiling_le)
  simp [place, hst, hceil, hge] at hplace

theorem lists_iff (p : Place) : s.Lists id p ↔ id ∉ out ∧ s.Belongs id p := by
  rw [← place_eq]
  exact ht.filed.iff id p

theorem mem_free : id ∈ s.free ↔ id ∉ out ∧ s.state id = .reset ∧ id < s.effectiveCeiling :=
  ht.lists_iff .free

theorem mem_fenced :
    id ∈ s.fenced ↔ id ∉ out ∧ s.state id = .reset ∧ s.effectiveCeiling ≤ id ∧ id < s.capacity :=
  ht.lists_iff .fenced

theorem mem_entries : (h, id) ∈ s.entries ↔ id ∉ out ∧ ∃ handle, s.state id = .inactive h handle :=
  ht.lists_iff (.inactive h)

theorem active_iff :
    s.activeByHash h = some id ↔ id ∉ out ∧ ∃ handle i, s.state id = .primary h handle i :=
  ht.lists_iff (.active h)

theorem held_iff : s.heldByHash h = some id ↔ id ∉ out ∧ ∃ handle, s.state id = .held h handle :=
  ht.lists_iff (.held h)

/-- A slot is in the index once. -/
theorem snd_injOn : Set.InjOn Prod.snd (s.entries : Set Entry) := by
  intro e he e' he' hsnd
  have he : s.Lists e.2 (.inactive e.1) := he
  have he' : s.Lists e.2 (.inactive e'.1) := by rw [hsnd]; exact he'
  exact Prod.ext (Place.inactive.inj (ht.filed.unique he he')) hsnd

theorem snd_mem_range {e : Entry} (he : e ∈ s.entries) : e.2 ∈ range s.slotCount :=
  mem_range.mpr ((ht.lists_lt (p := .inactive e.1) he).trans_le ht.slots)

theorem card_entries_le : s.entries.card ≤ s.slotCount := by
  rw [← card_range s.slotCount, ← card_image_of_injOn ht.snd_injOn]
  refine card_le_card fun j hj => ?_
  obtain ⟨e, he, rfl⟩ := mem_image.mp hj
  exact ht.snd_mem_range he

/-- There is room in the index for every slot that is not in it. -/
theorem card_entries_lt (hid : ∀ g, (g, id) ∉ s.entries) (hlt : id < s.capacity) :
    s.entries.card < s.slotCount := by
  have hmem : id ∈ range s.slotCount := mem_range.mpr (hlt.trans_le ht.slots)
  rw [← card_range s.slotCount, ← card_image_of_injOn ht.snd_injOn]
  refine card_lt_card ((ssubset_iff_of_subset fun j hj => ?_).mpr ⟨id, hmem, ?_⟩)
  · obtain ⟨e, he, rfl⟩ := mem_image.mp hj
    exact ht.snd_mem_range he
  · intro hc
    obtain ⟨e, he, rfl⟩ := mem_image.mp hc
    exact hid e.1 he

/-! ### Changing a slot that is out -/

theorem setSlot (hid : id ∈ out) (slot : BlockSlot) : (s.setSlot id slot).Tidy out where
  index := ht.index
  fits := ht.fits
  slots := ht.slots
  above j hj := by
    have hlt := ht.below id hid
    have hne : j ≠ id := by
      rintro rfl
      exact absurd hlt (Nat.not_lt.mpr hj)
    rw [state_setSlot, if_neg hne]
    exact ht.above j hj
  below := ht.below
  filed := ht.filed.change hid fun _ hj => place_setSlot_ne hj
  exclusive := ht.exclusive

theorem setState (hid : id ∈ out) (st : SlotState) : (s.setState id st).Tidy out := ht.setSlot hid _

theorem setFlag (id : BlockId) (v : Bool) : (s.setFlag id v).Tidy out := { ht with }

/-! ### Taking slots out -/

/-- A slot that belongs nowhere. -/
theorem takePlain (hid : id ∉ out) (hlt : id < s.capacity) (hp : s.place id = none) :
    s.Tidy (id :: out) :=
  { ht with
    below := List.forall_mem_cons.mpr ⟨hlt, ht.below⟩
    filed := ht.filed.unfile_none hid hp }

theorem below_cons {p : Place} (hp : s.Lists id p) : ∀ j ∈ id :: out, j < s.capacity :=
  List.forall_mem_cons.mpr ⟨ht.lists_lt hp, ht.below⟩

theorem takeFree (hid : id ∈ s.free) : { s with free := s.free.erase id }.Tidy (id :: out) :=
  { ht with
    below := ht.below_cons (p := .free) hid
    filed := ht.filed.unfile (q := .free) hid fun j p => by
      cases p <;> simp [Lists, entries, and_comm] }

theorem takeActive (ha : s.activeByHash h = some id) : (s.removeActive h).Tidy (id :: out) :=
  { ht with
    below := ht.below_cons (p := .active h) ha
    filed := ht.filed.unfile (q := .active h) ha fun j p => by
      cases p with
      | active g =>
        by_cases hg : g = h
        · subst hg
          simp [Lists, removeActive, ha, eq_comm]
        · simp [Lists, removeActive, hg]
      | _ => simp [Lists, entries, removeActive]
    exclusive := by
      intro g a b hg
      refine ht.exclusive (a := a) ?_
      by_cases hgh : g = h
      · subst hgh
        simp [removeActive] at hg
      · simpa [removeActive, hgh] using hg }

theorem takeHeld (hh : s.heldByHash h = some id) :
    { s with heldByHash := Function.update s.heldByHash h none }.Tidy (id :: out) :=
  { ht with
    below := ht.below_cons (p := .held h) hh
    filed := ht.filed.unfile (q := .held h) hh fun j p => by
      cases p with
      | held g =>
        by_cases hg : g = h
        · subst hg
          simp [Lists, hh, eq_comm]
        · simp [Lists, hg]
      | _ => simp [Lists, entries] }

variable {ix : ι} {handle : BlockRegistrationHandle}

theorem takeIndex {l : List Entry} (hk : view.Taken s.inactive l ix) :
    { s with inactive := ix }.Tidy (l.map Prod.snd ++ out) := by
  have hmem : ∀ e ∈ l, s.Lists e.2 (.inactive e.1) := fun e he => hk.mem e he
  have hfst : l.map Prod.snd = (l.map fun e => (e.2, Place.inactive e.1)).map Prod.fst := by
    rw [List.map_map]
    rfl
  refine { ht with
    index := hk.wf
    fits := hk.fits _ ht.fits
    below := ?_
    filed := hfst ▸ ht.filed.unfile_many ?_ ?_ ?_
    exclusive := fun hg hb => ht.exclusive hg (hk.mem_rest.mp hb).1 }
  · intro j hj
    rcases List.mem_append.mp hj with hj | hj
    · obtain ⟨e, he, rfl⟩ := List.mem_map.mp hj
      exact ht.lists_lt (hmem e he)
    · exact ht.below j hj
  · intro e he
    obtain ⟨e', he', rfl⟩ := List.mem_map.mp he
    exact hmem e' he'
  · refine hk.nodup.map fun e e' heq => ?_
    have hpair := Prod.mk.inj heq
    exact Prod.ext (Place.inactive.inj hpair.2) hpair.1
  · intro j p
    cases p with
    | inactive g =>
      show (g, j) ∈ view.entries ix ↔ _
      rw [hk.mem_rest]
      simp [Lists, entries]
    | _ => simp [Lists]

end

/-! ### Filing slots again -/

variable (ht : s.Tidy (id :: out))

include ht

theorem below_tail : ∀ j ∈ out, j < s.capacity := fun j hj => ht.below j (List.mem_cons_of_mem _ hj)

theorem putPlain (hp : s.place id = none) : s.Tidy out :=
  { ht with below := ht.below_tail, filed := ht.filed.file_none hp }

theorem not_listed (p : Place) : ¬ s.Lists id p := fun hp => ht.filed.not_out hp List.mem_cons_self

theorem pushResetId (hst : s.state id = .reset) : (s.pushResetId id).Tidy out := by
  have hlt := ht.below id List.mem_cons_self
  have hfree : id ∉ s.free := ht.not_listed .free
  have hfenced : id ∉ s.fenced := ht.not_listed .fenced
  unfold BlockStore.pushResetId
  split
  · next hc =>
      refine { ht with below := ht.below_tail, filed := ?_ }
      refine ht.filed.file (q := .free) (place_eq.mpr ⟨hst, hc⟩) fun j p => ?_
      cases p <;> simp [Lists, entries, erase_eq_of_notMem hfenced, or_comm]
  · next hc =>
      refine { ht with below := ht.below_tail, filed := ?_ }
      refine ht.filed.file (q := .fenced) (place_eq.mpr ⟨hst, Nat.le_of_not_lt hc, hlt⟩)
        fun j p => ?_
      cases p <;> simp [Lists, entries, erase_eq_of_notMem hfree, or_comm]

theorem resetSlot : (s.resetSlot id).Tidy out :=
  (ht.setState List.mem_cons_self _).pushResetId state_setState_self

theorem putActive {i : InnerId} (hst : s.state id = .primary h handle i)
    (hno : s.activeByHash h = none) (hent : ∀ b, (h, b) ∉ s.entries) :
    { s with activeByHash := Function.update s.activeByHash h (some id) }.Tidy out := by
  refine { ht with below := ht.below_tail, filed := ?_, exclusive := ?_ }
  · refine ht.filed.file (q := .active h) (place_eq.mpr ⟨handle, i, hst⟩) fun j p => ?_
    cases p with
    | active g =>
      by_cases hg : g = h
      · subst hg
        simp [Lists, hno, eq_comm]
      · simp [Lists, hg]
    | _ => simp [Lists, entries]
  · intro g a b hg
    by_cases hgh : g = h
    · exact hgh ▸ hent b
    · exact ht.exclusive (a := a) (by simpa [hgh] using hg)

theorem putHeld (hst : s.state id = .held h handle) (hno : s.heldByHash h = none) :
    { s with heldByHash := Function.update s.heldByHash h (some id) }.Tidy out := by
  refine { ht with below := ht.below_tail, filed := ?_ }
  refine ht.filed.file (q := .held h) (place_eq.mpr ⟨handle, hst⟩) fun j p => ?_
  cases p with
  | held g =>
    by_cases hg : g = h
    · subst hg
      simp [Lists, hno, eq_comm]
    · simp [Lists, hg]
  | _ => simp [Lists, entries]

/-- An insertion that comes back adds the pair. -/
theorem insert_entries (hent : ∀ b, (h, b) ∉ s.entries)
    (hins : InactiveIndex.insert s.inactive h id = some ix) :
    view.Wf ix ∧ view.entries ix = insert (h, id) s.entries ∧
      ∀ m, view.Fits s.inactive m → view.Fits ix m := by
  have hid : ∀ g, (g, id) ∉ s.entries := fun g => ht.not_listed (.inactive g)
  have hroom := ht.card_entries_lt hid (ht.below id List.mem_cons_self)
  obtain ⟨ix', hix', hwf, hentries, hfits, -⟩ := insert_spec ht.index hent hid ht.fits hroom
    (insert_admits ht.index hins)
  rw [hins] at hix'
  cases hix'
  exact ⟨hwf, hentries, hfits⟩

theorem putInactive (hst : s.state id = .inactive h handle) (hno : s.activeByHash h = none)
    (hent : ∀ b, (h, b) ∉ s.entries) (hins : InactiveIndex.insert s.inactive h id = some ix) :
    { s with inactive := ix }.Tidy out := by
  obtain ⟨hwf, hentries, hfits⟩ := ht.insert_entries hent hins
  refine { ht with
    index := hwf
    fits := hfits _ ht.fits
    below := ht.below_tail
    filed := ?_
    exclusive := ?_ }
  · refine ht.filed.file (q := .inactive h) (place_eq.mpr ⟨handle, hst⟩) fun j p => ?_
    cases p with
    | inactive g =>
      show (g, j) ∈ view.entries ix ↔ _
      rw [hentries, mem_insert]
      simp [Lists, or_comm]
    | _ => simp [Lists]
  · intro g a b hg hb
    have hb : (g, b) ∈ view.entries ix := hb
    rw [hentries, mem_insert] at hb
    rcases hb with hb | hb
    · have hg : s.activeByHash g = some a := hg
      rw [(Prod.mk.inj hb).1, hno] at hg
      cases hg
    · exact ht.exclusive hg hb

end Tidy

end BlockStore

end Kvbm
