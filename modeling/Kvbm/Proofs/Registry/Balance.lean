/-
What a store owes its registrations.

A store has changed a slot before the mark for it is made, so between the two a store is
ahead of the markers: by the registrations that are still to be marked present, and by
the handles that are still to be marked absent.  No move of a store changes the balance of
the two.
-/
import Kvbm.Proofs.Store.Steps

namespace Kvbm

open List Option

/-! ### Slots of a registration -/

namespace BlockStore

variable {ι : Type} {s s' : BlockStore ι}

theorem regCount_perm (f : Equiv.Perm BlockId) (hreg : ∀ id, s'.reg (f id) = s.reg id)
    (hb : ∀ {id}, s.reg id ≠ none → id < s.slotCount)
    (hb' : ∀ {id}, s'.reg id ≠ none → id < s'.slotCount) (x : BlockRegistrationHandle) :
    s'.regCount x = s.regCount x := by
  symm
  refine Finset.card_bijective f f.bijective fun id => ?_
  simp only [Finset.mem_filter, Finset.mem_range, hreg]
  constructor
  · rintro ⟨-, hx⟩
    refine ⟨hb' ?_, hx⟩
    rw [hreg]
    intro hnone
    simp [hnone] at hx
  · rintro ⟨-, hx⟩
    refine ⟨hb ?_, hx⟩
    intro hnone
    simp [hnone] at hx

theorem regCount_swap {src dst : BlockId} (hdst : s.reg dst = none) (hsrc' : s'.reg src = none)
    (hdst' : s'.reg dst = s.reg src) (hother : ∀ j, j ≠ src → j ≠ dst → s'.reg j = s.reg j)
    (hb : ∀ {id}, s.reg id ≠ none → id < s.slotCount)
    (hb' : ∀ {id}, s'.reg id ≠ none → id < s'.slotCount) (x : BlockRegistrationHandle) :
    s'.regCount x = s.regCount x := by
  refine regCount_perm (Equiv.swap src dst) (fun id => ?_) hb hb' x
  by_cases hs : id = src
  · rw [hs, Equiv.swap_apply_left, hdst']
  by_cases hd : id = dst
  · rw [hd, Equiv.swap_apply_right, hsrc', hdst]
  · rw [Equiv.swap_apply_of_ne_of_ne hs hd, hother id hs hd]

theorem regCount_insert {id : BlockId} {r : Bool × SequenceHash × BlockRegistrationHandle}
    (hlt : id < s.slotCount) (hold : s.reg id = none) (hnew : s'.reg id = some r)
    (hother : ∀ j, j ≠ id → s'.reg j = s.reg j) (hc : s'.slotCount = s.slotCount)
    (x : BlockRegistrationHandle) : s'.regCount x = s.regCount x + if r.2.2 = x then 1 else 0 := by
  have hfilter : (Finset.range s.slotCount).filter (fun j => (s'.reg j).map (·.2.2) = some x) =
      if r.2.2 = x then
        insert id ((Finset.range s.slotCount).filter fun j => (s.reg j).map (·.2.2) = some x)
      else (Finset.range s.slotCount).filter fun j => (s.reg j).map (·.2.2) = some x := by
    ext j
    by_cases hj : j = id
    · subst hj
      split_ifs with hx <;> simp [hnew, hold, hlt, hx]
    · split_ifs <;> simp [hother j hj, hj]
  unfold regCount
  rw [hc, hfilter]
  split_ifs
  · rw [Finset.card_insert_of_notMem (by simp [hold])]
  · rfl

theorem regCount_pos {id : BlockId} {b : Bool} {h : SequenceHash} {x : BlockRegistrationHandle}
    (hlt : id < s.slotCount) (hr : s.reg id = some (b, h, x)) : 0 < s.regCount x :=
  Finset.card_pos.mpr ⟨id, Finset.mem_filter.mpr ⟨Finset.mem_range.mpr hlt, by simp [hr]⟩⟩

end BlockStore

namespace World

variable {ι : Type} {w w' w'' : World ι} {H : BlockRegistrationHandle → Prop}

/-! ### The balance -/

/-- Registrations with a handle that have still to be marked present. -/
def pending (w : World ι) (x : BlockRegistrationHandle) : Nat :=
  w.marking.countP fun i => (w.inners i).handle = x

/-- What the markers of a handle count, once all registrations have been marked present. -/
def due (w : World ι) (x : BlockRegistrationHandle) : Nat := w.store.regCount x + w.absents.count x

/-- Marks of a handle are owed for what has happened to it, and only where it has been used. -/
structure Balances (H : BlockRegistrationHandle → Prop) (w w' : World ι) : Prop where
  books : ∀ x, w'.due x + w.pending x = w.due x + w'.pending x
  only : ∀ x, ¬ H x → w'.pending x = w.pending x
  nodup : w.marking.Nodup → w'.marking.Nodup

theorem pending_congr (hm : w'.marking = w.marking)
    (hi : ∀ i ∈ w.marking, (w'.inners i).handle = (w.inners i).handle)
    (x : BlockRegistrationHandle) : w'.pending x = w.pending x := by
  unfold pending
  rw [hm]
  refine countP_congr fun i hmem => ?_
  rw [hi i hmem]

theorem Ok.lt_of_marking (hok : w.Ok) {i : InnerId} (hi : i ∈ w.marking) : i < w.nextInner := by
  refine hok.lt_of_strong ?_
  have := count_pos_iff.mpr hi
  unfold strong
  omega

theorem pending_cons {x : ImmutableBlockInner} (hok : w.Ok) (hi : w'.inners = (w.newInner x).inners)
    (hm : w'.marking = w.nextInner :: w.marking) (y : BlockRegistrationHandle) :
    w'.pending y = w.pending y + if x.handle = y then 1 else 0 := by
  unfold pending
  rw [hm, hi, countP_cons, Ok.newInner_self]
  simp only [decide_eq_true_eq]
  congr 1
  refine countP_congr fun i hmem => ?_
  rw [Ok.newInner_ne (hok.lt_of_marking hmem)]

/-- A registration that has still to be marked present owns a slot. -/
theorem Ok.reg_of_marking (hok : w.Ok) {i : InnerId} (hi : i ∈ w.marking) :
    w.store.owner (w.inners i).blockId = some i ∧
      (w.store.reg (w.inners i).blockId).map (·.2.2) = some (w.inners i).handle := by
  have hpos : 0 < w.strong i := by
    have := count_pos_iff.mpr hi
    unfold strong
    omega
  have ho := hok.live hpos
  refine ⟨ho, ?_⟩
  rw [BlockStore.reg, (hok.own ho).2.2.2, ImmutableBlockInner.slotState_reg]
  rfl

/-- Registrations that have still to be marked present have slots of their own. -/
theorem Ok.pending_le (hok : w.Ok) (hn : w.marking.Nodup) (x : BlockRegistrationHandle) :
    w.pending x ≤ w.store.regCount x := by
  unfold pending
  rw [countP_eq_length_filter, ← toFinset_card_of_nodup (hn.filter _)]
  refine Finset.card_le_card_of_injOn (fun i => (w.inners i).blockId) ?_ ?_
  · intro i hi
    obtain ⟨hmem, hx⟩ := mem_filter.mp (mem_toFinset.mp hi)
    obtain ⟨-, hr⟩ := hok.reg_of_marking hmem
    rw [of_decide_eq_true hx] at hr
    refine Finset.mem_coe.mpr (Finset.mem_filter.mpr ⟨Finset.mem_range.mpr (hok.below ?_), hr⟩)
    intro hnone
    simp [hnone] at hr
  · intro i hi j hj hij
    have hi := (mem_filter.mp (mem_toFinset.mp hi)).1
    have hj := (mem_filter.mp (mem_toFinset.mp hj)).1
    have ho := (hok.reg_of_marking hi).1
    rw [show (w.inners i).blockId = (w.inners j).blockId from hij, (hok.reg_of_marking hj).1] at ho
    exact (some.inj ho).symm

namespace Balances

theorem refl (w : World ι) : Balances H w w := ⟨fun _ => rfl, fun _ _ => rfl, id⟩

theorem trans (h : Balances H w w') (h' : Balances H w' w'') : Balances H w w'' where
  books x := by
    have := h.books x
    have := h'.books x
    omega
  only x hx := (h'.only x hx).trans (h.only x hx)
  nodup hn := h'.nodup (h.nodup hn)

theorem of_due (hm : w'.marking = w.marking)
    (hi : ∀ i ∈ w.marking, (w'.inners i).handle = (w.inners i).handle)
    (hd : ∀ x, w'.due x = w.due x) : Balances H w w' where
  books x := by rw [hd, pending_congr hm hi]
  only x _ := pending_congr hm hi x
  nodup hn := hm ▸ hn

/-- No slot changes its registration. -/
theorem of_reg (hok : w.Ok) (hok' : w'.Ok) (hm : w'.marking = w.marking)
    (hi : ∀ i ∈ w.marking, (w'.inners i).handle = (w.inners i).handle)
    (hr : w'.store.reg = w.store.reg) (ha : w'.absents = w.absents) : Balances H w w' := by
  refine of_due hm hi fun x => ?_
  unfold due
  rw [ha, BlockStore.regCount_perm (Equiv.refl _) (fun id => congrFun hr id) hok.below hok'.below]

theorem of_deregisters {s : BlockStore ι} {ids : List BlockId}
    {handles : List BlockRegistrationHandle} (hok : w.Ok) (hd : w.store.Deregisters ids s)
    (hh : w.store.HandlesOf ids handles) (hc : s.slotCount = w.store.slotCount) :
    Balances H w ({ w with store := s }.markLater handles) := by
  refine of_due rfl (fun _ _ => rfl) fun x => ?_
  have hcount := hd.regCount hc hh (fun id hid => hok.below (hd.lost id hid).1) x
  simp only [due, markLater, count_append]
  omega

end Balances

/-- **A move keeps the balance.** -/
theorem MoveOf.balances (hok : w.Ok) (hm : MoveOf H w w') : Balances H w w' := by
  have hok' := hm.ok hok
  cases hm with
  | quiet _ hr _ => exact .of_reg hok hok' rfl (fun _ _ => rfl) hr rfl
  | lose _ hd hh hc => exact .of_deregisters hok hd hh hc
  | aside | add | sub | finish => exact .of_due rfl (fun _ _ => rfl) fun _ => rfl
  | vacate _ _ _ _ hd hh hc => exact .of_deregisters hok hd hh hc
  | @resurrect x s hc hr =>
    refine .of_reg hok hok' rfl (fun i hi => ?_) hr rfl
    exact congrArg ImmutableBlockInner.handle (Ok.newInner_ne (hok.lt_of_marking hi))
  | @register x s hc hnone hx =>
    have hself : s.reg x.blockId = some (!x.isPrimary, x.seqHash, x.handle) := by
      rw [BlockStore.reg, hc.self, ImmutableBlockInner.slotState_reg]
    have hpend : ∀ y, pending { w.newInner x with
        store := s, marking := w.nextInner :: w.marking } y =
          w.pending y + if x.handle = y then 1 else 0 := by
      intro y
      apply pending_cons hok
      · rfl
      · rfl
    refine ⟨fun y => ?_, fun y hy => ?_, fun hn => ?_⟩
    · have hreg := BlockStore.regCount_insert hc.lt hnone hself
        (fun j hj => congrArg SlotState.reg (hc.other j hj)) hc.count y
      rw [hpend]
      show s.regCount y + w.absents.count y + w.pending y = _
      rw [hreg]
      unfold due
      simp only
      omega
    · have hne : x.handle ≠ y := fun hxy => hy (hxy ▸ hx)
      rw [hpend, if_neg hne, Nat.add_zero]
    · exact nodup_cons.mpr ⟨fun hmem => (hok.lt_of_marking hmem).ne rfl, hn⟩
  | @clear i =>
    refine .of_due rfl (fun j _ => ?_) fun _ => rfl
    by_cases hj : j = i
    · simp [hj, clearKeepalive]
    · simp [clearKeepalive, hj]
  | @move s i src dst hne hsrc _ hdst _ hd hs hother =>
    refine .of_due rfl (fun j _ => (setBlockId_fields dst j).2.2.2) fun x => ?_
    have hs' : s.reg src = none := BlockStore.Blank.reg (.inl hs)
    exact congrArg (· + w.absents.count x)
      (BlockStore.regCount_swap hdst hs' (congrArg SlotState.reg hd)
        (fun j hj hj' => congrArg SlotState.reg (hother j hj hj')) hok.below hok'.below x)
  | @shift s src dst _ hdst _ _ hd hs hother =>
    refine .of_due rfl (fun _ _ => rfl) fun x => ?_
    exact congrArg (· + w.absents.count x)
      (BlockStore.regCount_swap hdst hs hd hother hok.below hok'.below x)

theorem MovesOf.balances (hok : w.Ok) (hm : MovesOf H w w') : Balances H w w' := by
  induction hm with
  | refl => exact .refl w
  | tail hms hm ih => exact ih.trans (hm.balances (MovesOf.ok hms hok))

end World

end Kvbm
