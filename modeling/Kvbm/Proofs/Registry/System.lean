/-
The presence count is an exact shadow of the slots.

Every store keeps its balance, so the markers of a registration, with the marks that are
still to be made, always add up to its slots.  A mark absent therefore finds a count, and
when no marks are left the count is the number of slots.
-/
import Kvbm.Proofs.Registry.Balance
import Kvbm.Proofs.Registry.Presence
import Kvbm.Proofs.Store.Reachable
import Kvbm.Registry.System
import Mathlib.Algebra.Order.BigOperators.Group.Finset

namespace Kvbm

open Lib Function List Option Finset PresenceMarkers

theorem SlotState.reg_handle (st : SlotState) : st.reg.map (·.2.2) = st.handle := by
  cases st <;> rfl

theorem SlotState.reg_hash (st : SlotState) : st.reg.map (·.2.1) = st.registeredHash := by
  cases st <;> rfl

namespace World

variable {ι : Type} {w : World ι} {x : BlockRegistrationHandle}

theorem due_eq_zero (hr : w.refersTo x = false) : w.due x = 0 := by
  simp only [refersTo, Bool.or_eq_false_iff, decide_eq_false_iff_not, List.any_eq_false,
    List.mem_range, decide_eq_true_eq] at hr
  have hslots : w.store.regCount x = 0 := by
    refine Finset.card_eq_zero.mpr (Finset.filter_eq_empty_iff.mpr fun id hid => ?_)
    rw [BlockStore.reg, SlotState.reg_handle]
    exact hr.2 id (Finset.mem_range.mp hid)
  rw [due, hslots, List.count_eq_zero_of_not_mem hr.1]

theorem regCount_le_due : w.store.regCount x ≤ w.due x := Nat.le_add_right _ _

theorem Ok.slotsUnder_eq (hok : w.Ok) (hlive : ∀ y, 0 < w.due y → y.seqHash = x.seqHash → y = x) :
    w.store.slotsUnder x.seqHash = w.store.regCount x := by
  unfold BlockStore.slotsUnder BlockStore.regCount
  congr 1
  refine filter_congr fun id hid => ?_
  rw [← SlotState.reg_hash]
  show (w.store.reg id).map _ = _ ↔ _
  cases hr : w.store.reg id with
  | none => simp
  | some r =>
    obtain ⟨b, h, y⟩ := r
    have hname := hok.names hr
    have hdue : 0 < w.due y :=
      (BlockStore.regCount_pos (Finset.mem_range.mp hid) hr).trans_le regCount_le_due
    simp only [map_some, some.injEq]
    constructor
    · intro hh
      exact hlive y hdue (hname.trans hh)
    · rintro rfl
      exact hname.symm

/-! ### Marks -/

theorem pending_erase {i : InnerId} (hi : i ∈ w.marking) (y : BlockRegistrationHandle) :
    w.pending y = ({ w with marking := w.marking.erase i }.addGuard i).pending y +
      if (w.inners i).handle = y then 1 else 0 := by
  show w.marking.countP _ = (w.marking.erase i).countP _ + _
  rw [(perm_cons_erase hi).countP_eq, countP_cons]
  simp only [decide_eq_true_eq]
  rfl

theorem due_erase (hx : x ∈ w.absents) (y : BlockRegistrationHandle) :
    w.due y = due { w with absents := w.absents.erase x } y + if x = y then 1 else 0 := by
  show w.store.regCount y + w.absents.count y = w.store.regCount y + (w.absents.erase x).count y + _
  rw [(perm_cons_erase hx).count_eq y, count_cons]
  simp only [beq_iff_eq]
  omega

end World

namespace System

variable {κ τ ι : Type} [DecidableEq τ] [Fintype κ]

/-- The sum of a number over the stores of a tier. -/
def total (s : System κ τ ι) (tier : κ → τ) (f : World ι → Nat) (t : τ) : Nat :=
  ∑ k with tier k = t, f (s.stores k)

variable {tier : κ → τ} {s s' : System κ τ ι} {f g : World ι → Nat} {t : τ}

theorem total_eq_zero (h : ∀ k, f (s.stores k) = 0) : s.total tier f t = 0 :=
  sum_eq_zero fun k _ => h k

section SetStore

variable [DecidableEq κ] {k : κ} {w : World ι}

omit [DecidableEq τ] [Fintype κ] in
theorem forall_setStore {P : World ι → Prop} (hk : P w) (hother : ∀ j, P (s.stores j)) (j : κ) :
    P ((s.setStore k w).stores j) := by
  show P (update s.stores k w j)
  rw [update_apply]
  split_ifs
  · exact hk
  · exact hother j

theorem total_setStore (tier : κ → τ) (t : τ) :
    (s.setStore k w).total tier f t + (if tier k = t then f (s.stores k) else 0) =
      s.total tier f t + if tier k = t then f w else 0 := by
  have hother : ∀ j, j ≠ k → f ((s.setStore k w).stores j) = f (s.stores j) := fun j hj =>
    congrArg f (update_of_ne hj _ _)
  have hself : f ((s.setStore k w).stores k) = f w := congrArg f (update_self _ _ _)
  unfold total
  split_ifs with hk
  · have hmem : k ∈ univ.filter fun j => tier j = t := by simp [hk]
    rw [← add_sum_erase _ _ hmem, ← add_sum_erase _ _ hmem, hself,
      sum_congr rfl fun j hj => hother j (ne_of_mem_erase hj)]
    omega
  · refine congrArg (· + 0) (sum_congr rfl fun j hj => hother j ?_)
    rintro rfl
    exact hk (mem_filter.mp hj).2

end SetStore

variable [InactiveIndex ι] [LawfulIndex ι]

/-- The stores are in order, the markers add up, and whatever is used is registered. -/
structure Sound (tier : κ → τ) (s : System κ τ ι) : Prop where
  ok : ∀ k, (s.stores k).Ok
  tidy : ∀ k, (s.stores k).store.Tidy []
  nodup : ∀ k, (s.stores k).marking.Nodup
  markers : ∀ x, (s.markers x).Wf
  books : ∀ x t, (s.markers x).count t + s.total tier (·.pending x) t = s.total tier (·.due x) t
  client : ∀ x, 0 < s.clients x → s.live x = true
  used : ∀ x k, 0 < (s.stores k).due x → s.live x = true
  entry : ∀ x, s.live x = true → s.registry x.seqHash = some x ∧ x.id < s.nextHandle
  named : ∀ h x, s.registry h = some x → x.seqHash = h

namespace Sound

variable {x : BlockRegistrationHandle} {h : SequenceHash} (hs : s.Sound tier)

include hs

theorem upgrade_eq (hu : s.upgrade h = some x) : s.live x = true ∧ x.seqHash = h := by
  obtain ⟨hreg, hlive⟩ := filter_eq_some_iff.mp hu
  exact ⟨hlive, hs.named h x hreg⟩

theorem upgrade_of_live (hx : s.live x = true) : s.upgrade x.seqHash = some x :=
  filter_eq_some_iff.mpr ⟨(hs.entry x hx).1, hx⟩

theorem due_eq_zero (hx : s.live x = false) (k : κ) : (s.stores k).due x = 0 := by
  by_contra hne
  rw [hs.used x k (Nat.pos_of_ne_zero hne)] at hx
  cases hx

theorem pending_le (x : BlockRegistrationHandle) (k : κ) :
    (s.stores k).pending x ≤ (s.stores k).store.regCount x :=
  (hs.ok k).pending_le (hs.nodup k) x

theorem addClient (hx : s.live x = true) : (s.addClient x).Sound tier := by
  refine { hs with client := fun y hy => ?_ }
  by_cases hyx : y = x
  · exact hyx ▸ hx
  · exact hs.client y (by simpa [System.addClient, hyx] using hy)

theorem create (hnone : s.upgrade h = none) :
    Sound tier { s with
      registry := update s.registry h (some ⟨s.nextHandle, h⟩)
      live := update s.live ⟨s.nextHandle, h⟩ true
      markers := update s.markers ⟨s.nextHandle, h⟩ .empty
      nextHandle := s.nextHandle + 1 } := by
  have hdead : s.live ⟨s.nextHandle, h⟩ = false := by
    by_contra hl
    exact absurd (hs.entry _ (Bool.eq_true_of_not_eq_false hl)).2 (Nat.lt_irrefl _)
  have hother : ∀ {y}, s.live y = true → y.seqHash ≠ h := by
    rintro y hy rfl
    rw [hs.upgrade_of_live hy] at hnone
    cases hnone
  have hlive : ∀ {y}, s.live y = true → update s.live ⟨s.nextHandle, h⟩ true y = true := by
    intro y hy
    rw [update_apply]
    split_ifs
    · rfl
    · exact hy
  refine ⟨hs.ok, hs.tidy, hs.nodup, (forall_update_iff _ fun _ => PresenceMarkers.Wf).mpr ⟨empty_wf,
    fun y _ => hs.markers y⟩, fun y t => ?_, fun y hy => hlive (hs.client y hy),
    fun y k hy => hlive (hs.used y k hy), fun y hy => ?_, fun h' y hy => ?_⟩
  · by_cases hy : y = ⟨s.nextHandle, h⟩
    · subst hy
      have hdue := hs.due_eq_zero hdead
      have hpend : ∀ k, (s.stores k).pending ⟨s.nextHandle, h⟩ = 0 := fun k =>
        Nat.le_zero.mp ((hs.pending_le _ k).trans (World.regCount_le_due.trans (hdue k).le))
      simp only [update_self, count_empty]
      exact (congrArg (0 + ·) (total_eq_zero hpend)).trans (total_eq_zero hdue).symm
    · simp only [update_of_ne hy]
      exact hs.books y t
  · by_cases hyx : y = ⟨s.nextHandle, h⟩
    · subst hyx
      exact ⟨update_self _ _ _, Nat.lt_succ_self _⟩
    have hy : s.live y = true := by simpa [hyx] using hy
    refine ⟨?_, (hs.entry y hy).2.trans (Nat.lt_succ_self _)⟩
    simp only [update_of_ne (hother hy)]
    exact (hs.entry y hy).1
  · by_cases hh : h' = h
    · simp only [hh, update_self, some.injEq] at hy
      rw [← hy, hh]
    · simp only [update_of_ne hh] at hy
      exact hs.named h' y hy

theorem registerSequenceHash (h : SequenceHash) : (s.registerSequenceHash h).Sound tier := by
  unfold System.registerSequenceHash
  cases hu : s.upgrade h with
  | some => exact hs.addClient (hs.upgrade_eq hu).1
  | none => exact (hs.create hu).addClient (update_self _ _ _)

theorem matchSequenceHash (h : SequenceHash) : (s.matchSequenceHash h).Sound tier := by
  unfold System.matchSequenceHash
  cases hu : s.upgrade h with
  | some => exact hs.addClient (hs.upgrade_eq hu).1
  | none => exact hs

theorem dropHandle : Sound tier { s with clients := update s.clients x (s.clients x - 1) } := by
  refine { hs with client := fun y hy => hs.client y ?_ }
  by_cases hyx : y = x
  · subst hyx
    have hy : 0 < s.clients y - 1 := by simpa using hy
    omega
  · simpa [hyx] using hy

theorem expire (hc : s.clients x = 0) (hr : ∀ k, (s.stores k).refersTo x = false) :
    (s.expire x).Sound tier := by
  have hlive : ∀ {y}, y ≠ x → (s.expire x).live y = s.live y := fun hy => update_of_ne hy _ _
  refine { hs with client := fun y hy => ?_, used := fun y k hy => ?_, entry := fun y hy => ?_ }
  · have hyx : y ≠ x := by
      rintro rfl
      have hy : 0 < s.clients y := hy
      omega
    exact (hlive hyx).trans (hs.client y hy)
  · have hyx : y ≠ x := by
      rintro rfl
      have hy : 0 < (s.stores k).due y := hy
      have := World.due_eq_zero (hr k)
      omega
    exact (hlive hyx).trans (hs.used y k hy)
  · have hyx : y ≠ x := by
      rintro rfl
      simp [System.expire] at hy
    exact hs.entry y ((hlive hyx).symm.trans hy)

theorem removeEntry (hx : s.live x = false) : (s.removeEntry x).Sound tier := by
  unfold System.removeEntry
  split_ifs with hreg
  · refine { hs with entry := fun y hy => ?_, named := fun h' y hy => ?_ }
    · have hy : s.live y = true := hy
      obtain ⟨hent, hlt⟩ := hs.entry y hy
      refine ⟨?_, hlt⟩
      have hne : y.seqHash ≠ x.seqHash := by
        intro hh
        rw [hh, hreg] at hent
        cases hent
        rw [hx] at hy
        cases hy
      exact (update_of_ne hne _ _).trans hent
    · have hy : update s.registry x.seqHash none h' = some y := hy
      rw [update_apply] at hy
      split_ifs at hy
      exact hs.named h' y hy
  · exact hs

/-! ### Steps of a store -/

variable [DecidableEq κ] {k : κ} {w : World ι} {op : Op}

theorem change {marks : BlockRegistrationHandle → PresenceMarkers τ} (hok : w.Ok)
    (ht : w.store.Tidy []) (hn : w.marking.Nodup) (hwf : ∀ y, (marks y).Wf)
    (hbooks : ∀ y t, (marks y).count t +
        (if tier k = t then w.pending y + (s.stores k).due y else 0) =
      (s.markers y).count t + if tier k = t then w.due y + (s.stores k).pending y else 0)
    (hused : ∀ y, 0 < w.due y → s.live y = true) :
    ({ s with markers := marks }.setStore k w).Sound tier := by
  refine ⟨forall_setStore hok hs.ok, forall_setStore (P := fun w => w.store.Tidy []) ht hs.tidy,
    forall_setStore (P := fun w => w.marking.Nodup) hn hs.nodup, hwf, fun y t => ?_, hs.client,
    fun y => ?_, hs.entry, hs.named⟩
  · have hold := hs.books y t
    have hnew := hbooks y t
    have hpend := total_setStore (s := s) (k := k) (w := w) (f := (·.pending y)) tier t
    have hdue := total_setStore (s := s) (k := k) (w := w) (f := (·.due y)) tier t
    show (marks y).count t + (s.setStore k w).total tier (·.pending y) t =
      (s.setStore k w).total tier (·.due y) t
    split_ifs at hnew hpend hdue <;> omega
  · apply forall_setStore (P := fun w => 0 < w.due y → s.live y = true)
    · exact hused y
    · exact hs.used y

theorem moves (hm : World.MovesOf (fun x => x ∈ op.handles) (s.stores k) w) (ht : w.store.Tidy [])
    (hen : ∀ x ∈ op.handles, 0 < s.clients x) : (s.setStore k w).Sound tier := by
  have hbal := hm.balances (hs.ok k)
  refine hs.change (hm.ok (hs.ok k)) ht (hbal.nodup (hs.nodup k)) hs.markers (fun y t => ?_)
    fun y hy => ?_
  · have := hbal.books y
    split_ifs <;> omega
  · by_cases hx : y ∈ op.handles
    · exact hs.client y (hen y hx)
    have hb := hbal.books y
    rw [hbal.only y hx] at hb
    exact hs.used y k (by omega)

variable {x : BlockRegistrationHandle}

omit [DecidableEq κ] in
theorem count_pos (hx : x ∈ (s.stores k).absents) : 0 < (s.markers x).count (tier k) := by
  have hbooks := hs.books x (tier k)
  have hk : (s.stores k).pending x < (s.stores k).due x := by
    have := hs.pending_le x k
    have := count_pos_iff.mpr hx
    unfold World.due
    omega
  have hlt : s.total tier (·.pending x) (tier k) < s.total tier (·.due x) (tier k) :=
    sum_lt_sum (fun j _ => (hs.pending_le x j).trans World.regCount_le_due)
      ⟨k, mem_filter.mpr ⟨mem_univ k, rfl⟩, hk⟩
  omega

/-- The markers of one registration change with what a store owes to it. -/
theorem mark {m : PresenceMarkers τ} {p d : Nat} (hok : w.Ok) (ht : w.store.Tidy [])
    (hn : w.marking.Nodup) (hwf : m.Wf)
    (hpend : ∀ y, (s.stores k).pending y = w.pending y + if x = y then p else 0)
    (hdue : ∀ y, (s.stores k).due y = w.due y + if x = y then d else 0)
    (hcount : ∀ t, m.count t + (if t = tier k then d else 0) =
      (s.markers x).count t + if t = tier k then p else 0) :
    ({ s with markers := update s.markers x m }.setStore k w).Sound tier := by
  refine hs.change hok ht hn ((forall_update_iff _ fun _ => PresenceMarkers.Wf).mpr
    ⟨hwf, fun y _ => hs.markers y⟩) (fun y t => ?_) fun y hy => hs.used y k ?_
  · have hc := hcount t
    rw [update_apply, hpend, hdue]
    by_cases hy : y = x
    · simp only [hy, if_true, @eq_comm _ t (tier k)] at hc ⊢
      split_ifs at hc ⊢ <;> omega
    · rw [if_neg hy, if_neg (Ne.symm hy), if_neg (Ne.symm hy)]
      split_ifs <;> omega
  · rw [hdue]
    omega

theorem store (hen : ∀ x ∈ op.handles, 0 < s.clients x) (hst : (s.stores k).step op = some w) :
    ((s.mark tier k op).setStore k w).Sound tier := by
  obtain ⟨evs, hexec, heff⟩ := World.step_effect (hs.ok k) (hs.tidy k) hst
  have hok := heff.ok (hs.ok k) (hs.tidy k)
  have ht := heff.tidy (hs.tidy k)
  have hcan : (s.stores k).enabled op = true := by
    unfold World.step at hst
    split_ifs at hst with hcan
    exact hcan
  cases op with
  | markPresent i =>
    have hi : i ∈ (s.stores k).marking := by simpa [World.enabled] using hcan
    cases hexec
    obtain ⟨hwf, hcount⟩ := increment_spec (hs.markers ((s.stores k).inners i).handle)
    exact hs.mark (d := 0) hok ht ((hs.nodup k).erase i) hwf (World.pending_erase hi)
      (fun _ => (ite_self 0).symm ▸ rfl) fun t => by rw [hcount, ite_self, Nat.add_zero]
  | markAbsent x =>
    have hx : x ∈ (s.stores k).absents := by simpa [World.enabled] using hcan
    cases hexec
    obtain ⟨-, hwf, hcount⟩ := decrement_spec (hs.markers x) (hs.count_pos hx)
    exact hs.mark (p := 0) hok ht (hs.nodup k) hwf (fun _ => (ite_self 0).symm ▸ rfl)
      (World.due_erase hx) fun t => by rw [hcount, ite_self, Nat.add_zero]
  | _ =>
    rcases heff.moves (hs.tidy k) with hm | ⟨i, hop, -, -⟩ | ⟨x, hop, -, -⟩
    · exact hs.moves hm ht hen
    · cases hop
    · cases hop

omit [DecidableEq κ] in
/-- Once every mark has been made, the count is the number of slots. -/
theorem presence_eq (hidle : ∀ k, (s.stores k).marking = [] ∧ (s.stores k).absents = [])
    (h : SequenceHash) (t : τ) : s.presence h t = s.total tier (·.store.slotsUnder h) t := by
  have hup : ∀ k y, 0 < (s.stores k).due y → y.seqHash = h → s.upgrade h = some y := by
    rintro k y hy rfl
    exact hs.upgrade_of_live (hs.used y k hy)
  unfold presence
  cases hu : s.upgrade h with
  | some x =>
    obtain ⟨-, rfl⟩ := hs.upgrade_eq hu
    have hslots : ∀ k, (s.stores k).due x = (s.stores k).store.slotsUnder x.seqHash := by
      intro k
      rw [(hs.ok k).slotsUnder_eq, World.due, (hidle k).2, count_nil, Nat.add_zero]
      intro y hy hh
      exact some.inj ((hup k y hy hh).symm.trans hu)
    have hpend : s.total tier (·.pending x) t = 0 := by
      refine total_eq_zero fun k => ?_
      rw [World.pending, (hidle k).1, countP_nil]
    have hbooks := hs.books x t
    rw [hpend, Nat.add_zero] at hbooks
    exact hbooks.trans (sum_congr rfl fun k _ => hslots k)
  | none =>
    have hdue : ∀ k y, 0 < (s.stores k).due y → y.seqHash ≠ h := by
      intro k y hy hh
      cases hu.symm.trans (hup k y hy hh)
    refine (total_eq_zero fun k => ?_).symm
    rw [(hs.ok k).slotsUnder_eq (x := ⟨0, h⟩) fun y hy hh => absurd hh (hdue k y hy)]
    exact Nat.le_zero.mp (World.regCount_le_due.trans (Nat.not_lt.mp fun hpos => hdue k _ hpos rfl))

/-- **Every step keeps the system sound.** -/
theorem step {op : SystemOp κ} (hst : s.step tier op = some s') : s'.Sound tier := by
  unfold System.step at hst
  split_ifs at hst with hen
  cases op with
  | registerSequenceHash h => exact some.inj hst ▸ hs.registerSequenceHash h
  | matchSequenceHash h => exact some.inj hst ▸ hs.matchSequenceHash h
  | cloneHandle x =>
    exact some.inj hst ▸ hs.addClient (hs.client x (by simpa [System.enabled] using hen))
  | dropHandle x => exact some.inj hst ▸ hs.dropHandle
  | expire =>
    simp only [System.enabled, decide_eq_true_eq, Bool.not_eq_true'] at hen
    exact some.inj hst ▸ hs.expire hen.2.1 hen.2.2
  | removeEntry =>
    exact some.inj hst ▸ hs.removeEntry (by simpa [System.enabled] using hen)
  | store =>
    obtain ⟨w, hw, rfl⟩ := map_eq_some_iff.mp hst
    exact hs.store (by simpa [System.enabled] using hen) hw

end Sound

/-! ### Every run -/

variable {C : Type} [LruCache C] [DecidableEq κ] {s : System κ τ (Backend C)}

omit [DecidableEq κ] in
theorem Initial.sound (hi : s.Initial) (tier : κ → τ) : s.Sound tier := by
  obtain ⟨hstores, hreg, hlive, hclients, hmarkers⟩ := hi
  have hnew : ∀ k x, (s.stores k).marking = [] ∧ (s.stores k).due x = 0 := by
    intro k x
    obtain ⟨config, id, n, m, ix, v, -, hk⟩ := hstores k
    rw [hk]
    refine ⟨rfl, World.due_eq_zero ?_⟩
    simp [World.refersTo, World.new, BlockStore.new, BlockStore.state, BlockStore.freshSlot,
      SlotState.handle]
  refine ⟨fun k => (hstores k).sound.1, fun k => (hstores k).sound.2, fun k => ?_, fun x => ?_,
    fun x t => ?_, fun x hx => ?_, fun x k hx => ?_, fun x hx => ?_, fun h x hx => ?_⟩
  · rw [(hnew k ⟨0, default⟩).1]
    exact nodup_nil
  · rw [hmarkers]
    exact empty_wf
  · rw [hmarkers, count_empty]
    refine (congrArg (0 + ·) (total_eq_zero fun k => ?_)).trans
      (total_eq_zero fun k => (hnew k x).2).symm
    rw [World.pending, (hnew k x).1, countP_nil]
  · rw [hclients] at hx
    exact absurd hx (Nat.lt_irrefl 0)
  · rw [(hnew k x).2] at hx
    exact absurd hx (Nat.lt_irrefl 0)
  · rw [hlive] at hx
    cases hx
  · rw [hreg] at hx
    cases hx

/-- A system that a program can get to. -/
abbrev Reached (tier : κ → τ) (s : System κ τ (Backend C)) : Prop :=
  Reachable System.Initial (System.step tier) s

theorem Reached.sound (hs : s.Reached tier) : s.Sound tier :=
  hs.invariant (fun _ hi => hi.sound tier) fun _ _ _ hs hst => hs.step hst

/-- **The presence count is an exact shadow of the slots.**  A handle that is to be marked absent
has a marker, and when no mark is left to be made the count of a hash for a tier is the
number of slots of that tier under that hash. -/
theorem Reached.presence_exact {s : System κ τ (Backend C)} (hs : s.Reached tier) :
    (∀ k x, x ∈ (s.stores k).absents → ((s.markers x).decrement (tier k)).1 = true) ∧
      ((∀ k, (s.stores k).marking = [] ∧ (s.stores k).absents = []) → ∀ h t,
        s.presence h t = ∑ k with tier k = t, (s.stores k).store.slotsUnder h) := by
  have hsound := hs.sound
  constructor
  · intro k x hx
    exact (decrement_spec (hsound.markers x) (hsound.count_pos hx)).1
  · exact hsound.presence_eq

end System

/-! ### A run -/

namespace Sample

/-- Two stores, of two tiers, over one registry. -/
def twoTiers : System Bool Bool (Backend ListCache) where
  stores := fun _ => lineage 2
  registry := fun _ => none
  live := fun _ => false
  clients := fun _ => 0
  nextHandle := 0
  markers := fun _ => .empty

theorem twoTiers_reached : twoTiers.Reached id :=
  .init ⟨fun _ => ⟨.lineage .tick, 0, 2, 2, _, false, rfl, rfl⟩, rfl, rfl, rfl, rfl⟩

/-- One hash is registered in both tiers, and evicted from one of them. -/
def shareHash : List (SystemOp Bool) :=
  [.registerSequenceHash (hash 7), .store false (.allocateResetBlocks 1),
    .store false (.stage 0 (hash 7)), .store false (.registerBlocks .allow [(0, ⟨0, hash 7⟩)]),
    .store true (.allocateResetBlocks 1), .store true (.stage 0 (hash 7)),
    .store true (.registerBlocks .allow [(0, ⟨0, hash 7⟩)]), .store false (.markPresent 0),
    .store true (.markPresent 0), .store false (.drop 0), .store false (.release 0),
    .store false .drainInactive]

end Sample

theorem System.Reached.presence_exact_shareHash :
    ∃ s, runList (System.step id) Sample.twoTiers Sample.shareHash = some s ∧
      (s.stores false).absents = [⟨0, Sample.hash 7⟩] ∧
      ((s.markers ⟨0, Sample.hash 7⟩).decrement false).1 = true := by
  refine exists_of_map (f := fun s => (s.stores false).absents) (by decide) fun s hs habs =>
    ⟨habs, ?_⟩
  have hreach := Sample.twoTiers_reached.runList hs
  exact (System.Reached.presence_exact hreach).1 false _ (by simp [habs])

end Kvbm
