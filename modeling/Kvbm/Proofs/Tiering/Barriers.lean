/-
What the records and the barriers of the engine rely on.

A clone of a barrier is held by a record, by a terminal that has taken it from its record, or
by the call that hangs it on the records.  The number of clones is the number of holders,
so the barrier goes when the last of them lets go.
-/
import Kvbm.Lib.Run
import Kvbm.Tiering.Engine

namespace Kvbm.Tiering

open Lib List Option Tiering.Action ActionRecord

/-! ### Holders of a clone -/

/-- The barrier that a call of a kind hangs on a record. -/
def ActionRecord.clone (r : ActionRecord) : CallKind → Option BarrierId
  | .evict => r.fence
  | .commit => r.drain

def Action.hung (x : Action) (k : CallKind) : Option BarrierId := x.record.bind (·.clone k)

def ActionRecord.clones (b : BarrierId) (r : ActionRecord) : Nat :=
  (if r.fence = some b then 1 else 0) + if r.drain = some b then 1 else 0

def Driver.clones (b : BarrierId) : Driver → Nat
  | .settled rest => rest.count (.dropClone b)
  | _ => 0

def Action.clones (b : BarrierId) (x : Action) : Nat :=
  x.record.elim 0 (·.clones b) + x.driver.clones b

def Call.clones (b : BarrierId) (x : Call) : Nat :=
  if x.returned = none ∧ x.barrier = some b then 1 else 0

def Engine.holders (s : Engine) (b : BarrierId) : Nat :=
  tally (Action.clones b) s.actions + tally (Call.clones b) s.calls

variable {r : ActionRecord} {b : BarrierId}

theorem ActionRecord.count_dropClones : r.dropClones.count (.dropClone b) = r.clones b := by
  unfold dropClones clones
  cases r.fence <;> cases r.drain <;> simp [count_cons, Nat.add_comm]

theorem ActionRecord.count_removeNow : r.removeNow.count (.dropClone b) = 0 := by
  unfold removeNow
  split <;> rfl

theorem ActionRecord.clones_pos : 0 < r.clones b ↔ ∃ k, r.clone k = some b := by
  unfold clones
  constructor
  · intro h
    by_cases hf : r.fence = some b
    · exact ⟨.evict, hf⟩
    refine ⟨.commit, ?_⟩
    by_contra hd
    rw [if_neg hf, if_neg (show r.drain ≠ some b from hd)] at h
    exact absurd h (by decide)
  · rintro ⟨k, hk⟩
    cases k with
    | evict => rw [if_pos (show r.fence = some b from hk)]; omega
    | commit => rw [if_pos (show r.drain = some b from hk)]; omega

theorem ActionRecord.clones_eq_zero (h : ∀ k, r.clone k = none) : r.clones b = 0 := by
  by_contra hc
  obtain ⟨k, hk⟩ := clones_pos.mp (Nat.pos_of_ne_zero hc)
  rw [h k] at hk
  cases hk

def ActionRecord.hang (r : ActionRecord) (k : CallKind) (b : BarrierId) : ActionRecord :=
  match k with
  | .evict => { r with fence := some b }
  | .commit => { r with drain := some b }

theorem ActionRecord.clones_hang {k : CallKind} (h : r.clone k = none) (b' : BarrierId) :
    (r.hang k b).clones b' = r.clones b' + if b' = b then 1 else 0 := by
  have hb : (some b = some b') ↔ b' = b := by
    rw [some.injEq]
    exact eq_comm
  unfold clones
  cases k with
  | evict =>
    have hf : r.fence = none := h
    show (if some b = some b' then 1 else 0) + (if r.drain = some b' then 1 else 0) = _
    rw [hf, if_congr hb rfl rfl, if_neg (c := none = some b') nofun]
    omega
  | commit =>
    have hd : r.drain = none := h
    show (if r.fence = some b' then 1 else 0) + (if some b = some b' then 1 else 0) = _
    rw [hd, if_congr hb rfl rfl, if_neg (c := none = some b') nofun]
    omega

/-! ### One action -/

/-- What a record says, by where the driver is. -/
def Action.RecordOk (x : Action) (r : ActionRecord) : Prop :=
  match x.driver with
  | .running =>
    r.kind = (if x.work = .save then .save .pending else .load .pending) ∧
      r.physicalPending = decide (x.work = .bundle)
  | .draining => r.physicalPending = true ∧ ∃ t, r.kind = .load t ∧ t ≠ .pending
  | .settled _ =>
    r.fence = none ∧ r.drain = none ∧ r.physicalPending = false ∧
      (r.kind = .load .settled ∨ r.kind = .save .settled)

/-- The rest of the drop of a handle. -/
inductive Action.HandleOk (x : Action) : List Effect → Prop
  /-- The record is going to be removed, so nothing may be hung on it. -/
  | removing : (∀ k, x.hung k = none) → (x.undrained = true → x.work = .load) →
      HandleOk x [.removeActionRecord, .freeCell]
  | untracking : x.record = none → HandleOk x [.untrackAction, .freeCell]
  | freeing : HandleOk x [.freeCell]
  | gone : HandleOk x []

structure Action.Ok (x : Action) : Prop where
  record : ∀ r, x.record = some r → x.RecordOk r
  /-- Only a load without a physical drain loses its record before its terminal. -/
  lost : x.undrained = true → x.record = none → x.work = .load ∧ x.handle ≠ .held
  draining : x.driver = .draining → x.work = .bundle
  pending : x.driver = .running → x.status = .pending
  written : x.driver ≠ .running → x.record ≠ none → x.cell ≠ some .pending
  handle : ∀ rest, x.handle = .released rest → x.HandleOk rest

namespace Action

variable {x : Action} {r : ActionRecord} {k : CallKind}

/-- The rest of a drop goes on, whatever becomes of the record and the driver. -/
theorem HandleOk.imp {y : Action} {rest : List Effect} (h : x.HandleOk rest)
    (hf : (∀ k, x.hung k = none) → ∀ k, y.hung k = none)
    (hl : (x.undrained = true → x.work = .load) → y.undrained = true → y.work = .load)
    (hn : x.record = none → y.record = none) : y.HandleOk rest := by
  cases h with
  | removing hfree hload => exact .removing (hf hfree) (hl hload)
  | untracking hnone => exact .untracking (hn hnone)
  | freeing => exact .freeing
  | gone => exact .gone

theorem hung_or_taken (h : x.clones b ≠ 0) : (∃ k, x.hung k = some b) ∨ 0 < x.driver.clones b := by
  unfold hung
  cases hr : x.record with
  | none =>
    rw [clones, hr, elim_none, Nat.zero_add] at h
    exact .inr (Nat.pos_of_ne_zero h)
  | some r =>
    rw [clones, hr, elim_some] at h
    exact (Nat.eq_zero_or_pos (r.clones b)).symm.imp clones_pos.mp fun hz => by omega

theorem clones_ne_zero (h : x.hung k = some b) : x.clones b ≠ 0 := by
  obtain ⟨r, hr, hk⟩ := bind_eq_some_iff.mp h
  have := clones_pos.mpr ⟨k, hk⟩
  rw [clones, hr, elim_some]
  omega

theorem clones_of_unhung (h : ∀ k, x.hung k = none) : x.clones b = x.driver.clones b := by
  unfold hung at h
  rw [clones]
  cases hr : x.record with
  | none => exact Nat.zero_add _
  | some =>
    rw [hr] at h
    rw [elim_some, clones_eq_zero h, Nat.zero_add]

theorem cell_ne_pending (h : x.cellAlive = true → x.status ≠ .pending) :
    x.cell ≠ some .pending := by
  intro hc
  unfold cell at hc
  split at hc
  · rename_i halive
    exact h halive (some.inj hc)
  · cases hc

theorem undrained_iff : x.undrained = true ↔ x.driver = .running ∨ x.driver = .draining := by
  unfold undrained
  cases x.driver <;> simp

theorem drained_iff : x.undrained = false ↔ ∃ rest, x.driver = .settled rest := by
  unfold undrained
  cases x.driver <;> simp

theorem RecordOk.running (h : x.RecordOk r)
    (hk : r.kind = .load .pending ∨ r.kind = .save .pending) : x.driver = .running := by
  unfold RecordOk at h
  cases hd : x.driver with
  | running => rfl
  | draining =>
    rw [hd] at h
    obtain ⟨-, t, ht, htp⟩ := h
    rcases hk with hk | hk <;> cases hk.symm.trans ht
    exact absurd rfl htp
  | settled =>
    rw [hd] at h
    rcases hk with hk | hk <;> simp [hk] at h

/-- The last terminal leaves nothing on the record. -/
theorem Ok.unhung {rest : List Effect} (h : x.Ok) (hd : x.driver = .settled rest) (k : CallKind) :
    x.hung k = none := by
  rw [hung]
  cases hr : x.record with
  | none => rfl
  | some r =>
    have := h.record r hr
    unfold RecordOk at this
    rw [hd] at this
    cases k with
    | evict => exact this.1
    | commit => exact this.2.1

/-- An action that has drained has no work left that a barrier would wait for. -/
theorem Ok.not_pending (h : x.Ok) (hr : x.record = some r) (hx : x.undrained = false) :
    r.hasPendingWork x.cell = false := by
  have hrec := h.record r hr
  obtain ⟨rest, hd⟩ := drained_iff.mp hx
  have hcell := h.written (by rw [hd]; nofun) (by rw [hr]; nofun)
  unfold RecordOk at hrec
  rw [hd] at hrec
  obtain ⟨-, -, hp, hk⟩ := hrec
  rcases hk with hk | hk <;> simp [hasPendingWork, hasPendingPhysicalWork, hcell, hp, hk]

/-- An action that has not drained is pending, if it drains physically or its handle is held. -/
theorem Ok.isPending (h : x.Ok) (hr : x.record = some r) (hx : x.undrained = true)
    (hh : x.work = .load → x.handle = .held) : r.hasPendingWork x.cell = true := by
  have hrec := h.record r hr
  unfold hasPendingWork hasPendingPhysicalWork
  unfold RecordOk at hrec
  rcases undrained_iff.mp hx with hd | hd
  · rw [hd] at hrec
    obtain ⟨hk, hp⟩ := hrec
    cases hw : x.work with
    | load =>
      have hc : x.cell = some .pending := by
        rw [cell, cellAlive, hh hw, h.pending hd]
        rfl
      simp [hc]
    | bundle => simp [hp, hw]
    | save => simp [hk, hw]
  · rw [hd] at hrec
    simp [hrec.1]

/-- Its record is gone before its terminal. -/
def Loose (x : Action) : Prop := x.work = .load ∧ x.handle ≠ .held ∧ x.record = none

/-- What a step on one action keeps, as far as the barriers can see; it lets go of `dropped b`
clones of a barrier `b`. -/
structure MovesBut (dropped : BarrierId → Nat) (x y : Action) : Prop where
  ok : y.Ok
  request : y.requestId = x.requestId
  clones : ∀ b, y.clones b + dropped b = x.clones b
  hung : y.hung = x.hung ∨ ∀ k, y.hung k = none
  undrained : y.undrained = true → x.undrained = true
  kept : y.undrained = true → y.hung = x.hung
  loose : y.undrained = true → x.Loose → y.Loose

/-- A step that lets go of no clone. -/
abbrev Moves (x y : Action) : Prop := MovesBut (fun _ => 0) x y

theorem clones_undrained (hx : x.undrained = true) : x.driver.clones b = 0 := by
  rcases undrained_iff.mp hx with hd | hd <;> rw [hd] <;> rfl

/-- Before its last terminal, only the record of an action holds clones. -/
theorem clones_of_undrained (hx : x.undrained = true) (hr : x.record = some r) :
    x.clones b = r.clones b := by
  rw [clones, hr, clones_undrained hx]
  rfl

theorem clones_of_lost (hx : x.undrained = true) (hr : x.record = none) : x.clones b = 0 := by
  rw [clones, hr, clones_undrained hx]
  rfl

theorem writeCell_eq (o : ActionStatus) :
    x.writeCell o = { x with status := if x.cellAlive then o else x.status } := by
  unfold writeCell
  split <;> rfl

theorem written_ne_pending {o : ActionStatus} (ho : o ≠ .pending) (halive : x.cellAlive = true) :
    (if x.cellAlive then o else x.status) ≠ .pending := by
  rw [if_pos halive]
  exact ho

variable {rest : List Effect} {st : ActionStatus} {b : BarrierId} {rest rest' : List Effect}
  (h : x.Ok)

include h

/-- The last terminal takes the clones off the record. -/
theorem Ok.last (hr : x.record = some r) (hx : x.undrained = true)
    (hst : x.cellAlive = true → st ≠ .pending) {r' : ActionRecord} (hfree : ∀ k, r'.clone k = none)
    (hp : r'.physicalPending = false) (hk : r'.kind = .load .settled ∨ r'.kind = .save .settled)
    (hrest : ∀ b, rest.count (.dropClone b) = r.clones b) :
    x.Moves { x with status := st, record := some r', driver := .settled rest } := by
  refine ⟨⟨?_, nofun, nofun, nofun, fun _ _ => cell_ne_pending hst, ?_⟩, rfl, ?_, .inr hfree, nofun,
    nofun, nofun⟩
  · intro r'' hr''
    cases hr''
    exact ⟨hfree .evict, hfree .commit, hp, hk⟩
  · refine fun rest' hh => (h.handle rest' hh).imp (fun _ => hfree) (fun _ => nofun) fun hn => ?_
    rw [hr] at hn
    cases hn
  · intro b
    rw [clones_of_undrained hx hr, ← hrest b]
    simp only [clones, elim_some, Driver.clones, clones_eq_zero hfree, Nat.zero_add, Nat.add_zero]

theorem Ok.lastLost (hr : x.record = none) (hx : x.undrained = true)
    (hrest : ∀ b, rest.count (.dropClone b) = 0) : x.Moves { x with driver := .settled rest } := by
  refine ⟨⟨?_, nofun, nofun, nofun, ?_, ?_⟩, rfl, ?_, .inl rfl, nofun, nofun, nofun⟩
  · intro r hr'
    rw [show x.record = some r from hr'] at hr
    cases hr
  · intro _ hn
    exact absurd hr hn
  · exact fun rest' hh => (h.handle rest' hh).imp id (fun _ => nofun) id
  · intro b
    rw [clones_of_lost hx hr]
    simp only [clones, hr, elim_none, Driver.clones, hrest b]

/-- The logical terminal of a load that drains physically. -/
theorem Ok.logical (hr : x.record = some r) (hd : x.driver = .running) (hw : x.work = .bundle)
    (hp : r.physicalPending = true) (hst : x.cellAlive = true → st ≠ .pending)
    {t : LoadTerminalState} (ht : t ≠ .pending) :
    x.Moves
      { x with status := st, record := some { r with kind := .load t }, driver := .draining } := by
  have hx : x.undrained = true := undrained_iff.mpr (.inl hd)
  have hhung : ActionRecord.clone { r with kind := .load t } = x.hung := by
    funext k
    rw [hung, hr]
    cases k <;> rfl
  refine ⟨⟨?_, nofun, fun _ => hw, nofun, fun _ _ => cell_ne_pending hst, ?_⟩, rfl, ?_,
    .inl hhung, fun _ => hx, fun _ => hhung, ?_⟩
  · intro r' hr'
    cases hr'
    exact ⟨hp, t, rfl, ht⟩
  · intro rest hh
    cases h.handle rest hh with
    | removing _ hl =>
      rw [hl hx] at hw
      cases hw
    | untracking hn =>
      rw [hr] at hn
      cases hn
    | freeing => exact .freeing
    | gone => exact .gone
  · intro b
    rw [clones_of_undrained hx hr]
    rfl
  · intro _ hl
    have := hl.2.2
    rw [hr] at this
    cases this

theorem Ok.hang (hr : x.record = some r) (hx : x.undrained = true)
    (hh : x.work = .load → x.handle = .held) : Ok { x with record := some (r.hang k b) } := by
  refine ⟨?_, nofun, h.draining, h.pending, ?_, ?_⟩
  · intro r' hr'
    cases hr'
    have := h.record r hr
    unfold RecordOk at this ⊢
    rcases undrained_iff.mp hx with hd | hd <;> rw [hd] at this ⊢ <;> cases k <;> exact this
  · intro hd _
    exact h.written hd (by rw [hr]; nofun)
  · intro rest hrest
    cases h.handle rest hrest with
    | removing _ hl =>
      rw [hh (hl hx)] at hrest
      cases hrest
    | untracking hn =>
      rw [hr] at hn
      cases hn
    | freeing => exact .freeing
    | gone => exact .gone

/-! ### The drop of a handle -/

theorem Ok.retain (hr : x.record = some r) (hh : x.handle = .held) :
    x.Moves
      { x with
        record := some { r with droppedByHandle := true }, handle := .released [.freeCell] } := by
  have hhung : ActionRecord.clone { r with droppedByHandle := true } = x.hung := by
    funext k
    rw [hung, hr]
    cases k <;> rfl
  refine ⟨⟨?_, nofun, h.draining, h.pending, ?_, ?_⟩, rfl, ?_, .inl hhung, id, fun _ => hhung, ?_⟩
  · intro r' hr'
    cases hr'
    exact h.record r hr
  · intro hd _
    have := h.written hd (by rw [hr]; nofun)
    rw [cell, cellAlive, hh] at this
    exact this
  · intro rest hrest
    cases hrest
    exact .freeing
  · intro b
    simp only [clones, hr]
    rfl
  · rintro - ⟨-, hc, -⟩
    exact absurd hh hc

/-- A handle whose drop has gone on, with the record as it is. -/
theorem Ok.setHandle (hrest : x.HandleOk rest) (halive : .freeCell ∈ rest → x.cellAlive = true) :
    x.Moves { x with handle := .released rest } := by
  refine ⟨⟨h.record, ?_, h.draining, h.pending, ?_, ?_⟩, rfl, fun _ => rfl, .inl rfl, id,
    fun _ => rfl, ?_⟩
  · intro hx hr
    exact ⟨(h.lost hx hr).1, nofun⟩
  · intro hd hr hc
    refine h.written hd hr ?_
    unfold cell at hc ⊢
    split at hc
    · rename_i hal
      rw [if_pos (halive (of_decide_eq_true hal))]
      exact hc
    · cases hc
  · intro rest' hr'
    cases hr'
    exact hrest.imp id id id
  · rintro - ⟨hw, -, hr⟩
    exact ⟨hw, nofun, hr⟩

/-- A record that must not be kept holds no clone, and its work is a load that ends with it. -/
theorem Ok.release (hh : x.handle = .held)
    (hr : ∀ r, x.record = some r → r.mustRetainAfterHandleDrop x.cell = false) :
    x.HandleOk [.removeActionRecord, .freeCell] := by
  refine .removing ?_ ?_
  · intro k
    rw [hung]
    cases hrec : x.record with
    | none => rfl
    | some r =>
      have := hr r hrec
      simp only [mustRetainAfterHandleDrop, Bool.or_eq_false_iff,
        isSome_eq_false_iff, isNone_iff_eq_none] at this
      cases k with
      | evict => exact this.1.1.1
      | commit => exact this.1.1.2
  · intro hx
    cases hrec : x.record with
    | none => exact absurd hh (h.lost hx hrec).2
    | some r =>
      have := hr r hrec
      simp only [mustRetainAfterHandleDrop, Bool.or_eq_false_iff,
        hasPendingPhysicalWork, decide_eq_false_iff_not] at this
      obtain ⟨⟨-, hp, hs⟩, -⟩ := this
      have hok := h.record r hrec
      unfold RecordOk at hok
      rcases undrained_iff.mp hx with hd | hd
      · rw [hd] at hok
        obtain ⟨hk, hph⟩ := hok
        rw [hp] at hph
        cases hw : x.work with
        | load => rfl
        | bundle => simp [hw] at hph
        | save => simp [hw, hs] at hk
      · rw [hd] at hok
        rw [hp] at hok
        cases hok.1

theorem Ok.remove (hh : x.handle = .released [.removeActionRecord, .freeCell]) :
    x.Moves { x with record := none, handle := .released [.untrackAction, .freeCell] } := by
  cases h.handle _ hh with
  | removing hf hl =>
    refine ⟨⟨nofun, ?_, h.draining, h.pending, ?_, ?_⟩, rfl, fun b => ?_, .inr fun _ => rfl, id,
      fun _ => (funext hf).symm, ?_⟩
    · intro hx _
      exact ⟨hl hx, nofun⟩
    · intro _ hc
      exact absurd rfl hc
    · intro rest hrest
      cases hrest
      exact .untracking rfl
    · rw [clones_of_unhung hf]
      exact Nat.zero_add _
    · rintro - ⟨hw, -, -⟩
      exact ⟨hw, nofun, rfl⟩

/-! ### The rest of a terminal -/

theorem Ok.advance (hd : x.driver = .settled rest) : Ok { x with driver := .settled rest' } := by
  refine ⟨?_, nofun, nofun, nofun, ?_, ?_⟩
  · intro r hr
    have := h.record r hr
    unfold RecordOk at this ⊢
    rw [hd] at this
    exact this
  · intro _ hr
    exact h.written (by rw [hd]; nofun) hr
  · exact fun rest hh => (h.handle rest hh).imp id (fun _ => nofun) id

theorem Ok.advance_moves (hd : x.driver = .settled rest)
    (hc : ∀ b, rest'.count (.dropClone b) = rest.count (.dropClone b)) :
    x.Moves { x with driver := .settled rest' } := by
  refine ⟨h.advance hd, rfl, fun b => ?_, .inl rfl, nofun, nofun, nofun⟩
  simp only [clones, hd, Driver.clones, hc b, Nat.add_zero]

theorem Ok.advance_drop (hd : x.driver = .settled (.dropClone b :: rest)) :
    x.MovesBut (fun b' => if b' = b then 1 else 0) { x with driver := .settled rest } := by
  refine ⟨h.advance hd, rfl, fun b' => ?_, .inl rfl, nofun, nofun, nofun⟩
  simp only [clones, hd, Driver.clones, count_cons]
  by_cases hb : b' = b
  · subst hb
    simp only [if_pos, beq_self_eq_true]
    omega
  · have : ¬ (Effect.dropClone b == Effect.dropClone b') = true := by
      simpa using Ne.symm hb
    rw [if_neg hb, if_neg this]
    omega

/-- The record is removed by the terminal that came last. -/
theorem Ok.drop (hd : x.driver = .settled rest)
    (hc : ∀ b, rest'.count (.dropClone b) = rest.count (.dropClone b)) :
    x.Moves { x with record := none, driver := .settled rest' } := by
  refine ⟨⟨nofun, nofun, nofun, nofun, ?_, ?_⟩, rfl, ?_, .inr fun _ => rfl, nofun, nofun, nofun⟩
  · intro _ hn
    exact absurd rfl hn
  · exact fun rest hh => (h.handle rest hh).imp (fun _ _ => rfl) (fun _ => nofun) fun _ => rfl
  · intro b
    rw [clones_of_unhung (h.unhung hd), hd]
    simp only [clones, Driver.clones, hc b, elim_none, Nat.zero_add, Nat.add_zero]

end Action

end Kvbm.Tiering
