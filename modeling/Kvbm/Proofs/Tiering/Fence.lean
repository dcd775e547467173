/-
An eviction fence and a request drain do not fire early.

The barrier of a call is there as long as an action that the call found undrained has not
drained, so the workers have not been told.  It goes with the last of them, once.
-/
import Kvbm.Proofs.Tiering.Calls

namespace Kvbm.Tiering

open Lib List Option

namespace Engine

variable {s s' : Engine} {a : ActionId} {x : Action} {call : Call} {b : BarrierId} {e : Signal}

/-- What the call has the workers told: its tokens, or that the request is saved. -/
def signals (s : Engine) (call : Call) : List Signal :=
  call.barrier.elim [] fun b => (s.barrierKind call b).signals b

/-- The calls that have returned, and those under way, keep their word. -/
structure Exact (s : Engine) : Prop where
  /-- Whoever a call found undrained has drained when the workers are told. -/
  waits : ∀ call ∈ s.calls, ∀ a ∈ call.found, ∃ x, s.actions[a]? = some x ∧
    s.signals call ≠ [] ∧ ∀ e ∈ s.signals call, e ∈ s.sink → x.undrained = false
  /-- So have all actions of the request, but for those that an eviction before waits for. -/
  early : ∀ call ∈ s.calls, ∀ e ∈ s.signals call, e ∈ s.sink → ∀ a x, a < call.since →
    s.actions[a]? = some x → x.requestId = call.requestId → x.undrained = true →
    call.kind = .evict ∧ a ∉ call.found ∧ s.evicted a = true
  /-- The workers are told at most once, and once when all is done. -/
  once : ∀ call ∈ s.calls, ∀ e ∈ s.signals call, s.sink.count e ≤ 1 ∧
    (call.returned ≠ none → (∀ a ∈ call.found, ∃ x, s.actions[a]? = some x ∧ x.finished = true) →
      s.sink.count e = 1)
  /-- A commit always has something to tell. -/
  commits : ∀ call ∈ s.calls, call.kind = .commit → s.signals call ≠ []
  /-- An eviction returns the tokens of its fence, and not none when it found something. -/
  fence : ∀ call ∈ s.calls, call.kind = .evict → ∀ tokens, call.returned = some tokens →
    tokens.map .markFenceComplete = s.signals call ∧ (call.found ≠ [] → tokens ≠ [])
  /-- A call that has returned has come to every action that was there and has not drained. -/
  covers : ∀ call ∈ s.calls, call.returned ≠ none → ∀ a x, a < call.since →
    s.actions[a]? = some x → x.requestId = call.requestId → x.undrained = true →
    a ∈ call.found ∨ call.kind = .evict ∧ s.evicted a = true

/-! ### From the books -/

theorem signals_some (hb : call.barrier = some b) :
    s.signals call = (s.barrierKind call b).signals b := by
  rw [signals, hb]
  rfl

theorem fenceTokens_ne_nil {b n : Nat} : fenceTokens b n ≠ [] := by
  simp [fenceTokens]

theorem signals_ne_nil (hb : call.barrier = some b) : s.signals call ≠ [] := by
  rw [signals_some hb, barrierKind]
  split
  · simpa [BarrierKind.signals] using fenceTokens_ne_nil
  · exact cons_ne_nil _ _

section

variable (hi : s.Inv)

include hi

section

variable (hc : call ∈ s.calls)

include hc

theorem Inv.count_signal (he : e ∈ s.signals call) :
    ∃ b, call.barrier = some b ∧ s.sink.count e = if s.holders b = 0 then 1 else 0 := by
  cases hb : call.barrier with
  | none =>
    rw [signals, hb] at he
    cases he
  | some b =>
    obtain ⟨w, hw, hobj⟩ := (hi.calls hc).minted b hb
    refine ⟨b, rfl, hi.books.fired b w hw e ?_⟩
    rw [hobj, ← signals_some hb]
    exact he

theorem Inv.fired (he : e ∈ s.signals call) (hs : e ∈ s.sink) :
    ∃ b, call.barrier = some b ∧ s.holders b = 0 := by
  obtain ⟨b, hb, hcount⟩ := hi.count_signal hc he
  refine ⟨b, hb, ?_⟩
  by_contra hne
  rw [if_neg hne] at hcount
  exact count_eq_zero.mp hcount hs

omit hc in
omit hi in
theorem no_clones (h : s.holders b = 0) :
    (∀ x ∈ s.actions, x.clones b = 0) ∧ ∀ call ∈ s.calls, call.clones b = 0 := by
  rw [holders, Nat.add_eq_zero_iff] at h
  exact ⟨tally_eq_zero.mp h.1, tally_eq_zero.mp h.2⟩

theorem Inv.holds (ha : a ∈ call.found) (hx : s.actions[a]? = some x) (hu : x.undrained = true)
    (hb : call.barrier = some b) : s.holders b ≠ 0 := by
  intro h
  obtain ⟨b', y, hb', hy, hw⟩ := (hi.calls hc).waits a ha
  rw [hb] at hb'
  cases hb'
  rw [hx] at hy
  cases hy
  exact Action.clones_ne_zero (hw hu) ((no_clones h).1 x (mem_of_getElem? hx))

theorem Inv.waits_exact (ha : a ∈ call.found) :
    ∃ x, s.actions[a]? = some x ∧ s.signals call ≠ [] ∧
      ∀ e ∈ s.signals call, e ∈ s.sink → x.undrained = false := by
  obtain ⟨b, x, hb, hx, -⟩ := (hi.calls hc).waits a ha
  refine ⟨x, hx, signals_ne_nil hb, ?_⟩
  intro e he hs
  obtain ⟨b', hb', hz⟩ := hi.fired hc he hs
  rw [hb] at hb'
  cases hb'
  cases hu : x.undrained with
  | false => rfl
  | true => exact absurd hz (hi.holds hc ha hx hu hb)

/-- The loop of a call holds its barrier, so a signal is out only after the call. -/
theorem Inv.returned (he : e ∈ s.signals call) (hs : e ∈ s.sink) : call.returned ≠ none := by
  intro hr
  obtain ⟨b, hb, hz⟩ := hi.fired hc he hs
  have : call.clones b = 1 := if_pos ⟨hr, hb⟩
  rw [(no_clones hz).2 call hc] at this
  cases this

theorem Inv.covers_exact (hr : call.returned ≠ none) (ha : a < call.since)
    (hx : s.actions[a]? = some x) (hreq : x.requestId = call.requestId) (hu : x.undrained = true) :
    s.Awaits call a := by
  rcases (hi.calls hc).progress a x ha hx hreq hu with h | h
  · rw [((hi.calls hc).returned.resolve_left hr).1] at h
    cases h
  · exact h

/-- When the call is over and its actions have nothing left to do, nobody holds the barrier. -/
theorem Inv.released (hr : call.returned ≠ none)
    (hfin : ∀ a ∈ call.found, ∃ x, s.actions[a]? = some x ∧ x.finished = true)
    (hb : call.barrier = some b) : s.holders b = 0 := by
  -- the barrier is of no other call
  have hown : ∀ call' ∈ s.calls, call'.barrier = some b → call' = call := by
    intro call' hc' hb'
    obtain ⟨i, hi'⟩ := mem_iff_getElem?.mp hc
    obtain ⟨j, hj⟩ := mem_iff_getElem?.mp hc'
    have := hi.owner i j call call' b hi' hj hb hb'
    subst this
    rw [hi'] at hj
    exact (some.inj hj).symm
  rw [holders, Nat.add_eq_zero_iff]
  constructor
  · refine tally_eq_zero.mpr fun x hx => ?_
    obtain ⟨a, hax⟩ := mem_iff_getElem?.mp hx
    by_contra hpos
    -- a holder was found by the call, so it has finished, and then holds nothing
    obtain ⟨call', hc', hb', hf⟩ := hi.found hax hpos
    rw [hown call' hc' hb'] at hf
    obtain ⟨y, hy, hdone⟩ := hfin a hf
    rw [hax] at hy
    cases hy
    have hd : x.driver = .settled [] := of_decide_eq_true hdone
    refine hpos ?_
    rw [Action.clones_of_unhung ((hi.actions hax).ok.unhung hd), hd]
    rfl
  · refine tally_eq_zero.mpr fun call' hc' => if_neg ?_
    rintro ⟨hr', hb'⟩
    rw [hown call' hc' hb'] at hr'
    exact hr hr'

end

theorem Inv.toExact : s.Exact where
  waits _ hc _ ha := hi.waits_exact hc ha
  early call hc e he hs a x ha hx hreq hu := by
    have hnot : a ∉ call.found := by
      intro hf
      obtain ⟨y, hy, -, hdr⟩ := hi.waits_exact hc hf
      rw [hx] at hy
      cases hy
      rw [hdr e he hs] at hu
      cases hu
    rcases hi.covers_exact hc (hi.returned hc he hs) ha hx hreq hu with hf | ⟨hk, hev⟩
    · exact absurd hf hnot
    · exact ⟨hk, hnot, hev⟩
  once call hc e he := by
    obtain ⟨b, hb, hcount⟩ := hi.count_signal hc he
    rw [hcount]
    constructor
    · split <;> omega
    · intro hr hfin
      rw [if_pos (hi.released hc hr hfin hb)]
  commits call hc hk := by
    obtain ⟨b, hb⟩ := ne_none_iff_exists'.mp ((hi.calls hc).commits hk)
    exact signals_ne_nil hb
  fence call hc hk tokens hr := by
    rcases (hi.calls hc).returned with hn | ⟨-, hans⟩
    · cases hn.symm.trans hr
    have hans := some.inj (hr.symm.trans (hans hk))
    cases hb : call.barrier with
    | none =>
      rw [hb] at hans
      subst hans
      refine ⟨by rw [signals, hb]; rfl, fun hf => ?_⟩
      obtain ⟨a, ha⟩ := exists_mem_of_ne_nil _ hf
      obtain ⟨b, -, hb', -⟩ := (hi.calls hc).waits a ha
      rw [hb] at hb'
      cases hb'
    | some b =>
      rw [hb] at hans
      subst hans
      refine ⟨?_, fun _ => fenceTokens_ne_nil⟩
      rw [signals_some hb, barrierKind, hk]
      rfl
  covers _ hc hr _ _ ha hx hreq hu := hi.covers_exact hc hr ha hx hreq hu

end

/-! ### Runs -/

theorem Inv.new (workerCount : Nat) : (Engine.new workerCount).Inv := by
  have hhold : (Engine.new workerCount).holders = fun _ => 0 := rfl
  have hbooks : Books BarrierKind.signals Signal.barrier [] [] (Engine.new workerCount).holders :=
    hhold ▸ .nil
  exact ⟨nofun, nofun, hbooks, nofun⟩

/-- **The fence of an eviction and the drain of a request tell the workers once, and not before
the actions they were made to wait for have drained.** -/
theorem exact_of_timely {workerCount : Nat}
    (h : ReachableWhile Timely (· = Engine.new workerCount) step s) : s.Exact := by
  refine Inv.toExact (h.invariant ?_ ?_)
  · rintro t rfl
    exact .new workerCount
  · intro t op t' hi hok hs
    exact hi.step hok hs

/-- A load is evicted, its handle is dropped, and it ends. -/
def evictThenDrop : List Op :=
  [.start .load 0, .evict 0, .visit 0, .leave 0, .releaseAction 0, .handle 0,
    .finishLoad 0 .complete [], .driver 0, .driver 0, .driver 0]

theorem exact_of_timely_evictThenDrop :
    ∃ s, runListWhile Timely step (Engine.new 2) evictThenDrop = some s ∧
      s.sink = [.markFenceComplete ⟨0, 0⟩, .markFenceComplete ⟨0, 1⟩] ∧ s.Exact := by
  exact exists_of_map (f := Engine.sink) (by decide) fun s hs hsink =>
    ⟨hsink, exact_of_timely (ReachableWhile.runListWhile (.init rfl) hs)⟩

/-- The handle of a load is dropped, and then its request is evicted. -/
def dropThenEvict : List Op :=
  [.start .load 0, .releaseAction 0, .handle 0, .handle 0, .handle 0, .evict 0, .leave 0]

/-- The load is still running, and the eviction has returned an empty fence. -/
theorem dropThenEvict_not_exact :
    ∃ s, runList step (Engine.new 1) dropThenEvict = some s ∧ ¬ s.Exact := by
  refine exists_of_map (f := fun s => (s.actions, s.calls))
    (b := ([⟨.load, 0, none, .pending, .released [], .running⟩],
      [⟨.evict, 0, [], none, some [], 1, []⟩])) (by decide) fun s _ heq h => ?_
  obtain ⟨hacts, hcalls⟩ := Prod.mk.inj heq
  have hcall : ⟨.evict, 0, [], none, some [], 1, []⟩ ∈ s.calls := by
    rw [hcalls]
    exact mem_singleton.mpr rfl
  rcases h.covers _ hcall nofun 0 _ Nat.one_pos (by rw [hacts]; rfl) rfl rfl with hf | ⟨-, he⟩
  · cases hf
  · rw [evicted, hcalls] at he
    cases he

end Engine

end Kvbm.Tiering
