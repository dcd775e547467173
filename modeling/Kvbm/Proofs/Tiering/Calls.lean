/-
What the calls of the engine rely on, and that every step keeps it.

An action that a call finds undrained gets a clone of the call's barrier, and keeps it until
its last terminal.  This needs the action to be seen as pending.  Work that drains physically
always is.  A load without a physical drain is pending as long as its handle is held; once
the handle has been dropped, the engine takes it for done.
-/
import Kvbm.Proofs.Tiering.Barriers

namespace Kvbm.Tiering

open Lib List Option BarrierKind Tiering.Action ActionRecord Function Engine

/-- The barrier whose end a signal is. -/
def Signal.barrier : Signal → Option BarrierId
  | .markLoadFinished _ _ => none
  | .markFenceComplete token => some token.generation
  | .markSaveFinished _ b => some b

namespace Engine

variable {s s' : Engine} {a : ActionId} {x y : Action} {r : ActionRecord} {c : Nat} {call : Call}
  {b : BarrierId}

/-- The call, or for an eviction an eviction before it, waits for the action. -/
def Awaits (s : Engine) (call : Call) (a : ActionId) : Prop :=
  a ∈ call.found ∨ call.kind = .evict ∧ s.evicted a = true

/-- The barrier a call mints. -/
def barrierKind (s : Engine) (call : Call) (b : BarrierId) : BarrierKind :=
  match call.kind with
  | .evict => .fence (fenceTokens b s.workerCount)
  | .commit => .drain call.requestId

/-- The clones of the barriers are counted, and those that nobody holds have fired. -/
abbrev Balanced (s : Engine) : Prop := Books signals Signal.barrier s.barriers s.sink s.holders

/-- What the engine keeps of one action. -/
structure ActionOk (s : Engine) (a : ActionId) (y : Action) : Prop where
  ok : y.Ok
  hung : ∀ k b, y.hung k = some b →
    ∃ call ∈ s.calls, call.kind = k ∧ call.barrier = some b ∧ a ∈ call.found
  taken : ∀ b, 0 < y.driver.clones b → ∃ call ∈ s.calls, call.barrier = some b ∧ a ∈ call.found
  tracked : y.undrained = true → a ∈ s.byRequest y.requestId ∨ y.Loose

/-- And of one call. -/
structure CallOk (s : Engine) (call : Call) : Prop where
  minted : ∀ b, call.barrier = some b → ∃ w, s.barriers[b]? = some w ∧ w.obj = s.barrierKind call b
  commits : call.kind = .commit → call.barrier ≠ none
  returned : call.returned = none ∨ call.todo = [] ∧ (call.kind = .evict →
    call.returned = some (call.barrier.elim [] (fenceTokens · s.workerCount)))
  /-- Whoever a call waits for has a clone of its barrier, until it has drained. -/
  waits : ∀ a ∈ call.found, ∃ b y, call.barrier = some b ∧ s.actions[a]? = some y ∧
    (y.undrained = true → y.hung call.kind = some b)
  since : call.since ≤ s.actions.length
  /-- A call is still to come to an action, or waits for it. -/
  progress : ∀ a y, a < call.since → s.actions[a]? = some y → y.requestId = call.requestId →
    y.undrained = true → a ∈ call.todo ∨ s.Awaits call a

structure Inv (s : Engine) : Prop where
  actions : ∀ {a y}, s.actions[a]? = some y → s.ActionOk a y
  calls : ∀ {call}, call ∈ s.calls → s.CallOk call
  books : s.Balanced
  owner : ∀ (c c' : Nat) call call' b, s.calls[c]? = some call → s.calls[c']? = some call' →
    call.barrier = some b → call'.barrier = some b → c = c'

/-- The call has what it had found, and the barrier it had minted. -/
def Grown (z z' : Call) : Prop :=
  z'.kind = z.kind ∧ (∀ b, z.barrier = some b → z'.barrier = some b) ∧ ∀ i ∈ z.found, i ∈ z'.found

instance : Std.Refl Grown := ⟨fun _ => ⟨rfl, fun _ h => h, fun _ h => h⟩⟩

abbrev Grows : List Call → List Call → Prop := Extends Grown

variable {call' : Call} {i : ActionId} {o : ActionStatus} {req : RequestId} {todo : List ActionId}

theorem evicted_grows (hg : Grows s.calls s'.calls) (he : s.evicted i = true) :
    s'.evicted i = true := by
  obtain ⟨z, hz, hp⟩ := any_eq_true.mp he
  obtain ⟨z', hz', hk, -, hf⟩ := hg.mem hz
  simp only [Bool.and_eq_true, contains_iff_mem] at hp
  refine any_eq_true.mpr ⟨z', hz', ?_⟩
  simp only [Bool.and_eq_true, contains_iff_mem, hk]
  exact ⟨hp.1, hf i hp.2⟩

/-! ### What a step keeps -/

/-- The action has its clones, unless it has drained. -/
def Persists (x y : Action) : Prop :=
  y.requestId = x.requestId ∧ (y.undrained = true → x.undrained = true) ∧
    (y.undrained = true → ∀ k b, x.hung k = some b → y.hung k = some b)

instance : Std.Refl Persists := ⟨fun _ => ⟨rfl, id, fun _ _ _ h => h⟩⟩

variable {dropped : BarrierId → Nat} {rest : List Effect} {e : Effect} {signals : List Signal}

theorem ActionOk.grow (h : s.ActionOk a y) (hg : Grows s.calls s'.calls)
    (hby : ∀ req, a ∈ s.byRequest req → a ∈ s'.byRequest req) : s'.ActionOk a y where
  ok := h.ok
  hung k b hk := by
    obtain ⟨call, hc, hkind, hb, hf⟩ := h.hung k b hk
    obtain ⟨call', hc', hk', hb', hf'⟩ := hg.mem hc
    exact ⟨call', hc', hk'.trans hkind, hb' b hb, hf' a hf⟩
  taken b hk := by
    obtain ⟨call, hc, hb, hf⟩ := h.taken b hk
    obtain ⟨call', hc', -, hb', hf'⟩ := hg.mem hc
    exact ⟨call', hc', hb' b hb, hf' a hf⟩
  tracked hu := (h.tracked hu).imp_left (hby _)

/-- What a step keeps beside the calls. -/
structure Goes (s s' : Engine) : Prop where
  workers : s'.workerCount = s.workerCount
  barriers : Keeps s.barriers s'.barriers
  books : s'.Balanced
  persist : Extends Persists s.actions s'.actions

/-- What a step makes of a call that has begun. -/
structure Continues (s s' : Engine) (call call' : Call) : Prop where
  kind : call'.kind = call.kind
  request : call'.requestId = call.requestId
  since : call'.since = call.since
  grows : ∀ b, call.barrier = some b → call'.barrier = some b
  minted : ∀ b, call'.barrier = some b → call.barrier = some b ∨ s.barriers.length ≤ b ∧
    ∃ w, s'.barriers[b]? = some w ∧ w.obj = s.barrierKind call b
  found : ∀ a ∈ call.found, a ∈ call'.found
  waits : ∀ a ∈ call'.found, a ∈ call.found ∨ ∃ b y, call'.barrier = some b ∧
    s'.actions[a]? = some y ∧ y.hung call.kind = some b
  returned : call'.returned = none ∨ call'.todo = [] ∧ (call.kind = .evict →
    call'.returned = some (call'.barrier.elim [] (fenceTokens · s.workerCount)))
  progress : ∀ a ∈ call.todo, a ∈ call'.todo ∨ a ∈ call'.found ∨
    ∀ y, s.actions[a]? = some y → y.undrained = true → s.Awaits call a

theorem CallOk.continues (h : s.CallOk call) : Continues s s' call call where
  kind := rfl
  request := rfl
  since := rfl
  grows _ hb := hb
  minted _ hb := .inl hb
  found _ hf := hf
  waits _ hf := .inl hf
  returned := h.returned
  progress _ hin := .inl hin

theorem CallOk.next (h : s.CallOk call) (hn : Continues s s' call call') (hgo : Goes s s')
    (hg : Grows s.calls s'.calls) : s'.CallOk call' where
  minted b hb := by
    have hkind : s'.barrierKind call' b = s.barrierKind call b := by
      rw [barrierKind, barrierKind, hgo.workers, hn.kind, hn.request]
    rw [hkind]
    rcases hn.minted b hb with hb | ⟨-, hw⟩
    · obtain ⟨v, hv, hobj⟩ := h.minted b hb
      obtain ⟨w, hw, hwv⟩ := hgo.barriers b v hv
      exact ⟨w, hw, hwv.trans hobj⟩
    · exact hw
  commits hk hb := by
    obtain ⟨b, hb'⟩ := ne_none_iff_exists'.mp (h.commits (hn.kind ▸ hk))
    rw [hn.grows b hb'] at hb
    cases hb
  returned := by
    rw [hgo.workers, hn.kind]
    exact hn.returned
  waits a hf := by
    rw [hn.kind]
    rcases hn.waits a hf with hf | ⟨b, y, hb, hy, hk⟩
    · obtain ⟨b, x, hb, hx, hw⟩ := h.waits a hf
      obtain ⟨y, hy, -, hu, hkept⟩ := hgo.persist a x hx
      exact ⟨b, y, hn.grows b hb, hy, fun hyu => hkept hyu _ b (hw (hu hyu))⟩
    · exact ⟨b, y, hb, hy, fun _ => hk⟩
  since := by
    rw [hn.since]
    exact h.since.trans hgo.persist.length_le
  progress a y hlt hy hreq hu := by
    rw [hn.since] at hlt
    rw [hn.request] at hreq
    obtain ⟨x, hx⟩ : ∃ x, s.actions[a]? = some x :=
      ⟨_, getElem?_eq_getElem (Nat.lt_of_lt_of_le hlt h.since)⟩
    obtain ⟨y', hy', hreq', hu', -⟩ := hgo.persist a x hx
    rw [hy] at hy'
    cases hy'
    have haw : s.Awaits call a → s'.Awaits call' a :=
      Or.imp (hn.found a) fun he => ⟨hn.kind.trans he.1, evicted_grows hg he.2⟩
    rcases h.progress a x hlt hx (hreq'.symm.trans hreq) (hu' hu) with hin | hw
    · rcases hn.progress a hin with hin | hf | hw
      · exact .inl hin
      · exact .inr (.inl hf)
      · exact .inr (haw (hw x hx (hu' hu)))
    · exact .inr (haw hw)

section

variable (hi : s.Inv)

include hi

theorem Inv.kept (hg : Grows s.calls s'.calls) (hby : s'.byRequest = s.byRequest)
    (hy : s.actions[i]? = some y) : s'.ActionOk i y :=
  (hi.actions hy).grow hg fun req hin => by rw [hby]; exact hin

/-- **What a step has to show**: what it keeps of the actions, and of the one call that it
changes or begins. -/
theorem Inv.update (c : Nat) (hgo : Goes s s')
    (hacts : ∀ {i : ActionId} {y}, s'.actions[i]? = some y → s'.ActionOk i y)
    (hg : Grows s.calls s'.calls) (hcalls : ∀ j, j ≠ c → s'.calls[j]? = s.calls[j]?)
    (hcall : ∀ z, s'.calls[c]? = some z → s'.CallOk z ∧ ∀ b, z.barrier = some b →
      s.barriers.length ≤ b ∨ ∃ call, s.calls[c]? = some call ∧ call.barrier = some b) :
    s'.Inv := by
  -- the barrier of the call is its own, whether it is old or new
  have hown : ∀ j z z' b, j ≠ c → s'.calls[j]? = some z → s'.calls[c]? = some z' →
      z.barrier = some b → z'.barrier ≠ some b := by
    intro j z z' b hjc hz hz' hb hb'
    rw [hcalls j hjc] at hz
    rcases (hcall z' hz').2 b hb' with hle | ⟨call, hc, hbc⟩
    · obtain ⟨w, hw, -⟩ := (hi.calls (mem_of_getElem? hz)).minted b hb
      exact absurd (List.getElem?_eq_some_iff.mp hw).1 (Nat.not_lt.mpr hle)
    · exact hjc (hi.owner j c z call b hz hc hb hbc)
  refine ⟨hacts, fun hz => ?_, hgo.books, ?_⟩
  · obtain ⟨j, hj⟩ := mem_iff_getElem?.mp hz
    by_cases hjc : j = c
    · exact (hcall _ (hjc ▸ hj)).1
    rw [hcalls j hjc] at hj
    have hz := hi.calls (mem_of_getElem? hj)
    exact hz.next hz.continues hgo hg
  · intro j j' z z' b hz hz' hb hb'
    by_cases hj : j = c
    · by_cases hj' : j' = c
      · rw [hj, hj']
      · exact absurd hb (hown j' z' z b hj' hz' (hj ▸ hz) hb')
    by_cases hj' : j' = c
    · exact absurd hb' (hown j z z' b hj hz (hj' ▸ hz') hb)
    rw [hcalls j hj] at hz
    rw [hcalls j' hj'] at hz'
    exact hi.owner j j' z z' b hz hz' hb hb'

variable (hx : s.actions[a]? = some x)

include hx

theorem Inv.found (h : x.clones b ≠ 0) :
    ∃ call ∈ s.calls, call.barrier = some b ∧ a ∈ call.found := by
  rcases hung_or_taken h with ⟨k, hk⟩ | hd
  · obtain ⟨call, hc, -, hb, hf⟩ := (hi.actions hx).hung k b hk
    exact ⟨call, hc, hb, hf⟩
  · exact (hi.actions hx).taken b hd

omit hx in
/-- The books of a step that changes neither the barriers nor who holds them. -/
theorem Inv.balanced (hbar : s'.barriers = s.barriers) (hsink : s'.sink = s.sink)
    (hhold : ∀ b, s'.holders b = s.holders b) : s'.Balanced := by
  rw [Balanced, hbar, hsink, funext hhold]
  exact hi.books

/-! ### Steps on one action -/

omit hx in
theorem Inv.updateActions (hgo : Goes s s')
    (hacts : ∀ {i : ActionId} {y}, s'.actions[i]? = some y → s'.ActionOk i y)
    (hcalls : s'.calls = s.calls) : s'.Inv := by
  refine hi.update s.calls.length hgo hacts ?_ (fun _ _ => by rw [hcalls]) ?_
  · rw [hcalls]
    exact .refl _
  · intro z hz
    rw [hcalls, getElem?_eq_none (Nat.le_refl _)] at hz
    cases hz

theorem Inv.change (hm : x.MovesBut dropped y) (hacts : s'.actions = s.actions.set a y)
    (hcalls : s'.calls = s.calls) (hbar : Keeps s.barriers s'.barriers)
    (hwc : s'.workerCount = s.workerCount) (hbooks : s'.Balanced)
    (hby : ∀ req i, i ∈ s.byRequest req →
      i ∈ s'.byRequest req ∨ i = a ∧ (y.undrained = true → y.Loose)) : s'.Inv := by
  refine hi.updateActions ⟨hwc, hbar, hbooks, hacts ▸ .set hx ⟨hm.request, hm.undrained,
    fun hu k b hk => by rw [hm.kept hu, hk]⟩⟩ ?_ hcalls
  intro i z hz
  rw [hacts] at hz
  rcases getElem?_set_cases hx hz with ⟨rfl, rfl⟩ | ⟨hne, hz⟩
  · refine ⟨hm.ok, ?_, ?_, ?_⟩
    · rw [hcalls]
      rcases hm.hung with heq | hnone
      · rw [heq]
        exact (hi.actions hx).hung
      intro k b hk
      rw [hnone k] at hk
      cases hk
    · rw [hcalls]
      intro b hk
      -- a clone of the driver was held before, by the driver or by the record
      refine hi.found hx ?_
      have := hm.clones b
      rw [Action.clones] at this
      omega
    · intro hu
      rcases (hi.actions hx).tracked (hm.undrained hu) with hin | hl
      · rcases hby _ i hin with hin | ⟨-, hl⟩
        · rw [hm.request]
          exact .inl hin
        · exact .inr (hl hu)
      · exact .inr (hm.loose hu hl)
  · refine (hi.actions hz).grow (hcalls ▸ .refl _) fun req hin => ?_
    exact (hby req i hin).resolve_right fun h => hne h.1

omit hi in
theorem holders_setAction (hm : x.MovesBut dropped y) (hacts : s'.actions = s.actions.set a y)
    (hcalls : s'.calls = s.calls) (b : BarrierId) : s'.holders b + dropped b = s.holders b := by
  have := tally_set (f := Action.clones b) (b := y) hx
  have := hm.clones b
  rw [holders, holders, hacts, hcalls]
  omega

/-- A step that changes one action, and lets go of no clone. -/
theorem Inv.replace (hm : x.Moves y) (hacts : s'.actions = s.actions.set a y)
    (hcalls : s'.calls = s.calls) (hbar : s'.barriers = s.barriers)
    (hwc : s'.workerCount = s.workerCount)
    (hsink : ∃ more, s'.sink = s.sink ++ more ∧ ∀ e ∈ more, e.barrier = none)
    (hby : ∀ req i, i ∈ s.byRequest req →
      i ∈ s'.byRequest req ∨ i = a ∧ (y.undrained = true → y.Loose)) : s'.Inv := by
  refine hi.change hx hm hacts hcalls (hbar ▸ .refl _) hwc ?_ hby
  have hhold : s'.holders = s.holders := funext fun b => holders_setAction hx hm hacts hcalls b
  obtain ⟨more, hsink, hmore⟩ := hsink
  rw [Balanced, hbar, hsink, hhold]
  exact hi.books.log_other hmore

theorem Inv.setAction (hm : x.Moves y) : (s.setAction a y).Inv :=
  hi.replace hx hm rfl rfl rfl rfl ⟨[], (append_nil _).symm, nofun⟩ fun _ _ h => .inl h

/-! ### Terminals -/

theorem Inv.finishLoad (hr : x.record = some r) (ho : o ≠ .pending) :
    (s.settle a x (some o) (r.finishLoad o)).Inv := by
  have hok := (hi.actions hx).ok
  have hrec := hok.record r hr
  unfold ActionRecord.finishLoad
  by_cases hk : r.kind = .load .pending
  · have hd := hrec.running (.inl hk)
    unfold Action.RecordOk at hrec
    rw [hd] at hrec
    have hu : x.undrained = true := undrained_iff.mpr (.inl hd)
    rw [if_neg (not_not.mpr hk)]
    by_cases hp : r.physicalPending = true
    · have hb : x.work = .bundle := by simpa [hp] using hrec.2
      rw [if_pos hp]
      simp only [settle, elim_some, writeCell_eq]
      refine hi.setAction hx (hok.logical hr hd hb hp (written_ne_pending ho) ?_)
      split <;> nofun
    · rw [if_neg hp]
      simp only [settle, elim_some, writeCell_eq]
      refine hi.setAction hx (hok.last hr hu (written_ne_pending ho) ?_ (Bool.eq_false_iff.mpr hp)
        (.inl rfl) ?_)
      · intro k
        cases k <;> rfl
      · intro b
        rw [count_append, count_append, count_dropClones, count_removeNow]
        split <;> simp
  · rw [if_pos hk]
    exact hi

theorem Inv.finishPhysicalLoad (hr : x.record = some r) (hd : x.driver = .draining) :
    (s.settle a x none r.finishPhysicalLoad).Inv := by
  have hok := (hi.actions hx).ok
  have hrec := hok.record r hr
  unfold Action.RecordOk at hrec
  rw [hd] at hrec
  obtain ⟨-, t, hk, ht⟩ := hrec
  have hu : x.undrained = true := undrained_iff.mpr (.inr hd)
  have hst : x.cellAlive = true → x.status ≠ .pending := by
    intro hal hc
    refine hok.written (by rw [hd]; nofun) (by rw [hr]; nofun) ?_
    rw [cell, if_pos hal, hc]
  have hlast : ∀ notify : List Effect, (∀ b, notify.count (.dropClone b) = 0) →
      (s.setAction a { x with
        record := some { r.disarm with physicalPending := false, kind := .load .settled }
        driver := .settled (r.dropClones ++ [.physicalDrain] ++ notify ++ r.removeNow) }).Inv := by
    intro notify hn
    refine hi.setAction hx (hok.last hr hu hst ?_ rfl (.inl rfl) ?_)
    · intro k
      cases k <;> rfl
    · intro b
      simp only [count_append, count_dropClones, count_removeNow, hn b]
      rfl
  unfold ActionRecord.finishPhysicalLoad
  simp only [hk]
  cases t with
  | pending => exact absurd rfl ht
  | deferred outcome =>
    refine hlast (if r.suppressTerminal then [] else [.markLoadFinished outcome]) fun b => ?_
    by_cases hs : r.suppressTerminal = true <;> simp [hs]
  | settled => exact hlast [] fun _ => rfl

theorem Inv.finishSave (hr : x.record = some r) (ho : o ≠ .pending) :
    (s.settle a x (some o) r.finishSave).Inv := by
  have hok := (hi.actions hx).ok
  have hrec := hok.record r hr
  unfold ActionRecord.finishSave
  split
  · exact hi
  · exact hi
  · rename_i hk
    have hd := hrec.running (.inr hk)
    unfold Action.RecordOk at hrec
    rw [hd, hk] at hrec
    have hp : r.physicalPending = false := by
      rw [hrec.2]
      cases hw : x.work <;> simp [hw] at hrec ⊢
    simp only [settle, elim_some, writeCell_eq]
    refine hi.setAction hx (hok.last hr (undrained_iff.mpr (.inl hd)) (written_ne_pending ho) ?_ hp
      (.inr rfl) ?_)
    · intro k
      cases k <;> rfl
    · intro b
      rw [count_append, count_dropClones, count_removeNow]
      rfl

end

/-! ### What is done outside of a lock -/

theorem perform_remove_none (hr : x.record = none) :
    s.perform a x .removeActionRecord = (s, x, []) := by
  simp [perform, hr]

theorem perform_remove_some (hr : x.record = some r) (hfree : ∀ k, x.hung k = none) :
    s.perform a x .removeActionRecord = (s, { x with record := none }, [.untrackAction]) := by
  have hfence := hfree .evict
  have hdrain := hfree .commit
  simp only [hung, hr, bind_some, ActionRecord.clone] at hfence hdrain
  simp [perform, hr, dropClones, hfence, hdrain]

/-- Scrubbing an action from the index of its request leaves the others there. -/
theorem mem_untrack (hin : i ∈ s.byRequest req) (hia : i ≠ a) :
    i ∈ (s.perform a x .untrackAction).1.byRequest req := by
  show i ∈ update s.byRequest x.requestId _ req
  by_cases hreq : req = x.requestId
  · subst hreq
    rw [update_self]
    exact mem_filter.mpr ⟨hin, by simpa using hia⟩
  · rw [update_of_ne hreq]
    exact hin

theorem Inv.driver (hi : s.Inv) (hx : s.actions[a]? = some x)
    (hd : x.driver = .settled (e :: rest)) :
    ((s.perform a x e).1.setAction a
      { (s.perform a x e).2.1 with driver := .settled ((s.perform a x e).2.2 ++ rest) }).Inv := by
  have hok := (hi.actions hx).ok
  have hother : ∀ {e : Effect} {rest : List Effect}, (∀ b, e ≠ .dropClone b) →
      ∀ b, rest.count (.dropClone b) = (e :: rest).count (.dropClone b) :=
    fun he b => (count_cons_of_ne (he b)).symm
  cases e with
  | markLoadFinished outcome =>
    refine hi.replace hx (hok.advance_moves hd (hother nofun)) rfl rfl rfl rfl
      ⟨[.markLoadFinished x.requestId outcome], rfl, forall_mem_singleton.mpr rfl⟩
      fun _ _ h => .inl h
  | dropClone b =>
    have hm := hok.advance_drop hd
    have hh : ∀ j, ((s.dropClone b).setAction a { x with driver := .settled rest }).holders j +
        (if j = b then 1 else 0) = s.holders j := holders_setAction hx hm rfl rfl
    refine hi.change hx hm rfl rfl dropShared_keeps rfl ?_ fun _ _ h => .inl h
    refine hi.books.drop (i := b) ?_ ?_
    · have := hh b
      rw [if_pos rfl] at this
      exact this
    · intro j hj
      have := hh j
      rw [if_neg hj] at this
      exact this
  | physicalDrain | freeCell =>
    exact hi.setAction hx (hok.advance_moves hd (hother nofun))
  | removeActionRecord =>
    cases hr : x.record with
    | none =>
      rw [perform_remove_none hr]
      exact hi.setAction hx (hok.advance_moves hd (hother nofun))
    | some =>
      rw [perform_remove_some hr (hok.unhung hd)]
      exact hi.setAction hx (hok.drop hd fun b => by simp)
  | untrackAction =>
    refine hi.replace hx (hok.advance_moves hd (hother nofun)) rfl rfl rfl rfl
      ⟨[], (append_nil _).symm, nofun⟩ ?_
    intro req i hin
    by_cases hia : i = a
    · exact .inr ⟨hia, nofun⟩
    · exact .inl (mem_untrack hin hia)

theorem Inv.handle (hi : s.Inv) (hx : s.actions[a]? = some x)
    (hh : x.handle = .released (e :: rest)) :
    ((s.perform a x e).1.setAction a
      { (s.perform a x e).2.1 with handle := .released ((s.perform a x e).2.2 ++ rest) }).Inv := by
  have hok := (hi.actions hx).ok
  have halive : .freeCell ∈ e :: rest → x.cellAlive = true := by
    intro hm
    rw [cellAlive, hh]
    exact decide_eq_true hm
  have hhok := hok.handle _ hh
  cases hhok with
  | removing hfree =>
    cases hr : x.record with
    | none =>
      rw [perform_remove_none hr]
      exact hi.setAction hx (hok.setHandle .freeing fun _ => halive (by simp))
    | some =>
      rw [perform_remove_some hr hfree]
      exact hi.setAction hx (hok.remove hh)
  | untracking hn =>
    refine hi.replace hx (hok.setHandle .freeing fun _ => halive (by simp)) rfl rfl rfl rfl
      ⟨[], (append_nil _).symm, by simp⟩ ?_
    intro req i hin
    by_cases hia : i = a
    · refine .inr ⟨hia, fun hu => ?_⟩
      exact ⟨(hok.lost hu hn).1, by simp, hn⟩
    · exact .inl (mem_untrack hin hia)
  | freeing => exact hi.setAction hx (hok.setHandle .gone (absurd · not_mem_nil))

/-! ### New actions and new calls -/

theorem signals_tagged (kind : CallKind) (req : RequestId) (n b : Nat) :
    (BarrierKind.signals b (match kind with
      | .evict => .fence (fenceTokens b n)
      | .commit => .drain req)).Nodup ∧
    ∀ e ∈ BarrierKind.signals b (match kind with
      | .evict => .fence (fenceTokens b n)
      | .commit => .drain req), e.barrier = some b := by
  cases kind with
  | evict =>
    simp only [signals, fenceTokens, List.map_map]
    constructor
    · refine List.Nodup.map ?_ List.nodup_range
      intro i j hij
      cases hij
      rfl
    · intro e he
      obtain ⟨i, -, rfl⟩ := mem_map.mp he
      rfl
  | commit =>
    exact ⟨nodup_singleton _, forall_mem_singleton.mpr rfl⟩

theorem start_ok {work : Work} : (start work req).Ok := by
  refine ⟨?_, nofun, nofun, fun _ => rfl, fun h => absurd rfl h, nofun⟩
  intro r hr
  cases hr
  cases work <;> exact ⟨rfl, rfl⟩

theorem Inv.start (hi : s.Inv) (work : Work) (req : RequestId) (drains : List RequestId) :
    Inv { s with
      actions := s.actions ++ [.start work req]
      byRequest := Function.update s.byRequest req (s.byRequest req ++ [s.actions.length])
      offloadDrains := drains } := by
  have hclones : ∀ b, clones b (.start work req) = 0 := by
    intro b
    cases work <;> rfl
  refine hi.updateActions ⟨rfl, .refl _, hi.balanced rfl rfl fun b => ?_, .concat⟩ ?_ rfl
  · simp [holders, hclones]
  · intro i z hz
    rcases getElem?_concat_cases hz with hz | ⟨rfl, rfl⟩
    · refine (hi.actions hz).grow (.refl _) fun q hin => ?_
      show i ∈ Function.update s.byRequest req _ q
      by_cases hq : q = req
      · subst hq
        rw [update_self]
        exact mem_append_left _ hin
      · rw [update_of_ne hq]
        exact hin
    · refine ⟨start_ok, ?_, fun b hk => absurd hk (Nat.lt_irrefl 0), fun _ => .inl ?_⟩
      · intro k b hk
        cases work <;> cases k <;> cases hk
      · show s.actions.length ∈ Function.update s.byRequest req _ req
        rw [update_self]
        exact mem_append_right _ (mem_singleton.mpr rfl)

/-- The handle of a load without a physical drain is held, or an eviction before has made it
wait. -/
def Ready (k : CallKind) (x : Action) : Prop :=
  x.work = .load → x.handle = .held ∨ k = .evict ∧ ∃ r ∈ x.record, r.fence ≠ none

section

variable (hi : s.Inv)

include hi

theorem Inv.begin {k : CallKind} {barrier : Option BarrierId}
    (hready : ∀ x ∈ s.actions, x.requestId = req → x.undrained = true → Ready k x)
    (hacts : s'.actions = s.actions) (hby : s'.byRequest = s.byRequest) (hgo : Goes s s')
    (hcalls : s'.calls =
      s.calls ++ [⟨k, req, s.byRequest req, barrier, none, s.actions.length, []⟩])
    (hcommit : k = .commit → barrier ≠ none) (hnew : ∀ b, barrier = some b → s.barriers.length ≤ b ∧
      ∃ w, s'.barriers[b]? = some w ∧ w.obj = s.barrierKind
        ⟨k, req, s.byRequest req, barrier, none, s.actions.length, []⟩ b) : s'.Inv := by
  have hg : Grows s.calls s'.calls := hcalls ▸ .concat
  refine hi.update s.calls.length hgo ?_ hg ?_ ?_
  · intro i y hy
    rw [hacts] at hy
    exact hi.kept hg hby hy
  · intro j hj
    rw [hcalls, getElem?_append]
    split
    · rfl
    · rw [getElem?_eq_none (by simp; omega), getElem?_eq_none (by omega)]
  · intro z hz
    rw [hcalls, getElem?_concat_length] at hz
    cases hz
    refine ⟨⟨?_, hcommit, .inl rfl, nofun, ?_, ?_⟩, fun b hb => .inl (hnew b hb).1⟩
    · intro b hb
      rw [barrierKind, hgo.workers]
      exact (hnew b hb).2
    · rw [hacts]
    · rw [hacts]
      intro i z _ hz hreq hu
      -- whatever the index does not list has lost its handle, which the call rules out
      rcases (hi.actions hz).tracked hu with hin | ⟨hw, hh, hr⟩
      · rw [show z.requestId = req from hreq] at hin
        exact .inl hin
      rcases hready z (mem_of_getElem? hz) hreq hu hw with hc | ⟨-, r, hr', -⟩
      · exact absurd hc hh
      · rw [hr] at hr'
        cases hr'

/-! ### The loop of a call -/

section

variable (hc : s.calls[c]? = some call)

include hc

theorem Inv.setCalls (hcalls : s'.calls = s.calls.set c call') (hgo : Goes s s')
    (hn : Continues s s' call call')
    (hacts : Grows s.calls s'.calls → ∀ {i : ActionId} {y}, s'.actions[i]? = some y →
      s'.ActionOk i y) : s'.Inv := by
  have hg : Grows s.calls s'.calls := hcalls ▸ .set hc ⟨hn.kind, hn.grows, hn.found⟩
  refine hi.update c hgo (hacts hg) hg ?_ ?_
  · intro j hj
    rw [hcalls, getElem?_set_ne hj.symm]
  · intro z hz
    rw [hcalls, List.getElem?_set_self (List.getElem?_eq_some_iff.mp hc).1] at hz
    cases hz
    refine ⟨(hi.calls (mem_of_getElem? hc)).next hn hgo hg, fun b hb => ?_⟩
    rcases hn.minted b hb with hb | ⟨hle, -⟩
    · exact .inr ⟨call, hc, hb⟩
    · exact .inl hle

/-- A call goes on, and finds nothing new. -/
theorem Inv.recall (hcalls : s'.calls = s.calls.set c call') (hacts : s'.actions = s.actions)
    (hby : s'.byRequest = s.byRequest) (hwc : s'.workerCount = s.workerCount)
    (hbar : Keeps s.barriers s'.barriers) (hbooks : s'.Balanced) (hn : Continues s s' call call') :
    s'.Inv := by
  refine hi.setCalls hc hcalls ⟨hwc, hbar, hbooks, hacts ▸ .refl _⟩ hn fun hg _ _ hy => ?_
  rw [hacts] at hy
  exact hi.kept hg hby hy

theorem Inv.hang (hret : call.returned = none) (hb : call.barrier = some b)
    (hx : s.actions[a]? = some x) (hr : x.record = some r) (hu : x.undrained = true)
    (hh : x.work = .load → x.handle = .held) (hfree : r.clone call.kind = none)
    (htodo : call.todo = a :: todo)
    (hcalls : s'.calls = s.calls.set c { call with todo := todo, found := call.found ++ [a] })
    (hacts : s'.actions = s.actions.set a { x with record := some (r.hang call.kind b) })
    (hbar : s'.barriers = addClone s.barriers b) (hby : s'.byRequest = s.byRequest)
    (hwc : s'.workerCount = s.workerCount) (hsink : s'.sink = s.sink) : s'.Inv := by
  generalize hy : { x with record := some (r.hang call.kind b) } = y at hacts
  generalize hcall' : { call with todo := todo, found := call.found ++ [a] } = call' at hcalls
  have hcmem : call ∈ s.calls := mem_of_getElem? hc
  have hyu : y.undrained = true := by rw [← hy]; exact hu
  have hyr : y.record = some (r.hang call.kind b) := by rw [← hy]
  have hyreq : y.requestId = x.requestId := by rw [← hy]
  have hya : s'.actions[a]? = some y := by
    rw [hacts, List.getElem?_set_self (List.getElem?_eq_some_iff.mp hx).1]
  have hyh : ∀ k, y.hung k = if k = call.kind then some b else x.hung k := by
    intro k
    rw [← hy, hung, hung, hr]
    cases call.kind <;> cases k <;> rfl
  have hhold : ∀ j, s'.holders j = s.holders j + if j = b then 1 else 0 := by
    intro j
    have h1 := tally_set (f := Action.clones j) (b := y) hx
    have h2 := tally_set (f := Call.clones j) (b := call') hc
    have h3 : y.clones j = x.clones j + if j = b then 1 else 0 := by
      rw [clones_of_undrained hyu hyr, clones_of_undrained hu hr, clones_hang hfree]
    have h4 : call'.clones j = call.clones j := by rw [← hcall']; rfl
    rw [holders, holders, hacts, hcalls]
    omega
  have hpos : 0 < s.holders b := by
    have h1 : call.clones b ≤ tally (Call.clones b) s.calls := le_tally hcmem
    have h2 : call.clones b = 1 := if_pos ⟨hret, hb⟩
    rw [holders]
    omega
  have hn : Continues s s' call call' := by
    rw [← hcall']
    refine ⟨rfl, rfl, rfl, fun _ h => h, fun _ h => .inl h,
      fun _ hf => mem_append_left _ hf, ?_, .inl hret, ?_⟩
    · intro i hf
      rcases mem_append.mp hf with hf | hf
      · exact .inl hf
      · rw [mem_singleton.mp hf]
        exact .inr ⟨b, y, hb, hya, (hyh _).trans (if_pos rfl)⟩
    · intro i hin
      rw [htodo] at hin
      rcases mem_cons.mp hin with rfl | hin
      · exact .inr (.inl (mem_append_right _ (mem_singleton.mpr rfl)))
      · exact .inl hin
  refine hi.setCalls hc hcalls ⟨hwc, hbar ▸ addClone_keeps, ?_, ?_⟩ hn fun hg i z hz => ?_
  · rw [Balanced, hbar, hsink]
    refine hi.books.add hpos ?_ ?_
    · rw [hhold b, if_pos rfl]
    · intro j hj
      rw [hhold j, if_neg hj, Nat.add_zero]
  · rw [hacts]
    refine .set hx ⟨hyreq, fun _ => hu, fun _ k b' hk => ?_⟩
    -- whoever a call of this kind waits for has its clone; this action had none
    rw [hyh, if_neg, hk]
    rintro rfl
    rw [hung, hr] at hk
    cases hfree.symm.trans hk
  · rw [hacts] at hz
    rcases getElem?_set_cases hx hz with ⟨rfl, rfl⟩ | ⟨-, hz⟩
    · have hold : s'.ActionOk i x := hi.kept hg hby hx
      refine ⟨?_, ?_, ?_, ?_⟩
      · rw [← hy]
        exact (hi.actions hx).ok.hang hr hu hh
      · intro k b' hk
        rw [hyh] at hk
        split at hk
        · rename_i hkk
          cases hk
          refine ⟨call', ?_, by rw [← hcall', hkk], by rw [← hcall', ← hb], ?_⟩
          · rw [hcalls]
            exact List.mem_set (List.getElem?_eq_some_iff.mp hc).1 call'
          · rw [← hcall']
            exact mem_append_right _ (mem_singleton.mpr rfl)
        · exact hold.hung k b' hk
      · intro b' hk
        rw [clones_undrained hyu] at hk
        exact absurd hk (Nat.lt_irrefl 0)
      · intro _
        rw [hyreq]
        refine (hold.tracked hu).imp_right fun hl => ?_
        cases hr.symm.trans hl.2.2
    · exact hi.kept hg hby hz

omit hi in
theorem holders_setCall {m n : Nat} (hold : call.clones b = m) (hnew : call'.clones b = n) :
    (s.setCall c call').holders b + m = s.holders b + n := by
  have := tally_set (f := Call.clones b) (b := call') hc
  simp only [holders, setCall]
  omega

theorem Inv.running (htodo : call.todo = a :: todo) : call.returned = none := by
  refine (hi.calls (mem_of_getElem? hc)).returned.resolve_right fun h => ?_
  cases h.1.symm.trans htodo

theorem Inv.skip (htodo : call.todo = a :: todo)
    (hpass : ∀ x, s.actions[a]? = some x → x.undrained = true → s.Awaits call a) :
    (s.setCall c { call with todo := todo }).Inv := by
  have hret := hi.running hc htodo
  refine hi.recall hc rfl rfl rfl rfl (.refl _) (hi.balanced rfl rfl fun b => ?_)
    { (hi.calls (mem_of_getElem? hc)).continues with returned := .inl hret, progress := ?_ }
  · exact Nat.add_right_cancel (holders_setCall hc rfl rfl)
  · intro i hin
    rw [htodo] at hin
    rcases mem_cons.mp hin with rfl | hin
    · exact .inr (.inr hpass)
    · exact .inl hin

/-- An eviction mints its barrier when it comes to the first action to wait for. -/
theorem Inv.mintFor (hret : call.returned = none) (hk : call.kind = .evict)
    (hn : call.barrier = none) :
    ((s.mint (.fence (fenceTokens s.barriers.length s.workerCount))).setCall c
      { call with barrier := some s.barriers.length }).Inv := by
  have hkind : s.barrierKind call s.barriers.length =
      .fence (fenceTokens s.barriers.length s.workerCount) := by
    rw [barrierKind, hk]
  have hold : ∀ b, call.clones b = 0 := by
    intro b
    rw [Call.clones, hn]
    exact if_neg fun h => nomatch h.2
  refine hi.recall hc rfl rfl rfl rfl mintShared_keeps ?_
    ⟨rfl, rfl, rfl, fun b hb => (nomatch hn.symm.trans hb), ?_, fun _ h => h, fun _ h => .inl h,
      .inl hret, fun _ h => .inl h⟩
  · refine hi.books.mint ?_ ?_ ?_
    · exact signals_tagged .evict 0 s.workerCount s.barriers.length
    · have h0 := hi.books.fresh _ (Nat.le_refl s.barriers.length)
      have h1 : Call.clones s.barriers.length { call with barrier := some s.barriers.length } = 1 :=
        if_pos ⟨hret, rfl⟩
      have := holders_setCall hc (hold s.barriers.length) h1
      rw [h0] at this
      exact this
    · intro b hb
      exact holders_setCall hc (hold b) (if_neg fun h => hb (some.inj h.2).symm)
  · rintro b ⟨⟩
    exact .inr ⟨Nat.le_refl _, ⟨_, 1⟩, getElem?_concat_length, hkind.symm⟩

end

theorem Inv.evicted_iff (hx : s.actions[a]? = some x) (hr : x.record = some r)
    (hu : x.undrained = true) : s.evicted a = true ↔ r.fence ≠ none := by
  constructor
  · intro he
    obtain ⟨z, hz, hp⟩ := any_eq_true.mp he
    simp only [Bool.and_eq_true, contains_iff_mem, decide_eq_true_eq] at hp
    obtain ⟨b, y, -, hy, hw⟩ := (hi.calls hz).waits a hp.2
    rw [hx] at hy
    cases hy
    have hk := hw hu
    rw [hp.1, hung, hr] at hk
    rw [show r.fence = some b from hk]
    exact some_ne_none b
  · intro hf
    obtain ⟨b, hb⟩ := ne_none_iff_exists'.mp hf
    obtain ⟨z, hz, hk, -, hfound⟩ := (hi.actions hx).hung .evict b (by rw [hung, hr]; exact hb)
    refine any_eq_true.mpr ⟨z, hz, ?_⟩
    simp only [Bool.and_eq_true, contains_iff_mem, decide_eq_true_eq]
    exact ⟨hk, hfound⟩

end

def Uncommitted (k : CallKind) (x : Action) : Prop := k = .commit → ∀ r ∈ x.record, r.drain = none

section

variable (hx : s.actions[a]? = some x)

include hx

variable (hr : x.record = some r)

include hr

theorem visit_some {found : List ActionId} {barrier : Option BarrierId}
    (hf : s.findings a x call = found)
    (harm : s.arm a x r { call with todo := todo, found := found } = (s', barrier)) :
    s.visit c call a todo =
      s'.setCall c { call with todo := todo, found := found, barrier := barrier } := by
  rw [visit, hx]
  simp only [hr, hf, harm]

/-- The record is passed as it is. -/
theorem visit_pass (hcommit : call.kind = .commit → call.barrier ≠ none)
    (hp : (r.hasPendingWork x.cell && (r.clone call.kind).isNone) = false)
    (hf : s.findings a x call = call.found) :
    s.visit c call a todo = s.setCall c { call with todo := todo } := by
  refine visit_some hx hr hf ?_
  unfold arm
  cases hk : call.kind with
  | evict =>
    rw [hk] at hp
    exact if_neg (Bool.eq_false_iff.mp hp)
  | commit =>
    rw [hk] at hp
    obtain ⟨b, hb⟩ := ne_none_iff_exists'.mp (hcommit hk)
    simp only [hb]
    exact if_neg (Bool.eq_false_iff.mp hp)

theorem visit_hang (hb : call.barrier = some b) (hp : r.hasPendingWork x.cell = true)
    (hn : r.clone call.kind = none) (hf : s.findings a x call = call.found ++ [a]) :
    s.visit c call a todo =
      ((s.clone b).setAction a { x with record := some (r.hang call.kind b) }).setCall c
        { call with todo := todo, found := call.found ++ [a] } := by
  refine visit_some hx hr hf ?_
  unfold arm
  cases hk : call.kind with
  | evict =>
    rw [hk] at hn
    have hfence : r.fence = none := hn
    simp [hb, hp, hfence, hang]
  | commit =>
    rw [hk] at hn
    have hdrain : r.drain = none := hn
    simp [hb, hp, hdrain, hang]

theorem visit_mint (hk : call.kind = .evict) (hb : call.barrier = none)
    (hp : r.hasPendingWork x.cell = true) (hn : r.fence = none)
    (hf : s.findings a x call = call.found ++ [a]) :
    s.visit c call a todo =
      ((((s.mint (.fence (fenceTokens s.barriers.length s.workerCount))).setCall c
        { call with barrier := some s.barriers.length }).clone s.barriers.length).setAction a
          { x with record := some (r.hang .evict s.barriers.length) }).setCall c
        { call with
          barrier := some s.barriers.length
          todo := todo
          found := call.found ++ [a] } := by
  have harm : s.arm a x r { call with todo := todo, found := call.found ++ [a] } =
      (((s.mint (.fence (fenceTokens s.barriers.length s.workerCount))).clone
        s.barriers.length).setAction a
          { x with record := some (r.hang .evict s.barriers.length) }, some s.barriers.length) := by
    simp [arm, hk, hb, hp, hn, hang]
  rw [visit_some hx hr hf harm]
  simp [setCall, setAction, clone, mint]

end

theorem Inv.visit (hi : s.Inv) (hc : s.calls[c]? = some call) (htodo : call.todo = a :: todo)
    (hready : ∀ x, s.actions[a]? = some x → x.undrained = true →
      Ready call.kind x ∧ Uncommitted call.kind x) : (s.visit c call a todo).Inv := by
  have hret := hi.running hc htodo
  have hcommit := (hi.calls (mem_of_getElem? hc)).commits
  cases hx : s.actions[a]? with
  | none =>
    rw [Engine.visit, hx]
    refine hi.skip hc htodo fun x hx' => ?_
    rw [hx] at hx'
    cases hx'
  | some x =>
    have hok := (hi.actions hx).ok
    cases hu : x.undrained with
    | false =>
      have hf : s.findings a x call = call.found := by
        simp [findings, hu]
      have hskip : (s.setCall c { call with todo := todo }).Inv := by
        refine hi.skip hc htodo fun y hy hyu => ?_
        rw [hx] at hy
        cases hy
        rw [hu] at hyu
        cases hyu
      cases hr : x.record with
      | none =>
        rw [Engine.visit, hx]
        simp only [hr, hf]
        exact hskip
      | some =>
        rw [visit_pass hx hr hcommit (by rw [hok.not_pending hr hu, Bool.false_and]) hf]
        exact hskip
    | true =>
      obtain ⟨hrd, hud⟩ := hready x hx hu
      cases hr : x.record with
      | none =>
        obtain ⟨hw, hh⟩ := hok.lost hu hr
        rcases hrd hw with h | ⟨-, r, h, -⟩
        · exact absurd h hh
        · rw [hr] at h
          cases h
      | some r =>
        cases hk : call.kind with
        | evict =>
          by_cases hfe : r.fence = none
          · have hev : s.evicted a = false := by
              rw [Bool.eq_false_iff]
              intro he
              exact (hi.evicted_iff hx hr hu).mp he hfe
            have hf : s.findings a x call = call.found ++ [a] := by
              simp [findings, hu, hev]
            have hh : x.work = .load → x.handle = .held := by
              intro hw
              rcases hrd hw with h | ⟨-, r', h, hne⟩
              · exact h
              rw [hr] at h
              cases h
              exact absurd hfe hne
            have hp := hok.isPending hr hu hh
            have hn : r.clone call.kind = none := by
              rw [hk]
              exact hfe
            cases hb : call.barrier with
            | some =>
              rw [visit_hang hx hr hb hp hn hf]
              exact hi.hang hc hret hb hx hr hu hh hn htodo rfl rfl rfl rfl rfl rfl
            | none =>
              rw [visit_mint hx hr hk hb hp hfe hf]
              have hc' : (s.calls.set c { call with barrier := some s.barriers.length })[c]? =
                  some { call with barrier := some s.barriers.length } :=
                List.getElem?_set_self (List.getElem?_eq_some_iff.mp hc).1
              refine (hi.mintFor hc hret hk hb).hang hc' hret rfl hx hr hu hh hn htodo rfl ?_
                rfl rfl rfl rfl
              rw [hk]
              rfl
          · have hev : s.evicted a = true := (hi.evicted_iff hx hr hu).mpr hfe
            have hf : s.findings a x call = call.found := by
              simp [findings, hk, hev]
            rw [visit_pass hx hr hcommit ?_ hf]
            · exact hi.skip hc htodo fun _ _ _ => .inr ⟨hk, hev⟩
            · rw [hk, Bool.and_eq_false_iff]
              exact .inr (isNone_eq_false_iff.mpr (isSome_iff_ne_none.mpr hfe))
        | commit =>
          have hn : r.clone call.kind = none := by
            rw [hk]
            exact hud hk r hr
          have hf : s.findings a x call = call.found ++ [a] := by
            simp [findings, hu, hk]
          have hh : x.work = .load → x.handle = .held := by
            intro hw
            rcases hrd hw with h | ⟨h, -⟩
            · exact h
            · rw [hk] at h
              cases h
          obtain ⟨b, hb⟩ := ne_none_iff_exists'.mp (hcommit hk)
          rw [visit_hang hx hr hb (hok.isPending hr hu hh) hn hf]
          exact hi.hang hc hret hb hx hr hu hh hn htodo rfl rfl rfl rfl rfl rfl

theorem Inv.outcome (hi : s.Inv) (hc : call ∈ s.calls) (hk : call.kind = .evict) :
    s.outcome call = call.barrier.elim [] (fenceTokens · s.workerCount) := by
  cases hb : call.barrier with
  | none => simp [Engine.outcome, hb]
  | some b =>
    obtain ⟨⟨kind, strong⟩, hw, hobj⟩ := (hi.calls hc).minted b hb
    rw [barrierKind, hk] at hobj
    cases hobj
    simp [Engine.outcome, hb, hw]

theorem Inv.leave (hi : s.Inv) (hc : s.calls[c]? = some call) (hret : call.returned = none)
    (htodo : call.todo = []) : (s.leave c call).Inv := by
  have hcmem : call ∈ s.calls := mem_of_getElem? hc
  have hgone : ∀ b, Call.clones b { call with returned := some (s.outcome call) } = 0 :=
    fun b => if_neg fun h => nomatch h.1
  have hn : ∀ s', Continues s s' call { call with returned := some (s.outcome call) } := fun _ =>
    { (hi.calls hcmem).continues with
      returned := .inr ⟨htodo, fun hk => congrArg some (hi.outcome hcmem hk)⟩ }
  cases hb : call.barrier with
  | none =>
    have hleave : s.leave c call = s.setCall c { call with returned := some (s.outcome call) } := by
      simp [Engine.leave, hb]
    rw [hleave]
    refine hi.recall hc rfl rfl rfl rfl (.refl _) (hi.balanced rfl rfl fun b => ?_) (hn _)
    exact holders_setCall hc (if_neg fun h => by rw [hb] at h; cases h.2) (hgone b)
  | some b =>
    have hleave : s.leave c call =
        (s.setCall c { call with returned := some (s.outcome call) }).dropClone b := by
      simp [Engine.leave, hb]
    rw [hleave]
    refine hi.recall hc rfl rfl rfl rfl dropShared_keeps ?_ (hn _)
    refine hi.books.drop (i := b) ?_ ?_
    · exact holders_setCall hc (if_pos ⟨hret, hb⟩) (hgone b)
    · intro j hj
      exact holders_setCall hc (if_neg fun h => hj (some.inj (h.2.symm.trans hb))) (hgone j)

/-! ### Steps -/

/-- The calls that the engine answers in time.  A load without a physical drain must have its
handle when a call of its request begins and when the call comes to it, unless an eviction
already made it wait; and a commit must not come to an action that an earlier one waits for. -/
def Timely (s : Engine) : Op → Prop
  | .evict req => ∀ x ∈ s.actions, x.requestId = req → x.undrained = true → Ready .evict x
  | .commit req => ∀ x ∈ s.actions, x.requestId = req → x.undrained = true → Ready .commit x
  | .visit c => ∀ call ∈ s.calls[c]?, ∀ a ∈ call.todo.head?, ∀ x ∈ s.actions[a]?,
      x.undrained = true → Ready call.kind x ∧ Uncommitted call.kind x
  | _ => True

instance (k : CallKind) (x : Action) : Decidable (Ready k x) := inferInstanceAs (Decidable (_ → _))

instance (k : CallKind) (x : Action) : Decidable (Uncommitted k x) :=
  inferInstanceAs (Decidable (_ → _))

instance (s : Engine) : DecidablePred s.Timely
  | .evict req => inferInstanceAs (Decidable (∀ x ∈ s.actions, x.requestId = req → _ → _))
  | .commit req => inferInstanceAs (Decidable (∀ x ∈ s.actions, x.requestId = req → _ → _))
  | .visit c => inferInstanceAs (Decidable (∀ call ∈ s.calls[c]?, ∀ a ∈ call.todo.head?, _))
  | .start _ _ | .finishLoad _ _ _ | .finishPhysicalLoad _ | .finishSave _ _ | .driver _
  | .releaseAction _ | .handle _ | .takeOffloadDrain _ | .leave _ =>
    inferInstanceAs (Decidable True)

theorem Inv.releaseAction (hi : s.Inv) (hx : s.actions[a]? = some x)
    (hs : s.step (.releaseAction a) = some s') : s'.Inv := by
  have hok := (hi.actions hx).ok
  simp only [step, hx] at hs
  split at hs
  · rename_i hh
    have halive : x.cellAlive = true := by rw [cellAlive, hh]
    split at hs
    · rename_i hr
      cases hs
      refine hi.setAction hx (hok.setHandle (hok.release hh fun r hr' => ?_) fun _ => halive)
      rw [hr] at hr'
      cases hr'
    · rename_i r hr
      split at hs
      · cases hs
        exact hi.setAction hx (hok.retain hr hh)
      rename_i hret
      cases hs
      refine hi.setAction hx (hok.setHandle (hok.release hh fun r' hr' => ?_) fun _ => halive)
      rw [hr] at hr'
      cases hr'
      exact Bool.eq_false_iff.mpr hret
  · cases hs

/-- A terminal that finds no record tells the worker of the load. -/
theorem Inv.emitLost (hi : s.Inv) (hx : s.actions[a]? = some x) (hr : x.record = none)
    (hd : x.driver = .running) (hsig : ∀ e ∈ signals, e.barrier = none) :
    ((s.emit signals).setAction a { x with driver := .settled [] }).Inv := by
  have hu : x.undrained = true := undrained_iff.mpr (.inl hd)
  exact hi.replace hx ((hi.actions hx).ok.lastLost hr hu fun _ => rfl) rfl rfl rfl rfl
    ⟨signals, rfl, hsig⟩ fun _ _ h => .inl h

theorem Inv.step (hi : s.Inv) {op : Op} (hok : s.Timely op) (hs : s.step op = some s') :
    s'.Inv := by
  cases op
  case releaseAction a =>
    cases hx : s.actions[a]? with
    | none =>
      simp only [Engine.step, hx] at hs
      cases hs
    | some => exact hi.releaseAction hx hs
  all_goals simp only [Engine.step] at hs
  case start work req =>
    split at hs
    · cases hs
      exact hi.start work req _
    · cases hs
  case finishLoad a outcome destIds =>
    split at hs
    · cases hs
    rename_i x hx
    split at hs
    · cases hs
    rename_i hg
    have ho : outcome.resolve destIds ≠ .pending := by
      unfold ActionStatus.resolve
      split
      · nofun
      · nofun
      · exact fun hc => hg (.inr hc)
    have hsig : ∀ e ∈ [Signal.markLoadFinished x.requestId
        (loadOutcomeOf (outcome.resolve destIds))], e.barrier = none :=
      forall_mem_singleton.mpr rfl
    split at hs
    · rename_i r hr
      cases hs
      exact hi.finishLoad hx hr ho
    rename_i hr
    split at hs
    · rename_i hd
      cases hs
      exact hi.emitLost hx hr hd hsig
    · cases hs
      exact hi.updateActions ⟨rfl, .refl _, hi.books.log_other hsig, .refl _⟩
        (hi.kept (.refl _) rfl) rfl
  case finishPhysicalLoad =>
    split at hs
    · cases hs
    rename_i x hx
    split at hs
    · rename_i hd
      split at hs
      · rename_i r hr
        cases hs
        exact hi.finishPhysicalLoad hx hr hd
      · rename_i hr
        cases hs
        exact hi.setAction hx ((hi.actions hx).ok.lastLost hr (undrained_iff.mpr (.inr hd))
          fun _ => rfl)
    · cases hs
  case finishSave a outcome =>
    split at hs
    · cases hs
    rename_i x hx
    split at hs
    · cases hs
    rename_i hg
    have ho : outcome ≠ .pending := fun hc => hg (.inr hc)
    split at hs
    · rename_i r hr
      cases hs
      exact hi.finishSave hx hr ho
    rename_i hr
    split at hs
    · rename_i hd
      cases hs
      exact hi.setAction hx ((hi.actions hx).ok.lastLost hr (undrained_iff.mpr (.inl hd))
        fun _ => rfl)
    · cases hs
      exact hi
  case driver =>
    split at hs
    · cases hs
    rename_i x hx
    split at hs
    · rename_i e rest hd
      cases hs
      exact hi.driver hx hd
    · cases hs
  case handle =>
    split at hs
    · cases hs
    rename_i x hx
    split at hs
    · rename_i e rest hh
      cases hs
      exact hi.handle hx hh
    · cases hs
  case takeOffloadDrain =>
    split at hs <;> cases hs
    · exact hi.updateActions ⟨rfl, .refl _, hi.books, .refl _⟩ (hi.kept (.refl _) rfl) rfl
    · exact hi
  case evict =>
    split at hs
    · cases hs
      refine hi.begin hok rfl rfl ⟨rfl, .refl _, hi.balanced rfl rfl fun b => ?_, .refl _⟩ rfl nofun
        nofun
      simp [holders, Call.clones]
    · cases hs
  case commit req =>
    split at hs
    · cases hs
      refine hi.begin hok rfl rfl ⟨rfl, mintShared_keeps, ?_, .refl _⟩ rfl nofun ?_
      · refine hi.books.mint (signals_tagged .commit req 0 s.barriers.length) ?_ ?_
        · have h0 := hi.books.fresh _ (Nat.le_refl s.barriers.length)
          rw [holders] at h0
          simp only [holders, mint, tally_append, tally_cons, tally_nil, Call.clones]
          simp only [and_self, if_true]
          omega
        · intro b hb
          have hne : s.barriers.length ≠ b := Ne.symm hb
          simp [holders, mint, Call.clones, hne]
      · intro b hb
        cases hb
        exact ⟨Nat.le_refl _, ⟨_, 1⟩, getElem?_concat_length, rfl⟩
    · cases hs
  case visit =>
    split at hs
    · rename_i call hc
      split at hs
      · rename_i a todo htodo
        cases hs
        exact hi.visit hc htodo fun x hx hu => hok call hc a (by rw [htodo]; rfl) x hx hu
      · cases hs
    · cases hs
  case leave =>
    split at hs
    · rename_i call hc
      split at hs
      · rename_i hg
        cases hs
        exact hi.leave hc hg.2 hg.1
      · cases hs
    · cases hs

end Engine

end Kvbm.Tiering
