/-
A transfer through a bounce buffer carries every pair once.

The workers own different bounce blocks, so nobody overwrites what another has staged, and the
destinations are distinct, so nobody overwrites what has landed.  The event is triggered only after
both workers have returned, and by then the iterator is empty and every chunk has had both hops.

Two things break the report.  Without a single bounce block both workers return at once, and the
event is triggered with nothing copied.  And an error of one worker drops the other in the middle
of a hop, so the event is poisoned and the registrations are dropped while that hop still writes.
-/
import Kvbm.Lib.Run
import Kvbm.Lib.Table
import Kvbm.Transfer.TwoHop

namespace Kvbm.Transfer

open Lib List Option State

variable {C : Type} {r : TwoHop C} {s s' : State C} {v w k : Nat} {x x' : Worker} {l : Lane}

/-! ### The request -/

namespace TwoHop

/-- What the caller sees to: the ids of one kind are distinct. -/
structure Wf (r : TwoHop C) : Prop where
  lengths : r.srcBlockIds.length = r.dstBlockIds.length
  dst : r.dstBlockIds.Nodup
  bounce : ∀ spec ∈ r.bounceBuffer, spec.blockIds.Nodup

theorem Wf.bounceGroups_nodup (h : r.Wf) {spec : BounceBuffer} (hspec : spec ∈ r.bounceBuffer) :
    (r.bounceGroups spec.blockIds).flatten.Nodup := by
  have hn := h.bounce spec hspec
  unfold bounceGroups
  split
  · simpa using hn
  · simp only [flatten_cons, flatten_nil, append_nil, take_append_drop]
    exact hn.sublist (take_sublist _ _)

theorem Wf.groups_nodup (h : r.Wf) : (r.groups.getD []).flatten.Nodup := by
  unfold groups
  split
  · exact nodup_nil
  rename_i spec hspec
  split
  · exact nodup_nil
  · exact h.bounceGroups_nodup hspec

variable {b : BlockId}

theorem mem_group (hb : b ∈ r.group w) :
    ∃ group, (r.groups.getD [])[w]? = some group ∧ b ∈ group := by
  unfold group at hb
  cases hg : (r.groups.getD [])[w]? with
  | none => rw [hg] at hb; cases hb
  | some group => rw [hg] at hb; exact ⟨group, rfl, hb⟩

/-- **No bounce block belongs to two workers.** -/
theorem Wf.group_disjoint (h : r.Wf) (hvw : v ≠ w) (hv : b ∈ r.group v)
    (hw : b ∈ r.group w) : False := by
  obtain ⟨gv, hgv, hbv⟩ := mem_group hv
  obtain ⟨gw, hgw, hbw⟩ := mem_group hw
  have hpair := (nodup_flatten.mp h.groups_nodup).2
  obtain ⟨hv', rfl⟩ := List.getElem?_eq_some_iff.mp hgv
  obtain ⟨hw', rfl⟩ := List.getElem?_eq_some_iff.mp hgw
  rcases Nat.lt_or_gt_of_ne hvw with hlt | hlt
  · exact pairwise_iff_getElem.mp hpair v w hv' hw' hlt hbv hbw
  · exact pairwise_iff_getElem.mp hpair w v hw' hv' hlt hbw hbv

theorem Wf.group_nodup (h : r.Wf) : (r.group w).Nodup := by
  unfold group
  cases hg : (r.groups.getD [])[w]? with
  | none => exact nodup_nil
  | some group =>
    exact (nodup_flatten.mp h.groups_nodup).1 group (mem_of_getElem? hg)

/-- There is a bounce block if there is a pair. -/
def Bounced (r : TwoHop C) : Prop :=
  ∀ spec ∈ r.bounceBuffer, spec.blockIds = [] → r.srcBlockIds = []

/-- Then some worker has a bounce block. -/
theorem Bounced.exists_group (h : r.Bounced) (hg : r.groups ≠ none) (hne : r.srcBlockIds ≠ []) :
    ∃ w < (r.groups.getD []).length, r.group w ≠ [] := by
  unfold group
  unfold groups at hg ⊢
  split at hg
  · exact absurd rfl hg
  rename_i spec hspec
  split at hg
  · exact absurd rfl hg
  rename_i hloc
  have hids : spec.blockIds ≠ [] := fun he => hne (h spec hspec he)
  have hpos : 0 < spec.blockIds.length := length_pos_iff.mpr hids
  have hpairs : 0 < r.srcBlockIds.length := length_pos_iff.mpr hne
  simp only [if_neg hloc, getD_some, bounceGroups]
  split
  · exact ⟨0, Nat.one_pos, hids⟩
  refine ⟨1, Nat.one_lt_two, ?_⟩
  apply ne_nil_of_length_pos
  simp only [getElem?_cons_succ, getElem?_cons_zero, getD_some, length_drop, length_take]
  omega

theorem Wf.pair_unique (h : r.Wf) {p q : BlockId × BlockId} (hp : p ∈ r.pairs) (hq : q ∈ r.pairs)
    (heq : p.2 = q.2) : p = q := by
  have hdst : (r.pairs.map Prod.snd).Nodup := by
    rw [pairs, map_snd_zip (Nat.le_of_eq h.lengths.symm)]
    exact h.dst
  exact inj_on_of_nodup_map hdst hp hq heq

end TwoHop

/-! ### What a worker relies on -/

namespace Worker

theorem drop_drop (x : Worker) : x.drop.drop = x.drop := by
  cases x <;> rfl

theorem isRunning_drop (x : Worker) : x.isRunning = x.drop.isRunning := by
  cases x with
  | awaiting hop k todo status => cases status <;> rfl
  | dropped hop k todo status => cases status <;> rfl
  | idle | launching | done | gone => rfl

/-- The hop it awaits has failed. -/
def hasFailed : Worker → Bool
  | .awaiting _ _ _ .failed => true
  | _ => false

theorem chunk?_of_drop (x : Worker) (h : x.drop.chunk? = some k) : x.chunk? = some k := by
  cases x with
  | awaiting | dropped => exact h
  | idle | launching | done | gone => cases h

end Worker

namespace State

/-- The bounce block of the lane holds the content of its source. -/
def Staged (r : TwoHop C) (s : State C) (l : Lane) : Prop := s.bounce l.bounce = r.src l.src

/-- The destination of the pair holds the content of its source. -/
def Landed (r : TwoHop C) (s : State C) (p : BlockId × BlockId) : Prop := s.dst p.2 = r.src p.1

/-- What a hop does with a lane. -/
def Reached (r : TwoHop C) (s : State C) : Hop → Lane → Prop
  | .first, l => s.Staged r l
  | .second, l => s.Landed r (l.src, l.dst)

/-- The first hop lies behind the lanes of the second. -/
def Ready (r : TwoHop C) (s : State C) (w k : Nat) : Hop → Prop
  | .first => True
  | .second => (Hop.first, k) ∈ s.completed ∧ ∀ l ∈ s.lanes r w k, s.Staged r l

/-- A hop that still has to copy `todo` has done the rest. -/
structure HopOk (r : TwoHop C) (s : State C) (w : Nat) (hop : Hop) (k : Nat) (todo : List Lane)
    (status : HopStatus) : Prop where
  ready : s.Ready r w k hop
  inside : ∀ l ∈ todo, l ∈ s.lanes r w k
  reached : ∀ l ∈ s.lanes r w k, l ∈ todo ∨ s.Reached r hop l
  ended : status = .completed → todo = [] ∧ (hop, k) ∈ s.completed

/-- While nothing has failed, no worker has been dropped. -/
def WorkerOk (r : TwoHop C) (s : State C) (w : Nat) : Worker → Prop
  | .idle => True
  | .launching hop k => s.Ready r w k hop
  | .awaiting hop k todo status => s.HopOk r w hop k todo status
  | .done => True
  | .dropped _ _ _ _ => False
  | .gone => False

/-- Both hops of the chunk have completed, and its pairs have landed. -/
structure Finished (r : TwoHop C) (s : State C) (k : Nat) : Prop where
  first : (Hop.first, k) ∈ s.completed
  second : (Hop.second, k) ∈ s.completed
  landed : ∀ p ∈ (s.taken[k]?).getD [], s.Landed r p

/-- The lane of a pair goes through the bounce block at the same place of the group. -/
theorem mem_lanes : l ∈ s.lanes r w k ↔ ∃ i : Nat,
    ((s.taken[k]?).getD [])[i]? = some (l.src, l.dst) ∧ (r.group w)[i]? = some l.bounce := by
  simp only [mem_iff_getElem?, lanes, getElem?_zipWith_eq_some]
  constructor
  · rintro ⟨i, p, b, hp, hb, rfl⟩
    exact ⟨i, hp, hb⟩
  · rintro ⟨i, hp, hb⟩
    exact ⟨i, _, _, hp, hb, rfl⟩

theorem bounce_mem (hl : l ∈ s.lanes r w k) : l.bounce ∈ r.group w :=
  have ⟨_, _, hb⟩ := mem_lanes.mp hl
  mem_of_getElem? hb

theorem pair_mem (hl : l ∈ s.lanes r w k) : (l.src, l.dst) ∈ (s.taken[k]?).getD [] :=
  have ⟨_, hp, _⟩ := mem_lanes.mp hl
  mem_of_getElem? hp

variable {p : BlockId × BlockId} {ok : Bool} {l' : Lane} {todo : List Lane} {i : Nat} {hop : Hop}

theorem exists_lane (hfit : ((s.taken[k]?).getD []).length ≤ (r.group w).length)
    (hp : p ∈ (s.taken[k]?).getD []) : ∃ l ∈ s.lanes r w k, (l.src, l.dst) = p := by
  obtain ⟨i, hi⟩ := mem_iff_getElem?.mp hp
  have hlt : i < (r.group w).length := Nat.lt_of_lt_of_le (List.getElem?_eq_some_iff.mp hi).1 hfit
  exact ⟨⟨p.1, (r.group w)[i], p.2⟩, mem_lanes.mpr ⟨i, hi, getElem?_eq_getElem hlt⟩, rfl⟩

/-- What a step of worker `w` leaves the others with. -/
structure Keeps (r : TwoHop C) (w : Nat) (s s' : State C) : Prop where
  taken : ∀ k < s.taken.length, s'.taken[k]? = s.taken[k]?
  completed : ∀ e ∈ s.completed, e ∈ s'.completed
  staged : ∀ v ≠ w, ∀ l, l.bounce ∈ r.group v → s.Staged r l → s'.Staged r l
  landed : ∀ p ∈ r.pairs, s.Landed r p → s'.Landed r p

theorem Keeps.lanes_eq (h : Keeps r w s s') (hk : k < s.taken.length) :
    s'.lanes r v k = s.lanes r v k := by
  unfold lanes
  rw [h.taken k hk]

theorem Keeps.ready (h : Keeps r w s s') (hv : v ≠ w) (hk : k < s.taken.length)
    (hs : s.Ready r v k hop) : s'.Ready r v k hop := by
  cases hop with
  | first => trivial
  | second =>
    refine ⟨h.completed _ hs.1, fun l hl => ?_⟩
    rw [h.lanes_eq hk] at hl
    exact h.staged v hv l (bounce_mem hl) (hs.2 l hl)

/-! ### The invariant -/

/-- What holds while nothing has failed. -/
structure Live (r : TwoHop C) (s : State C) : Prop where
  ok : ∀ (w : Nat) x, s.workers[w]? = some x → s.WorkerOk r w x
  finished : ∀ k < s.taken.length,
    (∃ (w : Nat) (x : Worker), s.workers[w]? = some x ∧ x.chunk? = some k) ∨ s.Finished r k
  exhausted : ∀ w : Nat, s.workers[w]? = some .done → r.group w ≠ [] → s.rest = []

structure Inv (r : TwoHop C) (s : State C) : Prop where
  taken : s.taken.flatten ++ s.rest = r.pairs
  workers : s.workers.length = (r.groups.getD []).length
  chunk : ∀ (w : Nat) x k, s.workers[w]? = some x → x.chunk? = some k →
    k < s.taken.length ∧ ((s.taken[k]?).getD []).length ≤ (r.group w).length
  live : s.joined ≠ some false → s.Live r
  ungrouped : r.groups = none → s.joined = some false
  succeeded : s.joined = some true → ∀ x ∈ s.workers, x = .done
  quiet : s.joined = some false → ∀ x ∈ s.workers, x.drop = x ∧ x.isRunning = false
  published : ∀ ok, s.published = some ok → s.joined = some ok
  guarded : s.guarded = false → s.published ≠ none

theorem pair_of_chunk (hi : s.Inv r) (hp : p ∈ (s.taken[k]?).getD []) : p ∈ r.pairs := by
  cases hk : s.taken[k]? with
  | none => rw [hk] at hp; cases hp
  | some chunk =>
    rw [hk] at hp
    rw [← hi.taken]
    exact mem_append_left _ (mem_flatten.mpr ⟨chunk, mem_of_getElem? hk, hp⟩)

theorem Keeps.reached (hi : s.Inv r) (h : Keeps r w s s') (hv : v ≠ w) (hl : l ∈ s.lanes r v k)
    (hs : s.Reached r hop l) : s'.Reached r hop l := by
  cases hop with
  | first => exact h.staged v hv l (bounce_mem hl) hs
  | second => exact h.landed _ (pair_of_chunk hi (pair_mem hl)) hs

theorem WorkerOk.keep (hi : s.Inv r) (h : Keeps r w s s') (hv : v ≠ w)
    (hx : s.workers[v]? = some x) (hok : s.WorkerOk r v x) : s'.WorkerOk r v x := by
  cases x with
  | idle | done => trivial
  | gone | dropped => exact hok
  | launching hop k => exact h.ready hv (hi.chunk v _ k hx rfl).1 hok
  | awaiting hop k todo status =>
    have hok : s.HopOk r v hop k todo status := hok
    have hk := (hi.chunk v _ k hx rfl).1
    have hlanes : s'.lanes r v k = s.lanes r v k := h.lanes_eq hk
    refine ⟨h.ready hv hk hok.ready, ?_, ?_, fun hst => (hok.ended hst).imp id (h.completed _)⟩
    · rw [hlanes]
      exact hok.inside
    · rw [hlanes]
      intro l hl
      exact (hok.reached l hl).imp_right (h.reached hi hv hl)

theorem Finished.keep (hi : s.Inv r) (h : Keeps r w s s') (hk : k < s.taken.length)
    (hf : s.Finished r k) : s'.Finished r k where
  first := h.completed _ hf.first
  second := h.completed _ hf.second
  landed p hp := by
    rw [h.taken k hk] at hp
    exact h.landed p (pair_of_chunk hi hp) (hf.landed p hp)

/-- One worker moves, and the report is as it was. -/
structure Moves (r : TwoHop C) (s s' : State C) (w : Nat) (x' : Worker) : Prop where
  workers : s'.workers = s.workers.set w x'
  joined : s'.joined = s.joined
  published : s'.published = s.published
  guarded : s'.guarded = s.guarded
  taken : s'.taken.flatten ++ s'.rest = s.taken.flatten ++ s.rest
  grows : s.taken.length ≤ s'.taken.length
  rest : s.rest = [] → s'.rest = []
  keeps : Keeps r w s s'

theorem Inv.move (hi : s.Inv r) (hnone : s.joined = none) (hx : s.workers[w]? = some x)
    (h : Moves r s s' w x')
    (hchunk : ∀ k, x'.chunk? = some k →
      k < s'.taken.length ∧ ((s'.taken[k]?).getD []).length ≤ (r.group w).length)
    (hok : s'.WorkerOk r w x')
    (hfin : ∀ k < s'.taken.length, (k < s.taken.length ∧ x.chunk? ≠ some k) ∨
      x'.chunk? = some k ∨ s'.Finished r k)
    (hdone : x' = .done → r.group w ≠ [] → s'.rest = []) : s'.Inv r := by
  have hjoined : s'.joined = none := h.joined.trans hnone
  have hne : s.joined ≠ some false := by rw [hnone]; nofun
  have hlive := hi.live hne
  have hw : (s.workers.set w x')[w]? = some x' := by
    rw [getElem?_set_of hx hx, if_pos rfl]
  refine ⟨h.taken.trans hi.taken, ?_, ?_, fun _ => ⟨?_, ?_, ?_⟩, fun hg => absurd
    (hi.ungrouped hg) hne, ?_, ?_, ?_, ?_⟩
  · rw [h.workers, length_set]
    exact hi.workers
  · intro v y k hy hk
    rw [h.workers] at hy
    rcases getElem?_set_cases hx hy with ⟨rfl, rfl⟩ | ⟨-, hy⟩
    · exact hchunk k hk
    obtain ⟨hlt, hfit⟩ := hi.chunk v y k hy hk
    rw [h.keeps.taken k hlt]
    exact ⟨Nat.lt_of_lt_of_le hlt h.grows, hfit⟩
  · intro v y hy
    rw [h.workers] at hy
    rcases getElem?_set_cases hx hy with ⟨rfl, rfl⟩ | ⟨hv, hy⟩
    · exact hok
    · exact (hlive.ok v y hy).keep hi h.keeps hv hy
  · intro k hk
    rcases hfin k hk with ⟨hlt, hne⟩ | hnew | hdone
    · rcases hlive.finished k hlt with ⟨v, y, hy, hky⟩ | hf
      · have hv : v ≠ w := by
          intro hvw
          subst hvw
          cases hx.symm.trans hy
          exact hne hky
        refine .inl ⟨v, y, ?_, hky⟩
        rw [h.workers, getElem?_set_of hx hy, if_neg hv]
      · exact .inr (hf.keep hi h.keeps hlt)
    · exact .inl ⟨w, x', by rw [h.workers]; exact hw, hnew⟩
    · exact .inr hdone
  · intro v hy hne
    rw [h.workers] at hy
    rcases getElem?_set_cases hx hy with ⟨rfl, hx'⟩ | ⟨-, hy⟩
    · exact hdone hx'.symm hne
    · exact h.rest (hlive.exhausted v hy hne)
  · rw [hjoined]
    nofun
  · rw [hjoined]
    nofun
  · rw [h.published, h.joined]
    exact hi.published
  · rw [h.guarded, h.published]
    exact hi.guarded

/-! ### Steps -/

theorem keeps_report (w : Nat) (workers : List Worker) (joined published : Option Bool)
    (guarded : Bool) : Keeps r w s { s with workers, joined, published, guarded } :=
  ⟨fun _ _ => rfl, fun _ he => he, fun _ _ _ _ hs => hs, fun _ _ hl => hl⟩

theorem Live.report (hs : s.Live r) (hi : s.Inv r) (joined published : Option Bool)
    (guarded : Bool) : { s with joined, published, guarded }.Live r where
  ok v x hx := (hs.ok v x hx).keep hi (keeps_report ..) (Nat.ne_add_one v) hx
  finished k hk := (hs.finished k hk).imp_right (·.keep hi (keeps_report 0 ..) hk)
  exhausted := hs.exhausted

theorem moves_setWorker : Moves r s (s.setWorker w x') w x' :=
  ⟨rfl, rfl, rfl, rfl, rfl, Nat.le_refl _, id, keeps_report ..⟩

section

variable (hi : s.Inv r)

include hi

/-- A worker that is not at its end works for a transfer that is not either. -/
theorem Inv.joined_none (hx : s.workers[w]? = some x) (hdone : x ≠ .done)
    (hlive : x.drop = x → x.isRunning = true) : s.joined = none := by
  have hm := mem_of_getElem? hx
  cases hj : s.joined with
  | none => rfl
  | some ok =>
    cases ok with
    | true => exact absurd (hi.succeeded hj x hm) hdone
    | false =>
      obtain ⟨hd, hr⟩ := hi.quiet hj x hm
      rw [hlive hd] at hr
      cases hr

theorem Inv.ok_of_none (hnone : s.joined = none) (hx : s.workers[w]? = some x) : s.WorkerOk r w x :=
  (hi.live (by rw [hnone]; nofun)).ok w x hx

theorem Inv.stay (hnone : s.joined = none) (hx : s.workers[w]? = some x) (h : Moves r s s' w x')
    (hk : x.chunk? = some k) (hk' : x'.chunk? = some k) (htaken : s'.taken = s.taken)
    (hok : s'.WorkerOk r w x') : s'.Inv r := by
  refine hi.move hnone hx h ?_ hok ?_ ?_
  · intro k' hk''
    obtain rfl : k = k' := some.inj (hk'.symm.trans hk'')
    rw [htaken]
    exact hi.chunk w x k hx hk
  · intro k' hlt
    rw [htaken] at hlt
    by_cases heq : k = k'
    · exact .inr (.inl (heq ▸ hk'))
    · exact .inl ⟨hlt, fun h' => heq (some.inj (hk.symm.trans h'))⟩
  · intro hdone
    subst hdone
    cases hk'

theorem Inv.take (h : s.take r w = some s') : s'.Inv r := by
  unfold State.take at h
  split at h
  · rename_i hx
    have hnone := hi.joined_none hx nofun nofun
    simp only at h
    split at h
    · rename_i hempty
      cases h
      refine hi.move hnone hx moves_setWorker nofun trivial (fun k hk => .inl ⟨hk, nofun⟩) ?_
      intro _ hne
      have hzero : r.group w = [] ∨ s.rest = [] := by simpa using hempty
      exact hzero.resolve_left hne
    · cases h
      have hnew : (s.taken ++ [s.rest.take (r.group w).length])[s.taken.length]? =
          some (s.rest.take (r.group w).length) := getElem?_concat_length
      refine hi.move hnone hx ⟨rfl, rfl, rfl, rfl, ?_, ?_, ?_, ?_⟩ ?_ trivial ?_ nofun
      · simp
      · simp
      · intro hrest
        simp [hrest]
      · exact ⟨fun k hk => getElem?_append_left hk, fun _ he => he, fun _ _ _ _ hs => hs,
          fun _ _ hl => hl⟩
      · intro k hk
        cases hk
        rw [hnew]
        simp
      · intro k hk
        rcases Nat.lt_or_ge k s.taken.length with hlt | hge
        · exact .inl ⟨hlt, nofun⟩
        refine .inr (.inl (congrArg some ?_))
        have : k < s.taken.length + 1 := by simpa using hk
        omega
  · cases h

/-- The other futures are dropped while no hop runs. -/
theorem Inv.fail (hnone : s.joined = none) (hcalm : ∀ x ∈ s.workers, x.isRunning = false) :
    (s.fail w).Inv r := by
  refine ⟨hi.taken, ?_, ?_, fun hne => absurd rfl hne, fun _ => rfl, nofun, ?_, ?_, hi.guarded⟩
  · simp [State.fail, hi.workers]
  · intro v y k hy hk
    have hy : ((s.workers.map Worker.drop).set w .gone)[v]? = some y := hy
    rw [getElem?_set] at hy
    split at hy
    · split at hy
      · cases hy
        cases hk
      · cases hy
    · obtain ⟨x, hx, rfl⟩ := getElem?_map .. ▸ hy |> map_eq_some_iff.mp
      exact hi.chunk v x k hx (x.chunk?_of_drop hk)
  · intro _ x hx
    rcases mem_or_eq_of_mem_set hx with hx | rfl
    · obtain ⟨y, hy, rfl⟩ := mem_map.mp hx
      exact ⟨y.drop_drop, y.isRunning_drop ▸ hcalm y hy⟩
    · exact ⟨rfl, rfl⟩
  · intro ok hp
    have := hi.published ok hp
    rw [hnone] at this
    cases this

theorem Inv.launch (h : s.launch r w ok = some s')
    (hcalm : ok = false → ∀ x ∈ s.workers, x.isRunning = false) : s'.Inv r := by
  unfold State.launch at h
  split at h
  · rename_i hop k hx
    have hnone := hi.joined_none hx nofun nofun
    split at h
    · cases h
      exact hi.stay hnone hx moves_setWorker rfl rfl rfl
        ⟨hi.ok_of_none hnone hx, fun _ hl => hl, fun _ hl => .inl hl, nofun⟩
    · rename_i hok
      cases h
      exact hi.fail hnone (hcalm (Bool.not_eq_true _ ▸ hok))
  · cases h

omit hi in
theorem lane_unique (hr : r.Wf) (hl : l ∈ s.lanes r w k) (hl' : l' ∈ s.lanes r w k)
    (heq : l.bounce = l'.bounce) : l = l' := by
  obtain ⟨i, hp, hb⟩ := mem_lanes.mp hl
  obtain ⟨j, hq, hc⟩ := mem_lanes.mp hl'
  rw [← heq] at hc
  obtain rfl : i = j :=
    (List.getElem?_inj (List.getElem?_eq_some_iff.mp hb).1 hr.group_nodup).mp (hb.trans hc.symm)
  obtain ⟨src, bounce, dst⟩ := l
  obtain ⟨src', bounce', dst'⟩ := l'
  cases hp.symm.trans hq
  cases heq
  rfl

omit hi in
theorem mem_eraseIdx_of_ne (hl : todo[i]? = some l)
    (hl' : l' ∈ todo) (hne : l' ≠ l) : l' ∈ todo.eraseIdx i := by
  obtain ⟨j, hj⟩ := mem_iff_getElem?.mp hl'
  refine mem_eraseIdx_iff_getElem?.mpr ⟨j, ?_, hj⟩
  intro hij
  subst hij
  cases hl.symm.trans hj
  exact hne rfl

omit hi in
/-- One block goes into the bounce buffer, where only its own lane is staged, or reaches its
destination, where it belongs. -/
theorem copy_moves (hr : r.Wf) (hi : s.Inv r) (hl : l ∈ s.lanes r w k) (hs : s.Ready r w k hop)
    (x' : Worker) : Moves r s ((s.copyLane r hop l).setWorker w x') w x' := by
  cases hop with
  | first =>
    refine ⟨rfl, rfl, rfl, rfl, rfl, Nat.le_refl _, id, fun _ _ => rfl, fun _ he => he, ?_,
      fun _ _ h => h⟩
    intro v hv l' hb hs
    have hne : l'.bounce ≠ l.bounce := fun heq =>
      hr.group_disjoint hv hb (heq ▸ bounce_mem hl)
    exact (if_neg hne).trans hs
  | second =>
    refine ⟨rfl, rfl, rfl, rfl, rfl, Nat.le_refl _, id, fun _ _ => rfl, fun _ he => he,
      fun _ _ _ _ h => h, ?_⟩
    intro p hp hland
    by_cases heq : p.2 = l.dst
    · have hpl : p = (l.src, l.dst) := hr.pair_unique hp (pair_of_chunk hi (pair_mem hl)) heq
      subst hpl
      exact (if_pos rfl).trans (hs.2 l hl)
    · exact (if_neg heq).trans hland

omit hi in
/-- The lane is done, and the others of the worker are as they were. -/
theorem copy_reached (hr : r.Wf) (hi : s.Inv r) (hl : l ∈ s.lanes r w k) (hs : s.Ready r w k hop)
    (hl' : l' ∈ s.lanes r w k) (h : l' = l ∨ s.Reached r hop l') :
    (s.copyLane r hop l).Reached r hop l' := by
  by_cases heq : l' = l
  · subst heq
    cases hop with
    | first => exact if_pos rfl
    | second => exact (if_pos rfl).trans (hs.2 l' hl)
  · have hreached := h.resolve_left heq
    cases hop with
    | first =>
      have hne : l'.bounce ≠ l.bounce := fun hb => heq (lane_unique hr hl' hl hb)
      exact (if_neg hne).trans hreached
    | second =>
      exact (copy_moves hr hi hl hs .idle).keeps.landed _ (pair_of_chunk hi (pair_mem hl')) hreached

omit hi in
theorem Inv.copy (hr : r.Wf) (hi : s.Inv r) (h : s.copy r w i = some s') : s'.Inv r := by
  unfold State.copy at h
  split at h
  · rename_i hop k todo hx
    have hnone := hi.joined_none hx nofun nofun
    have hok : s.HopOk r w hop k todo .running := hi.ok_of_none hnone hx
    obtain ⟨l, hl, rfl⟩ := map_eq_some_iff.mp h
    have hlane := hok.inside l (mem_of_getElem? hl)
    refine hi.stay hnone hx (copy_moves hr hi hlane hok.ready _) rfl rfl (by cases hop <;> rfl)
      ⟨by cases hop <;> exact hok.ready, ?_, ?_, nofun⟩
    · intro l' hl'
      have hin := hok.inside l' (mem_of_mem_eraseIdx hl')
      cases hop <;> exact hin
    · intro l' hl'
      have hl' : l' ∈ s.lanes r w k := by cases hop <;> exact hl'
      by_cases heq : l' = l
      · exact .inr (copy_reached hr hi hlane hok.ready hl' (.inl heq))
      · exact (hok.reached l' hl').imp (mem_eraseIdx_of_ne hl · heq)
          fun hs => copy_reached hr hi hlane hok.ready hl' (.inr hs)
  · rename_i hop k todo hx
    exact absurd (hi.ok_of_none (hi.joined_none hx nofun fun _ => rfl) hx) id
  · cases h

theorem Inv.finish (h : s.finish w ok = some s') : s'.Inv r := by
  unfold State.finish at h
  split at h
  · rename_i hop k todo hx
    have hnone := hi.joined_none hx nofun nofun
    have hok : s.HopOk r w hop k todo .running := hi.ok_of_none hnone hx
    split at h
    · split at h
      · rename_i hempty
        cases h
        have htodo : todo = [] := isEmpty_iff.mp hempty
        have hmove : Moves r s { s.setWorker w (.awaiting hop k todo .completed) with
            completed := (hop, k) :: s.completed } w (.awaiting hop k todo .completed) :=
          ⟨rfl, rfl, rfl, rfl, rfl, Nat.le_refl _, id, fun _ _ => rfl,
            fun _ he => mem_cons_of_mem _ he, fun _ _ _ _ hs => hs, fun _ _ hl => hl⟩
        refine hi.stay hnone hx hmove rfl rfl rfl
          ⟨?_, hok.inside, fun l hl => ?_, fun _ => ⟨htodo, mem_cons_self⟩⟩
        · cases hop with
          | first => trivial
          | second => exact hok.ready.imp (mem_cons_of_mem _) id
        · have := hok.reached l hl
          cases hop <;> exact this
      · cases h
    · cases h
      refine hi.stay hnone hx moves_setWorker rfl rfl rfl
        ⟨hok.ready, hok.inside, fun l hl => ?_, nofun⟩
      have := hok.reached l hl
      cases hop <;> exact this
  · rename_i hop k todo hx
    exact absurd (hi.ok_of_none (hi.joined_none hx nofun fun _ => rfl) hx) id
  · cases h

theorem Inv.finishes (hx : s.workers[w]? = some (.awaiting .second k todo .completed))
    (hok : s.WorkerOk r w (.awaiting .second k todo .completed)) : s.Finished r k := by
  have hok : s.HopOk r w .second k todo .completed := hok
  obtain ⟨htodo, hcompleted⟩ := hok.ended rfl
  refine ⟨hok.ready.1, hcompleted, ?_⟩
  intro p hp
  obtain ⟨l, hl, rfl⟩ := exists_lane (hi.chunk w _ k hx rfl).2 hp
  refine (hok.reached l hl).resolve_left ?_
  rw [htodo]
  nofun

theorem Inv.wake (h : s.wake w = some s')
    (hcalm : ∀ hop k todo, s.workers[w]? = some (.awaiting hop k todo .failed) →
      ∀ x ∈ s.workers, x.isRunning = false) : s'.Inv r := by
  unfold State.wake at h
  split at h
  · rename_i k todo hx
    cases h
    have hnone := hi.joined_none hx nofun nofun
    have hok : s.HopOk r w .first k todo .completed := hi.ok_of_none hnone hx
    obtain ⟨htodo, hcompleted⟩ := hok.ended rfl
    refine hi.stay hnone hx moves_setWorker rfl rfl rfl ⟨hcompleted, ?_⟩
    intro l hl
    refine (hok.reached l hl).resolve_left ?_
    rw [htodo]
    nofun
  · rename_i k todo hx
    cases h
    have hnone := hi.joined_none hx nofun nofun
    have hfinished := hi.finishes hx (hi.ok_of_none hnone hx)
    refine hi.move hnone hx moves_setWorker nofun trivial ?_ nofun
    intro k' hk
    by_cases heq : k = k'
    · subst heq
      exact .inr (.inr ⟨hfinished.first, hfinished.second, hfinished.landed⟩)
    · exact .inl ⟨hk, fun h' => heq (some.inj h')⟩
  · rename_i hop k todo hx
    cases h
    exact hi.fail (hi.joined_none hx nofun nofun) (hcalm hop k todo hx)
  · cases h

theorem Inv.join (hnone : s.joined = none) (hall : ∀ x ∈ s.workers, x = .done) :
    { s with joined := some true }.Inv r := by
  have hne : s.joined ≠ some false := by rw [hnone]; nofun
  refine ⟨hi.taken, hi.workers, hi.chunk, fun _ => (hi.live hne).report hi .., fun hg => absurd
    (hi.ungrouped hg) hne, fun _ => hall, nofun, ?_, hi.guarded⟩
  · intro ok hp
    have := hi.published ok hp
    rw [hnone] at this
    cases this

theorem Inv.publish (hj : s.joined = some ok) : { s with published := some ok }.Inv r :=
  { hi with
    live := fun h => (hi.live h).report hi ..
    published := fun _ hp => some.inj hp ▸ hj
    guarded := nofun }

theorem Inv.release (hp : s.published ≠ none) : { s with guarded := false }.Inv r :=
  { hi with
    live := fun h => (hi.live h).report hi ..
    guarded := fun _ => hp }

end

/-! ### Runs -/

/-- A worker fails only while no hop runs. -/
def Calm (s : State C) : Op → Prop
  | .launch _ ok => ok = false → ∀ x ∈ s.workers, x.isRunning = false
  | .wake w => ∀ x ∈ s.workers[w]?, x.hasFailed = true → ∀ x ∈ s.workers, x.isRunning = false
  | _ => True

instance (s : State C) : (op : Op) → Decidable (s.Calm op)
  | .launch _ _ => inferInstanceAs (Decidable (_ → ∀ x ∈ s.workers, _))
  | .wake _ => inferInstanceAs (Decidable (∀ x ∈ _, _ → ∀ x ∈ s.workers, _))
  | .take _ => inferInstanceAs (Decidable True)
  | .copy _ _ => inferInstanceAs (Decidable True)
  | .finish _ _ => inferInstanceAs (Decidable True)
  | .join => inferInstanceAs (Decidable True)
  | .publish => inferInstanceAs (Decidable True)
  | .release => inferInstanceAs (Decidable True)

theorem Inv.step (hr : r.Wf) (hi : s.Inv r) {op : Op} (hcalm : s.Calm op)
    (h : s.step r op = some s') : s'.Inv r := by
  cases op with
  | take => exact hi.take h
  | launch => exact hi.launch h hcalm
  | copy => exact hi.copy hr h
  | finish => exact hi.finish h
  | wake w => exact hi.wake h fun hop k todo hx => hcalm _ hx rfl
  | join =>
    simp only [State.step] at h
    split at h
    · rename_i hj
      cases h
      exact hi.join hj.1 (by simpa using hj.2)
    · cases h
  | publish =>
    simp only [State.step] at h
    split at h
    · rename_i ok hj hp
      cases h
      exact hi.publish hj
    · cases h
  | release =>
    simp only [State.step] at h
    split at h
    · rename_i hp
      cases h
      exact hi.release (isSome_iff_ne_none.mp hp)
    · cases h

theorem Inv.start (r : TwoHop C) (bounce dst : BlockId → C) : (start r bounce dst).Inv r := by
  have hidle : ∀ x ∈ (State.start r bounce dst).workers, x = .idle := by
    intro x hx
    obtain ⟨_, _, rfl⟩ := mem_map.mp hx
    rfl
  refine ⟨rfl, length_map _, ?_, fun _ => ⟨?_, fun _ => nofun, ?_⟩, ?_, ?_, ?_, nofun, nofun⟩
  · intro w x k hx hk
    cases hidle x (mem_of_getElem? hx)
    cases hk
  · intro w x hx
    cases hidle x (mem_of_getElem? hx)
    trivial
  · intro w hx
    cases hidle _ (mem_of_getElem? hx)
  · intro hg
    simp [State.start, hg]
  · intro hj
    simp only [State.start] at hj
    split at hj <;> cases hj
  · intro hj x hx
    -- without a buffer there is no worker
    simp only [State.start] at hj hx
    cases hg : r.groups with
    | none =>
      rw [hg] at hx
      cases hx
    | some =>
      rw [hg] at hj
      cases hj

/-- No pair is taken twice or skipped, no bounce block is used twice at a time, the event is
triggered only when everything has arrived, and nothing is reported or released while a hop runs. -/
structure Carried (r : TwoHop C) (s : State C) : Prop where
  taken : s.taken.flatten ++ s.rest = r.pairs
  apart : ∀ (v w : Nat) x y j k, v ≠ w → s.workers[v]? = some x → s.workers[w]? = some y →
    x.chunk? = some j → y.chunk? = some k →
      ∀ l ∈ s.lanes r v j, ∀ l' ∈ s.lanes r w k, l.bounce ≠ l'.bounce
  triggered : s.published = some true → s.rest = [] ∧
    (∀ k < s.taken.length, (Hop.first, k) ∈ s.completed ∧ (Hop.second, k) ∈ s.completed) ∧
      ∀ p ∈ r.pairs, s.dst p.2 = r.src p.1
  settled : s.published ≠ none ∨ s.guarded = false → ∀ x ∈ s.workers, x.isRunning = false

theorem Inv.rest_nil (hb : r.Bounced) (hi : s.Inv r) (hj : s.joined = some true) : s.rest = [] := by
  have hlive : s.joined ≠ some false := by rw [hj]; nofun
  by_cases hne : r.srcBlockIds = []
  · have hpairs : r.pairs = [] := by rw [TwoHop.pairs, hne, zip_nil_left]
    exact (append_eq_nil_iff.mp (hi.taken.trans hpairs)).2
  have hg : r.groups ≠ none := fun hg => hlive (hi.ungrouped hg)
  obtain ⟨w, hw, hgroup⟩ := hb.exists_group hg hne
  have hlt : w < s.workers.length := hi.workers ▸ hw
  have hx := getElem?_eq_getElem hlt
  rw [hi.succeeded hj _ (getElem_mem hlt)] at hx
  exact (hi.live hlive).exhausted w hx hgroup

theorem Inv.carried (hr : r.Wf) (hb : r.Bounced) (hi : s.Inv r) : s.Carried r where
  taken := hi.taken
  apart v w x y j k hvw _ _ _ _ l hl l' hl' := fun heq =>
    hr.group_disjoint hvw (bounce_mem hl) (heq ▸ bounce_mem hl')
  triggered hp := by
    have hj := hi.published true hp
    have hlive : s.joined ≠ some false := by rw [hj]; nofun
    have hrest := hi.rest_nil hb hj
    have hfin : ∀ k < s.taken.length, s.Finished r k := by
      intro k hk
      rcases (hi.live hlive).finished k hk with ⟨w, x, hx, hkx⟩ | hf
      · cases hi.succeeded hj x (mem_of_getElem? hx)
        cases hkx
      · exact hf
    refine ⟨hrest, fun k hk => ⟨(hfin k hk).first, (hfin k hk).second⟩, ?_⟩
    intro p hp
    rw [← hi.taken, hrest, append_nil] at hp
    obtain ⟨chunk, hchunk, hpc⟩ := mem_flatten.mp hp
    obtain ⟨k, hk⟩ := mem_iff_getElem?.mp hchunk
    refine (hfin k (List.getElem?_eq_some_iff.mp hk).1).landed p ?_
    rw [hk]
    exact hpc
  settled h x hx := by
    have hp : s.published ≠ none := h.elim id hi.guarded
    obtain ⟨ok, hp⟩ := ne_none_iff_exists'.mp hp
    have hj := hi.published ok hp
    cases ok with
    | true =>
      rw [hi.succeeded hj x hx]
      rfl
    | false => exact (hi.quiet hj x hx).2

/-- **A two-hop transfer carries every pair once and reports only when it is idle**, if it has a
bounce block and no worker fails while a hop of another one runs. -/
theorem carried_of_calm (hr : r.Wf) (hb : r.Bounced) {bounce dst : BlockId → C}
    (h : ReachableWhile Calm (· = start r bounce dst) (step r) s) : s.Carried r := by
  refine Inv.carried hr hb (h.invariant ?_ ?_)
  · intro t ht
    subst ht
    exact .start r bounce dst
  · intro t op t' hi hcalm hs
    exact hi.step hr hcalm hs

/-- Two pairs, and as many bounce blocks as given. -/
def twoPairs (bounceIds : List BlockId) : TwoHop Nat :=
  ⟨fun b => b + 100, [0, 1], [7, 8], some ⟨.pinned, bounceIds⟩, .pinned⟩

/-- Each worker carries one pair. -/
def sideBySide : List Op :=
  [.take 0, .take 1, .launch 0 true, .launch 1 true, .copy 1 0, .copy 0 0, .finish 0 true, .wake 0,
    .launch 0 true, .finish 1 true, .wake 1, .launch 1 true, .copy 0 0, .copy 1 0, .finish 1 true,
    .finish 0 true, .wake 0, .wake 1, .take 1, .take 0, .join, .publish, .release]

theorem carried_of_calm_sideBySide :
    ∃ s, runListWhile Calm (step (twoPairs [3, 4]))
        (start (twoPairs [3, 4]) (fun _ => 0) fun _ => 0) sideBySide = some s ∧
      s.published = some true ∧ s.Carried (twoPairs [3, 4]) := by
  have hwf : (twoPairs [3, 4]).Wf := ⟨rfl, by decide, by intro spec hspec; cases hspec; decide⟩
  have hb : (twoPairs [3, 4]).Bounced := by
    intro spec hspec hnil
    cases hspec
    cases hnil
  exact exists_of_map (f := State.published) (by decide) fun s hs hp =>
    ⟨hp, carried_of_calm hwf hb (ReachableWhile.runListWhile (.init rfl) hs)⟩

/-- Without a bounce block the event is triggered before anything was copied.  When one worker
fails, the event is poisoned and the registrations are released while the other's hop runs. -/
theorem report_not_carried :
    (∃ s, runList (step (twoPairs [])) (start (twoPairs []) (fun _ => 0) fun _ => 0)
        [.take 0, .take 1, .join, .publish] = some s ∧
      s.published = some true ∧ ¬ s.Carried (twoPairs [])) ∧
    ∃ s, runList (step (twoPairs [3, 4]))
        (start (twoPairs [3, 4]) (fun _ => 0) fun _ => 0)
        [.take 0, .take 1, .launch 0 true, .launch 1 true, .finish 0 false, .wake 0, .publish,
          .release] = some s ∧
      s.published = some false ∧ s.guarded = false ∧ ¬ s.Carried (twoPairs [3, 4]) := by
  refine ⟨?_, ?_⟩
  · refine exists_of_map (f := fun s => (s.published, s.rest))
      (b := (some true, [(0, 7), (1, 8)])) (by decide) fun s _ heq => ?_
    obtain ⟨hp, hrest⟩ := Prod.mk.inj heq
    refine ⟨hp, fun h => ?_⟩
    rw [(h.triggered hp).1] at hrest
    cases hrest
  · refine exists_of_map (f := fun s => (s.published, s.guarded, s.workers))
      (b := (some false, false, [.gone, .dropped .first 1 [⟨1, 4, 8⟩] .running])) (by decide)
      fun s _ heq => ?_
    obtain ⟨hp, heq⟩ := Prod.mk.inj heq
    obtain ⟨hg, hw⟩ := Prod.mk.inj heq
    refine ⟨hp, hg, fun h => ?_⟩
    have hrunning := h.settled (.inr hg) (.dropped .first 1 [⟨1, 4, 8⟩] .running) (by rw [hw]; simp)
    cases hrunning

end State

end Kvbm.Transfer
