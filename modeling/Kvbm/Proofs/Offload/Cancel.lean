/-
Cancellation of an offload transfer is exact.

The gate counts the units that have not been released.  A unit that has found itself to be
the last is the only one, so what it reports is reported once, and nothing that the
others did comes after it.
-/
import Kvbm.Lib.Run
import Kvbm.Lib.Table
import Kvbm.Offload.Cancel

namespace Kvbm.Offload

open Lib List Option State CommitmentGate TransferState UnitPhase

namespace State

def isLive (p : UnitPhase) : Bool := p ≠ .gone

/-- Units that have not been released. -/
def live (s : State) : Nat := s.units.countP isLive

/-- Nothing has been reported, or the only unit has published the result. -/
def Unreported (s : State) : Prop :=
  s.terminals = [] ∨
    (s.terminals.length = 1 ∧ s.transfer.status.isTerminal = true ∧ s.gate.outstandingUnits = 1)

/-- What a unit in a phase relies on. -/
def PhaseOk (s : State) : UnitPhase → Prop
  | .held => s.terminals = []
  | .failing _ => s.terminals = []
  | .last _ => s.terminals = [] ∧ s.gate.outstandingUnits = 1
  | .dropping => s.Unreported
  | .abandoned => s.Unreported
  | .recorded => s.Unreported
  | .lastAbandoned => s.Unreported ∧ s.gate.outstandingUnits = 1
  | .releasing => s.bound = true → s.gate.phase = .committed →
      s.terminals.length = 1 ∧ s.gate.outstandingUnits = 1
  | .gone => True

structure Inv (s : State) : Prop where
  count : s.gate.outstandingUnits = s.live
  shown : s.published = s.gate.state
  root : s.gate.rootIssued = false → s.units = [] ∧ s.terminals = []
  single : s.gate.phase = .opened → s.units.length ≤ 1
  asked : s.gate.cancelRequested = true → s.gate.phase ≠ .opened
  won : s.gate.phase = .cancelled → s.gate.cancelRequested = true
  phases : ∀ (u : UnitId) p, s.units[u]? = some p → s.PhaseOk p
  unended : s.terminals = [] → s.transfer.status.isTerminal = true → s.gate.phase = .cancelled
  once : s.terminals.length ≤ 1
  done : s.bound = true → s.gate.phase = .committed → s.live = 0 → s.terminals.length = 1
  trouble : s.troubled = true → s.transfer.status.isTerminal = false →
    s.transfer.error.isSome = true ∨ s.transfer.failed ≠ []
  reports : ∀ status, .published status true ∈ s.terminals → status = .failed

/-! ### What a step does -/

/-- A unit goes on to a phase that relies on no more than the one before, or is the last and
reports. -/
inductive Does (s : State) : State → Prop
  | idle : Does s s
  | request : Does s (s.setGate s.gate.request)
  | root (hopen : s.gate.phase = .opened) (hroot : s.gate.rootIssued = false) :
      Does s { s.setGate { s.gate with
        rootIssued := true
        outstandingUnits := s.gate.outstandingUnits + 1 } with units := s.units ++ [.held] }
  | claim {u : UnitId} (hu : s.units[u]? = some held) (hopen : s.gate.phase = .opened) :
      Does s (s.setGate { s.gate with phase := .committed })
  | reclaim {u : UnitId} (hu : s.units[u]? = some held) : Does s (s.setGate s.gate)
  | fanOut {u : UnitId} (hu : s.units[u]? = some held) (hn : n ≠ 0)
      (hcom : s.gate.phase = .committed) :
      Does s { s.setGate { s.gate with outstandingUnits := s.gate.outstandingUnits - 1 + n } with
        units := s.units.set u .gone ++ replicate n held }
  | markFailed {u : UnitId} (hu : s.units[u]? = some held) (ids : List BlockId) :
      Does s { s with
        transfer := s.transfer.markFailed ids
        troubled := s.troubled || !ids.isEmpty }
  | markCommitted {u : UnitId} (hu : s.units[u]? = some held) :
      Does s { s with transfer.committed := true }
  | setCancelled {u : UnitId} (hu : s.units[u]? = some held) (hwon : s.gate.phase = .cancelled) :
      Does s { s with transfer := s.transfer.setCancelled }
  | move {u : UnitId} (hu : s.units[u]? = some p) (hp : p ≠ .gone) (hq : q ≠ .gone)
      (hok : s.PhaseOk p → s.PhaseOk q) : Does s (s.setUnit u q)
  | fail {u : UnitId} (hu : s.units[u]? = some p) (hp : p ≠ .gone) (hq : q ≠ .gone)
      (error : String) (hok : s.PhaseOk p → (s.recordError error).PhaseOk q) :
      Does s ((s.recordError error).setUnit u q)
  | finish {u : UnitId} (hu : s.units[u]? = some p) (hp : p ≠ .gone)
      (hq : q = .releasing ∨ q = .dropping)
      (hlast : s.PhaseOk p → s.Unreported ∧ s.gate.outstandingUnits = 1) :
      Does s (s.finish.setUnit u q)
  | report {u : UnitId} (hu : s.units[u]? = some (last .other)) :
      Does s ({ s with terminals := s.terminals ++ [Terminal.other] }.setUnit u .releasing)
  | release {u : UnitId} (hu : s.units[u]? = some p) (hp : p ≠ .gone)
      (hdone : s.PhaseOk p → s.bound = true → s.gate.phase = .committed →
        s.gate.outstandingUnits = 1 → s.terminals.length = 1) :
      Does s ((s.setGate { s.gate with
        outstandingUnits := s.gate.outstandingUnits - 1 }).setUnit u .gone)

variable {s s' : State} {u v : UnitId} {p q : UnitPhase} {op : Op}

/-- `release_nonfinal_unit`. -/
theorem Does.of_nonfinal (hu : s.units[u]? = some p) (hp : p ≠ .gone) (hq : q ≠ .gone)
    (hlast : s.PhaseOk p → s.gate.outstandingUnits = 1 → s.PhaseOk q)
    (hr : s.releaseNonfinalUnit u q = some s') : Does s s' := by
  unfold State.releaseNonfinalUnit CommitmentGate.releaseNonfinalUnit at hr
  split_ifs at hr with hpos hone
  · exact some.inj hr ▸ .move hu hp hq (hlast · hone)
  · exact some.inj hr ▸ .release hu hp fun _ _ _ h => absurd h hone
  · cases hr

theorem advance_does {outcome : Outcome} (hs : s.advance u outcome = some s') : Does s s' := by
  unfold State.advance at hs
  split at hs
  next onLast hu => exact .of_nonfinal (q := last onLast) hu nofun nofun (fun hok h => ⟨hok, h⟩) hs
  next onLast hu =>
    have hlast : s.PhaseOk (last onLast) → s.Unreported ∧ s.gate.outstandingUnits = 1 :=
      fun hok => ⟨.inl hok.1, hok.2⟩
    cases hs
    cases outcome with
    | returned =>
      cases onLast with
      | finish => exact .finish hu nofun (.inl rfl) hlast
      | other => exact .report hu
    | panicked ran =>
      cases ran with
      | false => exact .move hu nofun nofun fun hok => .inl hok.1
      | true =>
        cases onLast with
        | finish => exact .finish hu nofun (.inr rfl) hlast
        | other => exact .move hu nofun nofun fun hok => .inl hok.1
  next hu =>
    split_ifs at hs with hb
    · exact some.inj hs ▸ .move hu nofun nofun id
    · exact some.inj hs ▸ .move hu nofun nofun fun _ h1 h2 => absurd ⟨h1, h2⟩ hb
  next hu =>
    refine some.inj hs ▸ .fail (q := recorded) hu nofun nofun _ fun hok => ?_
    rcases hok with h | ⟨h1, h2, h3⟩
    · exact .inl h
    refine .inr ⟨h1, ?_, h3⟩
    show (s.transfer.recordError _).status.isTerminal = true
    unfold TransferState.recordError
    rw [h2, Bool.true_or, if_pos rfl]
    exact h2
  next hu =>
    exact .of_nonfinal (q := lastAbandoned) hu nofun nofun (fun hok h => ⟨hok, h⟩) hs
  next hu => exact some.inj hs ▸ .finish hu nofun (.inl rfl) id
  next hu =>
    obtain ⟨g, hg, rfl⟩ := map_eq_some_iff.mp hs
    unfold releaseUnit at hg
    split_ifs at hg
    exact some.inj hg ▸ .release hu nofun fun hok hb hc _ => (hok hb hc).1
  next => cases hs

theorem step_does (hs : s.step op = some s') : Does s s' := by
  have hheld : ∀ {u t}, (if s.holds u then t else none) = some s' →
      s.units[u]? = some held ∧ t = some s' := by
    intro u t h
    split_ifs at h with hu
    exact ⟨of_decide_eq_true hu, h⟩
  cases op with
  | request => exact some.inj hs ▸ .request
  | rootUnit =>
    simp only [step, CommitmentGate.rootUnit] at hs
    split_ifs at hs with hno
    · exact some.inj hs ▸ .idle
    · obtain ⟨hopen, hroot⟩ := not_or.mp hno
      exact some.inj hs ▸ .root (not_not.mp hopen) (by simpa using hroot)
  | claimCommitment =>
    obtain ⟨hu, hs⟩ := hheld hs
    obtain ⟨r, hr, rfl⟩ := map_eq_some_iff.mp hs
    unfold claimCommitment at hr
    split_ifs at hr
    split at hr
    next hopen => exact some.inj hr ▸ .claim hu hopen
    next => exact some.inj hr ▸ .reclaim hu
    next => exact some.inj hr ▸ .reclaim hu
  | fanOut =>
    obtain ⟨hu, hs⟩ := hheld hs
    split_ifs at hs with hn
    · exact some.inj hs ▸ .move hu nofun nofun .inl
    obtain ⟨g, hg, rfl⟩ := map_eq_some_iff.mp hs
    unfold CommitmentGate.fanOut at hg
    split_ifs at hg with hc
    exact some.inj hg ▸ .fanOut hu hn hc.1
  | settle u onLast =>
    obtain ⟨hu, hs⟩ := hheld hs
    exact .of_nonfinal (q := last onLast) hu nofun nofun (fun hok h => ⟨hok, h⟩) hs
  | failTransferUnit u error =>
    obtain ⟨hu, hs⟩ := hheld hs
    exact some.inj hs ▸ .fail (q := failing .finish) hu nofun nofun error id
  | markFailed u ids =>
    obtain ⟨hu, hs⟩ := hheld hs
    exact some.inj hs ▸ .markFailed hu ids
  | markCommitted =>
    simp only [step] at hs
    split_ifs at hs with h
    exact some.inj hs ▸ .markCommitted (of_decide_eq_true h.1)
  | setCancelled =>
    simp only [step] at hs
    split_ifs at hs with h
    exact some.inj hs ▸ .setCancelled (of_decide_eq_true h.1) h.2
  | drop =>
    obtain ⟨hu, hs⟩ := hheld hs
    exact some.inj hs ▸ .move hu nofun nofun .inl
  | advance => exact advance_does hs

/-! ### Other units -/

theorem isLive_iff : isLive p = true ↔ p ≠ .gone := decide_eq_true_iff

/-- A unit that is not released goes on to another phase. -/
theorem live_set (hu : s.units[u]? = some p) (hp : p ≠ .gone) :
    (s.units.set u q).countP isLive + 1 = s.live + if isLive q then 1 else 0 := by
  obtain ⟨hlt, rfl⟩ := List.getElem?_eq_some_iff.mp hu
  have hlive := isLive_iff.mpr hp
  have hpos : 0 < s.units.countP isLive := countP_pos_iff.mpr ⟨_, getElem_mem hlt, hlive⟩
  rw [countP_set hlt, if_pos hlive, live]
  omega

/-- Two units that are not released count twice. -/
theorem two_le_live (hu : s.units[u]? = some p) (hv : s.units[v]? = some q) (huv : u < v)
    (hp : p ≠ .gone) (hq : q ≠ .gone) : 2 ≤ s.live := by
  have hu : (s.units.take v)[u]? = some p := by rw [getElem?_take_of_lt huv, hu]
  have hv : (s.units.drop v)[0]? = some q := by rw [getElem?_drop, Nat.add_zero, hv]
  have h1 := countP_pos_iff.mpr ⟨p, mem_of_getElem? hu, isLive_iff.mpr hp⟩
  have h2 := countP_pos_iff.mpr ⟨q, mem_of_getElem? hv, isLive_iff.mpr hq⟩
  rw [live, ← take_append_drop v s.units, countP_append]
  omega

/-- What a unit relies on is kept with the reports, and with what the last unit has seen. -/
theorem PhaseOk.mono (h : s.PhaseOk p) (ht : s'.terminals = s.terminals) (hb : s'.bound = s.bound)
    (hp : s'.gate.phase = .committed → s.gate.phase = .committed)
    (hone : s.gate.outstandingUnits = 1 →
      s'.gate.outstandingUnits = 1 ∧
        (s.transfer.status.isTerminal = true → s'.transfer.status.isTerminal = true)) :
    s'.PhaseOk p := by
  have hun : s.Unreported → s'.Unreported := by
    rintro (h | ⟨h1, h2, h3⟩)
    · exact .inl (ht.trans h)
    · obtain ⟨ho, hst⟩ := hone h3
      exact .inr ⟨ht ▸ h1, hst h2, ho⟩
  cases p with
  | held | failing => exact ht.trans h
  | last => exact ⟨ht.trans h.1, (hone h.2).1⟩
  | dropping | abandoned | recorded => exact hun h
  | lastAbandoned => exact ⟨hun h.1, (hone h.2).1⟩
  | releasing =>
    intro hb' hp'
    obtain ⟨h1, h2⟩ := h (hb ▸ hb') (hp hp')
    exact ⟨ht ▸ h1, (hone h2).1⟩
  | gone => trivial

namespace Inv

variable (hi : s.Inv) (hu : s.units[u]? = some p)

include hi hu

variable (hp : p ≠ .gone)

include hp

/-- Every unit but one is released, or there are at least two. -/
theorem other (hv : s.units[v]? = some q) (hvu : v ≠ u) :
    q = .gone ∨ s.gate.outstandingUnits ≠ 1 := by
  by_cases hq : q = .gone
  · exact .inl hq
  have htwo : 2 ≤ s.live :=
    hvu.lt_or_gt.elim (two_le_live hv hu · hq hp) (two_le_live hu hv · hp hq)
  have := hi.count
  exact .inr (by omega)

theorem outstanding_pos : 0 < s.gate.outstandingUnits := by
  rw [hi.count]
  exact countP_pos_iff.mpr ⟨p, mem_of_getElem? hu, isLive_iff.mpr hp⟩

theorem phases_set (hq : s'.PhaseOk q)
    (ht : s'.terminals = s.terminals ∨ s.gate.outstandingUnits = 1) (hb : s'.bound = s.bound)
    (hph : s'.gate.phase = .committed → s.gate.phase = .committed) {q' : UnitPhase}
    (hv : (s.units.set u q)[v]? = some q') : s'.PhaseOk q' := by
  rcases getElem?_set_cases hu hv with ⟨-, rfl⟩ | ⟨hvu, hv⟩
  · exact hq
  rcases hi.other hu hp hv hvu with rfl | hmany
  · trivial
  · exact (hi.phases v q' hv).mono (ht.resolve_right hmany) hb hph (absurd · hmany)

theorem setLive (hq : q ≠ .gone) (hunits : s'.units = s.units.set u q) (hgate : s'.gate = s.gate)
    (hpub : s'.published = s.published) (hb : s'.bound = s.bound)
    (ht : s'.terminals = s.terminals ∨ s.gate.outstandingUnits = 1) (hok : s'.PhaseOk q)
    (hend : s'.terminals = [] → s'.transfer.status.isTerminal = true → s.gate.phase = .cancelled)
    (honce : s'.terminals.length ≤ 1)
    (htrouble : s'.troubled = true → s'.transfer.status.isTerminal = false →
      s'.transfer.error.isSome = true ∨ s'.transfer.failed ≠ [])
    (hreports : ∀ status, .published status true ∈ s'.terminals → status = .failed) : s'.Inv := by
  have hcount : s'.live = s.live := by
    have := live_set (q := q) hu hp
    rw [if_pos (isLive_iff.mpr hq)] at this
    rw [live, hunits]
    omega
  refine ⟨by rw [hgate, hcount]; exact hi.count, by rw [hpub, hgate]; exact hi.shown, fun hr => ?_,
    fun ho => ?_, by rw [hgate]; exact hi.asked, by rw [hgate]; exact hi.won, fun v q' hv => ?_,
    hgate ▸ hend, honce, fun _ _ h0 => ?_, htrouble, hreports⟩
  · rw [(hi.root (hgate ▸ hr)).1] at hu
    cases hu
  · rw [hunits, length_set]
    exact hi.single (hgate ▸ ho)
  · rw [hunits] at hv
    exact hi.phases_set hu hp hok ht hb (fun h => hgate ▸ h) hv
  · have := hi.outstanding_pos hu hp
    have := hi.count
    omega

theorem release
    (hdone : s.bound = true → s.gate.phase = .committed → s.gate.outstandingUnits = 1 →
      s.terminals.length = 1) :
    ((s.setGate { s.gate with outstandingUnits := s.gate.outstandingUnits - 1 }).setUnit u
      .gone).Inv := by
  have hcount : (s.units.set u .gone).countP isLive + 1 = s.live := live_set hu hp
  have hc := hi.count
  refine ⟨?_, rfl, fun hr => ?_, fun ho => ?_, hi.asked, hi.won, fun v q hv => ?_, hi.unended,
    hi.once, fun hb hph h0 => hdone hb hph ?_, hi.trouble, hi.reports⟩
  · show s.gate.outstandingUnits - 1 = (s.units.set u .gone).countP isLive
    omega
  · rw [(hi.root hr).1] at hu
    cases hu
  · show (s.units.set u .gone).length ≤ 1
    rw [length_set]
    exact hi.single ho
  · refine hi.phases_set (q := .gone) hu hp trivial ?_ ?_ ?_ hv
    exacts [.inl rfl, rfl, id]
  · have h0 : (s.units.set u .gone).countP isLive = 0 := h0
    omega

theorem recordError (hq : q ≠ .gone) (error : String) (hok : (s.recordError error).PhaseOk q) :
    ((s.recordError error).setUnit u q).Inv := by
  have hstatus : (s.transfer.recordError error).status = s.transfer.status := by
    unfold TransferState.recordError
    split_ifs <;> rfl
  refine hi.setLive hu hp hq rfl rfl rfl rfl (.inl rfl) hok
    (fun h he => hi.unended h (hstatus ▸ he)) hi.once (fun _ h => .inl ?_) hi.reports
  have h : s.transfer.status.isTerminal = false := hstatus ▸ h
  show (s.transfer.recordError error).error.isSome = true
  unfold TransferState.recordError
  rw [h, Bool.false_or]
  split_ifs with herr
  · exact herr
  · rfl

end Inv

/-! ### The report -/

section

variable (hi : s.Inv)

include hi

/-- The result is published once unless cancellation has won, and is a failure if anything has gone
wrong. -/
theorem Inv.finish_spec (hun : s.Unreported) :
    s.finish.transfer.status.isTerminal = true ∧ s.finish.terminals.length ≤ 1 ∧
      (s.finish.terminals = [] → s.gate.phase = .cancelled) ∧
      ∀ status, .published status true ∈ s.finish.terminals → status = .failed := by
  cases hend : s.transfer.status.isTerminal with
  | true =>
    have hsame : s.finish = s := by
      unfold finish finishLogicalOperation
      rw [if_pos hend]
      simp
    rw [hsame]
    exact ⟨hend, hi.once, (hi.unended · hend), hi.reports⟩
  | false =>
    have hnil : s.terminals = [] := hun.resolve_right fun h => by simp [h.2.1] at hend
    generalize hst : (if s.transfer.error.isSome || !s.transfer.failed.isEmpty then
        TransferStatus.failed else .complete) = st
    have hfinish : s.transfer.finishLogicalOperation =
        (some st, { s.transfer with status := st }) := by
      unfold finishLogicalOperation
      rw [hend, ← hst]
      rfl
    have hterm : s.finish.terminals = [.published st s.troubled] := by
      unfold finish
      rw [hfinish, hnil]
      rfl
    refine ⟨?_, hterm ▸ le_rfl, by simp [hterm], fun status hmem => ?_⟩
    · unfold finish
      rw [hfinish]
      show st.isTerminal = true
      rw [← hst]
      split_ifs <;> rfl
    · rw [hterm, mem_singleton] at hmem
      injection hmem with hstatus htr
      rw [hstatus, ← hst]
      refine if_pos ?_
      rcases hi.trouble htr.symm hend with he | hf
      · rw [he, Bool.true_or]
      · simp [hf]

theorem Inv.finish (hu : s.units[u]? = some p) (hp : p ≠ .gone)
    (hq : q = .releasing ∨ q = .dropping) (hun : s.Unreported)
    (hone : s.gate.outstandingUnits = 1) : (s.finish.setUnit u q).Inv := by
  obtain ⟨hend, hle, hnil, hrep⟩ := hi.finish_spec hun
  have hlen : s.finish.terminals ≠ [] → s.finish.terminals.length = 1 := fun h =>
    hle.antisymm (length_pos_iff.mpr h)
  have hok : q ≠ .gone ∧ s.finish.PhaseOk q := by
    rcases hq with rfl | rfl
    · exact ⟨nofun, fun _ hc => ⟨hlen fun h => (nomatch (hnil h).symm.trans hc), hone⟩⟩
    · exact ⟨nofun, (eq_or_ne _ []).imp_right fun h => ⟨hlen h, hend, hone⟩⟩
  exact hi.setLive hu hp hok.1 rfl rfl rfl rfl (.inr hone) hok.2 (fun h _ => hnil h) hle
    (fun _ h => nomatch hend.symm.trans h) hrep

theorem Inv.report (hu : s.units[u]? = some (last .other)) :
    ({ s with terminals := s.terminals ++ [Terminal.other] }.setUnit u .releasing).Inv := by
  obtain ⟨hnil, hone⟩ := hi.phases u _ hu
  have hp : last .other ≠ .gone := nofun
  have hq : releasing ≠ .gone := nofun
  have hterm : s.terminals ++ [Terminal.other] = [Terminal.other] := by rw [hnil, nil_append]
  have hne : s.terminals ++ [Terminal.other] ≠ [] := by simp
  have hlen : (s.terminals ++ [Terminal.other]).length = 1 := congrArg length hterm
  refine hi.setLive hu hp hq rfl rfl rfl rfl (.inr hone) (fun _ _ => ⟨hlen, hone⟩)
    (fun h => absurd h hne) hlen.le hi.trouble fun status hmem => ?_
  have hmem : Terminal.published status true ∈ s.terminals ++ [Terminal.other] := hmem
  rw [hterm, mem_singleton] at hmem
  cases hmem

/-! ### Steps -/

theorem Inv.request : (s.setGate s.gate.request).Inv := by
  have hphase : ∀ c, c ≠ .cancelled → s.gate.request.phase = c → s.gate.phase = c := by
    intro c hc h
    unfold CommitmentGate.request at h
    simp only at h
    split_ifs at h
    · exact absurd h.symm hc
    · exact h
  refine ⟨hi.count, rfl, hi.root, fun ho => hi.single (hphase .opened nofun ho), fun _ ho => ?_,
    fun _ => rfl, fun v q hv => (hi.phases v q hv).mono rfl rfl (hphase .committed nofun) (⟨·, id⟩),
    fun h he => (if_neg (by rw [hi.unended h he]; nofun)).trans (hi.unended h he), hi.once,
    fun hb hc => hi.done hb (hphase .committed nofun hc), hi.trouble, hi.reports⟩
  have ho : s.gate.request.phase = .opened := ho
  have hopen := hphase .opened nofun ho
  unfold CommitmentGate.request at ho
  simp only [hopen] at ho
  cases ho

theorem Inv.rootUnit (hopen : s.gate.phase = .opened) (hroot : s.gate.rootIssued = false) :
    Inv { s.setGate { s.gate with
      rootIssued := true
      outstandingUnits := s.gate.outstandingUnits + 1 } with units := s.units ++ [.held] } := by
  obtain ⟨hnil, hquiet⟩ := hi.root hroot
  have hcount := hi.count
  refine ⟨?_, rfl, nofun, fun _ => ?_, hi.asked, hi.won, fun v q hv => ?_, hi.unended, hi.once,
    fun _ hc => ?_, hi.trouble, hi.reports⟩
  · unfold live at hcount ⊢
    simp only [setGate, hnil, countP_nil, nil_append] at hcount ⊢
    rw [hcount]
    rfl
  · simp [hnil]
  · have hv : (s.units ++ [held])[v]? = some q := hv
    rw [hnil, nil_append] at hv
    rw [mem_singleton.mp (mem_of_getElem? hv)]
    exact hquiet
  · have hc : s.gate.phase = .committed := hc
    rw [hopen] at hc
    cases hc

/-- A unit that nobody holds any more is replaced by others. -/
theorem Inv.fanOut {n : Nat} (hu : s.units[u]? = some held) (hn : n ≠ 0)
    (hcom : s.gate.phase = .committed) :
    Inv { s.setGate { s.gate with outstandingUnits := s.gate.outstandingUnits - 1 + n } with
      units := s.units.set u .gone ++ replicate n .held } := by
  have hquiet : s.terminals = [] := hi.phases u _ hu
  have hset : (s.units.set u .gone).countP isLive + 1 = s.live := live_set hu nofun
  have hnew : (s.units.set u .gone ++ replicate n held).countP isLive =
      s.gate.outstandingUnits - 1 + n := by
    have hrep : (replicate n held).countP isLive = n := by
      rw [countP_replicate]
      rfl
    have := hi.count
    rw [countP_append, hrep]
    omega
  refine ⟨hnew.symm, rfl, fun hr => ?_, fun ho => ?_, hi.asked, hi.won, fun v q hv => ?_,
    hi.unended, hi.once, fun _ _ h0 => ?_, hi.trouble, hi.reports⟩
  · rw [(hi.root hr).1] at hu
    cases hu
  · have ho : s.gate.phase = .opened := ho
    rw [hcom] at ho
    cases ho
  · have hv : (s.units.set u .gone ++ replicate n held)[v]? = some q := hv
    rcases mem_append.mp (mem_of_getElem? hv) with hmem | hmem
    · obtain ⟨w, hw⟩ := getElem?_of_mem hmem
      refine hi.phases_set (q := .gone) hu nofun trivial ?_ ?_ ?_ hw
      exacts [.inl rfl, rfl, id]
    · rw [eq_of_mem_replicate hmem]
      exact hquiet
  · have h0 : (s.units.set u .gone ++ replicate n held).countP isLive = 0 := h0
    omega

theorem Inv.claim (hu : s.units[u]? = some held) (hopen : s.gate.phase = .opened) :
    (s.setGate { s.gate with phase := .committed }).Inv := by
  have hpos := hi.outstanding_pos hu nofun
  refine ⟨hi.count, rfl, hi.root, nofun, nofun, nofun, fun v q hv => ?_,
    fun h he => (nomatch hopen.symm.trans (hi.unended h he)), hi.once, fun _ _ h0 => ?_,
    hi.trouble, hi.reports⟩
  · -- the only unit is the one that claims
    have hlen := hi.single hopen
    have hu0 := Nat.lt_one_iff.mp ((List.getElem?_eq_some_iff.mp hu).1.trans_le hlen)
    have hv0 := Nat.lt_one_iff.mp ((List.getElem?_eq_some_iff.mp hv).1.trans_le hlen)
    obtain rfl : u = v := hu0.trans hv0.symm
    cases hu.symm.trans hv
    exact hi.phases u _ hu
  · have h0 : s.live = 0 := h0
    have := hi.count
    omega

theorem Inv.markFailed (ids : List BlockId) :
    Inv { s with
      transfer := s.transfer.markFailed ids, troubled := s.troubled || !ids.isEmpty } := by
  refine { hi with
    phases := fun v q hv => (hi.phases v q hv).mono rfl rfl id (⟨·, id⟩)
    trouble := fun ht hnil => ?_ }
  simp only [TransferState.markFailed, Bool.or_eq_true, ne_eq, append_eq_nil_iff] at ht ⊢
  rcases ht with ht | ht
  · exact (hi.trouble ht hnil).imp id fun h h' => h h'.1
  right
  intro h
  simp [h.2] at ht

theorem Inv.setCancelled (hwon : s.gate.phase = .cancelled) :
    Inv { s with transfer := s.transfer.setCancelled } := by
  unfold TransferState.setCancelled
  split_ifs
  · exact hi
  · exact { hi with
      phases := fun v q hv => (hi.phases v q hv).mono rfl rfl id (⟨·, fun _ => rfl⟩)
      unended := fun _ _ => hwon
      trouble := nofun }

variable (hs : s.step op = some s')

include hs

/-- **Every step keeps the invariant.** -/
theorem Inv.step : s'.Inv := by
  cases step_does hs with
  | idle => exact hi
  | request => exact hi.request
  | root hopen hroot => exact hi.rootUnit hopen hroot
  | claim hu hopen => exact hi.claim hu hopen
  | reclaim =>
    exact { hi with
      shown := rfl
      phases := fun v q hv => (hi.phases v q hv).mono rfl rfl id (⟨·, id⟩) }
  | fanOut hu hn hcom => exact hi.fanOut hu hn hcom
  | markFailed _ ids => exact hi.markFailed ids
  | markCommitted =>
    exact { hi with phases := fun v q hv => (hi.phases v q hv).mono rfl rfl id (⟨·, id⟩) }
  | setCancelled _ hwon => exact hi.setCancelled hwon
  | move hu hp hq hok =>
    exact hi.setLive hu hp hq rfl rfl rfl rfl (.inl rfl) (hok (hi.phases _ _ hu)) hi.unended hi.once
      hi.trouble hi.reports
  | fail hu hp hq error hok => exact hi.recordError hu hp hq error (hok (hi.phases _ _ hu))
  | finish hu hp hq hlast =>
    obtain ⟨hun, hone⟩ := hlast (hi.phases _ _ hu)
    exact hi.finish hu hp hq hun hone
  | report hu => exact hi.report hu
  | release hu hp hdone => exact hi.release hu hp (hdone (hi.phases _ _ hu))

omit hi in
theorem step_phase (hp : s.gate.phase ≠ .opened) : s'.gate.phase = s.gate.phase := by
  cases step_does hs with
  | request => exact if_neg hp
  | root hopen | claim _ hopen => exact absurd hopen hp
  | _ => rfl

theorem step_terminals (hne : s'.terminals ≠ s.terminals) :
    s'.gate = s.gate ∧ s.gate.outstandingUnits = 1 := by
  cases step_does hs with
  | finish hu _ _ hlast => exact ⟨rfl, (hlast (hi.phases _ _ hu)).2⟩
  | report hu => exact ⟨rfl, (hi.phases _ _ hu).2⟩
  | _ => exact absurd rfl hne

end

/-- Where no unit is left, only a request or a vain root does anything. -/
theorem step_released (hu : ∀ (u : UnitId) p, s.units[u]? = some p → p = .gone)
    (hp : s.gate.phase ≠ .opened) (hs : s.step op = some s') :
    s' = s ∨ s' = s.setGate s.gate.request := by
  cases step_does hs with
  | idle => exact .inl rfl
  | request => exact .inr rfl
  | root hopen => exact absurd hopen hp
  | claim h | reclaim h | fanOut h | markFailed h | markCommitted h | setCancelled h | report h =>
    cases hu _ _ h
  | move h hne | fail h hne | finish h hne | release h hne => exact absurd (hu _ _ h) hne

/-! ### Every run -/

/-- A transfer that a program can get to. -/
abbrev Reached (s : State) : Prop := Reachable (fun s => ∃ bound, s = new bound) step s

theorem Reached.inv (hs : s.Reached) : s.Inv := by
  refine hs.invariant (P := Inv) ?_ fun _ _ _ hi hst => hi.step hst
  rintro t ⟨bound, rfl⟩
  exact ⟨rfl, rfl, fun _ => ⟨rfl, rfl⟩, fun _ => Nat.zero_le 1, nofun, nofun,
    fun u p hu => by simp [State.new] at hu, fun _ => nofun, Nat.zero_le 1, nofun, nofun, nofun⟩

theorem gateState_confirmed {g : CommitmentGate} :
    g.state = .confirmed ↔ g.cancelRequested = true ∧ g.outstandingUnits = 0 := by
  unfold state
  cases g.cancelRequested with
  | false => simp
  | true =>
    simp only [Bool.not_true, Bool.false_eq_true, if_false, true_and]
    split_ifs with h0
    · simp [h0]
    · cases g.phase <;> simp [h0]

/-- A cancellation that is confirmed stays so. -/
structure Settled (s : State) : Prop where
  inv : s.Inv
  asked : s.gate.cancelRequested = true
  none_left : s.live = 0

theorem Settled.confirmed (hs : s.Settled) : s.published = .confirmed := by
  rw [hs.inv.shown, gateState_confirmed]
  exact ⟨hs.asked, hs.inv.count.trans hs.none_left⟩

theorem Settled.step (hs : s.Settled) (hst : s.step op = some s') : s'.Settled := by
  have hgone : ∀ (u : UnitId) p, s.units[u]? = some p → p = .gone := by
    intro u p hu
    by_contra hp
    have := hs.inv.outstanding_pos hu hp
    have := hs.inv.count
    have := hs.none_left
    omega
  have hi := hs.inv.step hst
  rcases step_released hgone (hs.inv.asked hs.asked) hst with rfl | rfl
  · exact hs
  · exact ⟨hi, rfl, hs.none_left⟩

/-- Cancellation of a transfer, with its units and its terminal action, as it should be. -/
structure Exact (s : State) : Prop where
  /-- The gate counts the units that have not been released. -/
  count : s.gate.outstandingUnits = s.live
  /-- No release finds the count at zero. -/
  positive : ∀ (u : UnitId) p, s.units[u]? = some p → p ≠ .gone → 0 < s.gate.outstandingUnits
  confirmed : s.published = .confirmed ↔ s.gate.cancelRequested = true ∧ s.live = 0
  final : s.published = .confirmed → ∀ ops s', runList step s ops = some s' →
    s'.published = .confirmed ∧ s'.live = 0
  /-- Once cancellation is requested, it has won or the commitment has. -/
  winner : s.gate.cancelRequested = true → s.gate.phase = .cancelled ∨ s.gate.phase = .committed
  cancelled : s.gate.phase = .cancelled → ∀ ops s', runList step s ops = some s' →
    s'.gate.phase = .cancelled ∧ ∀ won g, s'.gate.claimCommitment = some (won, g) → won = false
  committed : s.gate.phase = .committed → ∀ ops s', runList step s ops = some s' →
    s'.gate.phase = .committed
  once : s.terminals.length ≤ 1
  /-- Every committed transfer has been reported by the time its last unit is released. -/
  reported : s.bound = true → s.gate.phase = .committed → s.live = 0 → s.terminals.length = 1
  /-- The report is made when every other unit has been released, and nothing is confirmed yet. -/
  alone : ∀ op s', s.step op = some s' → s'.terminals ≠ s.terminals →
    s.live = 1 ∧ s'.live = 1 ∧ s'.published ≠ .confirmed
  failed : ∀ status, .published status true ∈ s.terminals → status = .failed

/-- **Cancellation is exact in every run.** -/
theorem Reached.exact (hs : s.Reached) : s.Exact := by
  have hi := hs.inv
  have hphase : ∀ c, c ≠ .opened → s.gate.phase = c → ∀ ops s',
      runList step s ops = some s' → s'.gate.phase = c := by
    intro c hc hph ops s' hr
    refine runList_invariant (P := fun t => t.gate.phase = c) hr hph fun t op t' ht hst => ?_
    exact (step_phase hst (ht ▸ hc)).trans ht
  refine ⟨hi.count, fun u p hu hp => hi.outstanding_pos hu hp, ?_, fun hc ops s' hr => ?_,
    fun h => ?_, fun hph ops s' hr => ?_, hphase .committed nofun, hi.once, hi.done,
    fun op s' hst hne => ?_, hi.reports⟩
  · rw [hi.shown, gateState_confirmed, hi.count]
  · rw [hi.shown, gateState_confirmed, hi.count] at hc
    have hset : s'.Settled := runList_invariant hr ⟨hi, hc.1, hc.2⟩ fun _ _ _ ht hst => ht.step hst
    exact ⟨hset.confirmed, hset.none_left⟩
  · have := hi.asked h
    cases hph : s.gate.phase with
    | opened => exact absurd hph this
    | committed => exact .inr rfl
    | cancelled => exact .inl rfl
  · have hph' := hphase .cancelled nofun hph ops s' hr
    refine ⟨hph', fun won g hg => ?_⟩
    unfold claimCommitment at hg
    rw [hph'] at hg
    split_ifs at hg
    cases hg
    rfl
  · obtain ⟨hgate, hone⟩ := step_terminals hi hst hne
    have hi' := hi.step hst
    refine ⟨hi.count.symm.trans hone, ?_, ?_⟩
    · rw [← hi'.count, hgate, hone]
    · rw [hi'.shown, hgate, Ne, gateState_confirmed, hone]
      simp

end State

/-- Two routes of a committed transfer, one of which is abandoned during cancellation. -/
def abandonOne : List Op :=
  [.rootUnit, .claimCommitment 0, .fanOut 0 2, .request, .drop 1, .advance 1 .returned,
    .advance 1 .returned, .settle 2 .finish, .advance 1 .returned, .advance 1 .returned]

theorem State.Reached.exact_abandonOne :
    ∃ s, runList step (.new true) abandonOne = some s ∧
      s.terminals = [.published .failed true] ∧ s.published = .draining 1 ∧ s.Exact := by
  refine exists_of_map (f := fun s => (s.terminals, s.published))
    (b := ([.published .failed true], .draining 1)) (by decide) fun s hs heq => ?_
  obtain ⟨hterm, hpub⟩ := Prod.mk.inj heq
  have hreach : (new true).Reached := .init ⟨true, rfl⟩
  exact ⟨hterm, hpub, State.Reached.exact (hreach.runList hs)⟩

end Kvbm.Offload
