/-
What a step can do.

Every operation has one of eight effects: it evicts, it keeps every registration where it
is, it ends tenures, it moves a block, it gives up held blocks, or it makes a mark.
`exec_effect` says so, operation by operation, and everything that holds along every run
is proved effect by effect.
-/
import Kvbm.Lib.Run
import Kvbm.Proofs.Store.Register
import Kvbm.Proofs.Store.Batch
import Kvbm.Proofs.Store.Rebind

namespace Kvbm

namespace World

open Lib LawfulIndex BlockStore List Option

variable {ι : Type} [InactiveIndex ι] [LawfulIndex ι]

inductive Effect (w : World ι) (op : Op) : List SequenceHash → World ι → Prop
  /-- Blocks are evicted from the index. -/
  | evict {s : BlockStore ι} {pairs : List Entry} {handles : List BlockRegistrationHandle} :
      (∀ source, op ≠ .commitHold source) → w.store.Evicted pairs s →
      w.store.Reported pairs handles →
      Effect w op (pairs.map Prod.fst) ({ w with store := s }.markLater handles)
  /-- Every registered slot stays registered. -/
  | keep {w' : World ι} : MovesOf (fun x => x ∈ op.handles) w w' → w'.store.Tidy [] →
      (∀ {id r}, w.store.reg id = some r → w'.store.reg id = some r) → Effect w op [] w'
  /-- Tenures end. -/
  | free {w' : World ι} : w.Frees w' → w'.store.Tidy [] → Effect w op [] w'
  /-- A block moves. -/
  | shift {w' : World ι} : w.Shifts w' → w'.store.Tidy [] → Effect w op [] w'
  /-- Held blocks are given up. -/
  | giveBack {s : BlockStore ι} {ids : List BlockId} {handles : List BlockRegistrationHandle}
      {reported : Option SequenceHash} {holds : List (List Entry)} :
      s.Tidy [] → w.store.HoldFrame s → w.store.Deregisters ids s → w.store.HandlesOf ids handles →
      (∀ id ∈ ids, ∃ h handle, w.store.state id = .held h handle ∧
        (s.Registered h ∨ reported = some h)) →
      (∀ h, reported = some h →
        (∃ source, op = .commitHold source) ∧ ¬ s.Registered h ∧ s.heldByHash h = none) →
      Effect w op reported.toList ({ w with store := s, holds := holds }.markLater handles)
  | present {i : InnerId} : op = .markPresent i → i ∈ w.marking →
      Effect w op [] ({ w with marking := w.marking.erase i }.addGuard i)
  | absent {x : BlockRegistrationHandle} : op = .markAbsent x → x ∈ w.absents →
      Effect w op [] { w with absents := w.absents.erase x }

variable {w w' : World ι} {op : Op} {evs : List SequenceHash} {s : BlockStore ι} {id : BlockId}

namespace Effect

theorem of_map {α : Type} {call : Option α} {f : α → List SequenceHash × World ι}
    (hr : call.map f = some (evs, w')) (heff : ∀ r, call = some r → w.Effect op (f r).1 (f r).2) :
    w.Effect op evs w' := by
  obtain ⟨r, hcall, he⟩ := map_eq_some_iff.mp hr
  simpa only [he] using heff r hcall

/-! ### Operations that evict -/

theorem evict_nil (hop : ∀ source, op ≠ .commitHold source) (he : w.store.Evicted [] s) :
    w.Effect op [] { w with store := s } := by
  have heff : w.Effect op [] ({ w with store := s }.markLater []) := .evict hop he rfl
  rwa [markLater, append_nil] at heff

theorem evict_all {ev : Eviction} {blocks : List BlockId}
    (hop : ∀ source, op ≠ .commitHold source) (he : w.store.Evicts ⟨blocks, [], []⟩ ev s) :
    w.Effect op (w.afterEviction ev s).1 (w.afterEviction ev s).2 := by
  obtain ⟨pairs, hev, handles, hrep, hhash, hhandles⟩ := he
  simp only [nil_append] at hhash hhandles
  unfold afterEviction
  rw [hhash, hhandles]
  exact .evict hop hev hrep

/-! ### Operations that keep every registration -/

theorem finds (hf : w.Finds w' ∧ w'.store.Tidy []) : w.Effect op [] w' :=
  .keep hf.1.moves.of hf.2 fun hr => hf.1.reg ▸ hr

theorem shifts (hs : w.Shifts w' ∧ w'.store.Tidy []) : w.Effect op [] w' := .shift hs.1 hs.2

theorem quiet (ht : s.Tidy []) (ho : w.store.SameOwned s) (hreg : s.reg = w.store.reg)
    (hc : w.store.slotCount ≤ s.slotCount) : w.Effect op [] { w with store := s } :=
  .keep (.single (.quiet ho hreg hc)) ht fun hr => hreg ▸ hr

theorem sameBlocks (ht : s.Tidy []) (hb : w.store.SameBlocks s)
    (hc : w.store.slotCount ≤ s.slotCount) : w.Effect op [] { w with store := s } := by
  refine quiet ht (.of_state hb.state) ?_ hc
  funext j
  exact congrArg SlotState.reg (congrFun hb.state j)

variable (ht : w.store.Tidy [])

include ht

theorem guard (hst : w.store.state id = .mutable ∨ ∃ h, w.store.state id = .staged h)
    (ht' : s.Tidy [])
    (hself : s.state id = .reset ∨ s.state id = .mutable ∨ ∃ h, s.state id = .staged h)
    (hother : ∀ j, j ≠ id → s.state j = w.store.state j) (hc : s.slotCount = w.store.slotCount) :
    w.Effect op [] { w with store := s } := by
  obtain ⟨-, hreg, howner, -⟩ := ht.guard_out hst
  refine quiet ht' (.write id howner ?_ hother) ?_ hc.ge
  · rcases hself with hself | hself | ⟨h, hself⟩ <;> simp [BlockStore.owner, hself, SlotState.owner]
  · funext j
    by_cases hj : j = id
    · rw [hj, hreg]
      rcases hself with hself | hself | ⟨h, hself⟩ <;> simp [BlockStore.reg, hself, SlotState.reg]
    · exact congrArg SlotState.reg (hother j hj)

theorem reset (hst : w.store.state id = .mutable ∨ ∃ h, w.store.state id = .staged h) :
    w.Effect op [] { w with store := w.store.resetSlot id } := by
  have hret := resetSlot_retires (ht.guard_out hst).1.resetSlot
  exact guard ht hst hret.tidy (.inl resetSlot_state_self) (fun j hj => hret.state_ne hj)
    (slotCount_congr hret.config)

variable {h : SequenceHash} {holds : List (List Entry)}

theorem stage (hst : w.store.state id = .mutable) :
    w.Effect op [] { w with store := w.store.transitionToStaged id h } := by
  refine guard ht (.inl hst) ?_ (.inr (.inr ⟨h, state_setState_self⟩))
    (fun j hj => state_setState_ne hj) rfl
  refine ((ht.guard_out (.inl hst)).1.setState mem_cons_self (.staged h)).putPlain ?_
  simp [BlockStore.place]

theorem unstage (hst : w.store.state id = .staged h) :
    w.Effect op [] { w with store := w.store.transitionBackToMutable id } := by
  refine guard ht (.inr ⟨h, hst⟩) ?_ (.inr (.inl state_setState_self))
    (fun j hj => state_setState_ne hj) rfl
  refine Tidy.setFlag (((ht.guard_out (.inr ⟨h, hst⟩)).1.setState mem_cons_self
    .mutable).putPlain ?_) _ _
  simp [BlockStore.place]

theorem flag {v : Bool} : w.Effect op [] { w with store := w.store.setFlag id v } :=
  quiet (ht.setFlag id v) (.of_state rfl) rfl le_rfl

theorem poison (hr : w.store.poisonLineage h = some s) : w.Effect op [] { w with store := s } := by
  obtain ⟨ix, hix, hk⟩ := poison_spec h ht.index
  unfold poisonLineage at hr
  rw [hix] at hr
  cases hr
  exact quiet (by simpa using ht.takeIndex hk) (.of_state rfl) rfl le_rfl

/-! ### Operations on holds -/

theorem hold {candidate : InactiveCandidate} {expected : Option (List Entry)}
    {r : Option (List Entry)}
    (hr : w.store.tryHoldInactiveLineageIfCurrent candidate expected = some (r, s)) :
    w.Effect op [] { w with store := s, holds := holds } := by
  obtain ⟨ht', hf, hreg⟩ := tryHold_spec ht hr
  have hquiet : Move w { w with store := s } := .quiet hf.owned hreg (slotCount_congr hf.config).ge
  have haside : Move { w with store := s } { w with store := s, holds := holds } :=
    .aside fun p hp => .inl hp
  exact .keep (Moves.of (.tail (.single hquiet) haside)) ht' fun hr => hreg ▸ hr

theorem abort {source : List Entry} {discarded : List BlockRegistrationHandle}
    (hr : w.store.restoreLineageHold source = some (discarded, s)) :
    w.Effect op [] ({ w with store := s, holds := holds }.markLater discarded) := by
  have hres := restoreSupportBlocks_spec ht hr
  obtain ⟨ids, hd, hh, hlost⟩ := hres.lost
  have hlost' : ∀ id ∈ ids, ∃ h handle, w.store.state id = .held h handle ∧
      (s.Registered h ∨ none = some h) := by
    intro id hid
    obtain ⟨h, handle, hst, hreg⟩ := hlost id hid
    exact ⟨h, handle, hst, .inl hreg⟩
  exact .giveBack hres.tidy hres.frame hd hh hlost' nofun

theorem commit {source : List Entry} {reported : Option SequenceHash}
    {handles : List BlockRegistrationHandle}
    (hr : w.store.commitLineageHold source = some ((reported, handles), s)) :
    w.Effect (.commitHold source) reported.toList
      ({ w with store := s, holds := holds }.markLater handles) := by
  obtain ⟨ht', hf, ⟨ids, hd, hh, hlost⟩, hrep⟩ := commitLineageHold_spec ht hr
  exact .giveBack ht' hf hd hh hlost fun h hh => ⟨⟨source, rfl⟩, hrep h hh⟩

end Effect

omit [InactiveIndex ι] [LawfulIndex ι] in
theorem staged_state (hs : w.staged id = true) : ∃ h, w.store.state id = .staged h := by
  unfold staged at hs
  split at hs
  · next h hst => exact ⟨h, hst⟩
  · cases hs

/-- **Every operation has one of the effects.** -/
theorem exec_effect (hok : w.Ok) (ht : w.store.Tidy []) (hen : w.enabled op = true)
    (hr : w.exec op = some (evs, w')) : w.Effect op evs w' := by
  cases op with
  | allocateResetBlocks =>
    exact .of_map hr fun r halloc => .evict_nil nofun (allocateResetBlocksLocked_spec ht halloc)
  | allocateResetBlocksAtomic =>
    exact .of_map hr fun r halloc => .evict_nil nofun (allocateResetBlocksAtomic_spec ht halloc)
  | allocateAtomic =>
    obtain ⟨⟨r, s⟩, halloc, hr⟩ := map_eq_some_iff.mp hr
    rcases allocateAtomic_spec ht halloc with ⟨rfl, hev⟩ | ⟨ev, blocks, rfl, hev⟩
    · cases hr
      exact .evict_nil nofun hev
    · cases hr
      exact .evict_all nofun hev
  | allocateExactReclaim =>
    simp only [exec] at hr
    split_ifs at hr
    · cases hr
      exact .evict_nil nofun (.refl ht)
    obtain ⟨⟨r, s⟩, halloc, hr⟩ := map_eq_some_iff.mp hr
    rcases allocateExactReclaim_spec ht halloc with ⟨e, rfl, rfl⟩ | ⟨ev, rfl, hev⟩
    · cases hr
      exact .evict_nil nofun (.refl ht)
    · cases hr
      exact .evict_all nofun hev
  | drainInactive =>
    obtain ⟨l, ix, hl, hk, -⟩ := allocateAll_spec ht.index
    refine .of_map hr fun r hdrain => ?_
    unfold drainInactiveToMutable at hdrain
    rw [hl] at hdrain
    exact .evict_all nofun (evictAll_evicts ht hk hdrain)
  | releaseInactiveTail =>
    exact .of_map hr fun r htail => .evict_all nofun (tailLoop_spec _ ht htail)
  | setCapacity n =>
    cases hr
    obtain ⟨ht', hb, hc⟩ := setCapacity_spec ht
    exact .sameBlocks ht' hb hc
  | setAllocationCeiling fence =>
    cases hr
    obtain ⟨ht', hb, hc⟩ := setAllocationCeiling_spec ht
    exact .sameBlocks ht' hb hc.ge
  | releaseMutable =>
    cases hr
    simp only [enabled, decide_eq_true_eq] at hen
    exact .reset ht (.inl hen.1)
  | stage =>
    cases hr
    simp only [enabled, decide_eq_true_eq] at hen
    exact .stage ht hen.1
  | unstage =>
    cases hr
    obtain ⟨h, hst⟩ := staged_state hen
    exact .unstage ht hst
  | releaseStaged =>
    cases hr
    exact .reset ht (.inr (staged_state hen))
  | setStagedFlag =>
    cases hr
    exact .flag ht
  | registerBlocks =>
    simp only [enabled, decide_eq_true_eq] at hen
    refine .of_map hr fun r hreg => ?_
    unfold World.registerBlocks at hreg
    split_ifs at hreg
    obtain ⟨he, ht'⟩ :=
      registerLoop_spec hok ht hen.1 (fun b hb => by simpa [stagedFor] using hen.2 b hb) hreg
    exact .keep he.moves ht' he.keeps
  | markPresent =>
    cases hr
    exact .present rfl (by simpa [enabled] using hen)
  | markAbsent =>
    cases hr
    exact .absent rfl (by simpa [enabled] using hen)
  | acquire =>
    exact .of_map hr fun r hacq => .finds (acquireForHash_spec hok ht hacq)
  | matchPrefix hashes =>
    exact .of_map hr fun r hacq => .finds (matchPrefix_spec hok ht hacq)
  | upgrade =>
    refine .of_map hr fun r hacq => .finds ?_
    unfold World.upgrade at hacq
    split_ifs at hacq with hi
    · cases hacq
      exact ⟨.add hi, ht⟩
    · exact acquireForHash_spec hok ht hacq
  | scanInactive =>
    exact .of_map hr fun r hacq => .finds (scanInactivePrimaries_spec hok ht hacq)
  | matchInactive =>
    exact .of_map hr fun r hacq => .finds (matchInactivePrimaries_spec hok ht hacq)
  | liveBlocksFrom first =>
    cases hr
    obtain ⟨hm, hs⟩ := liveLoop_spec (w := w)
    refine .keep hm.of (hs ▸ ht) fun hr => ?_
    unfold liveBlocksFrom
    rw [hs]
    exact hr
  | poison =>
    exact .of_map hr fun s hp => .poison ht hp
  | setEvictOnReset =>
    cases hr
    simp only [storeResetOnReleaseInner]
    split_ifs
    · exact .flag ht
    · exact .keep .refl ht fun hr => hr
  | clone i =>
    cases hr
    have hi : 0 < w.guards i := by simpa [enabled] using hen
    exact .keep (.single (.add (hi.trans_le guards_le_strong))) ht fun hr => hr
  | drop =>
    cases hr
    exact .keep (.single (.sub (by simpa [enabled] using hen))) ht fun hr => hr
  | release =>
    simp only [enabled, decide_eq_true_eq] at hen
    refine .of_map hr fun w1 hrel => ?_
    obtain ⟨hf, ht'⟩ := releaseInner_spec hok ht hen.2.1 hen.1 hrel
    exact .free hf ht'
  | dropFields =>
    cases hr
    simp only [enabled, decide_eq_true_eq] at hen
    exact .keep (.single (.clear hen.2 hen.1)) ht fun hr => hr
  | releaseBlocks =>
    refine .of_map hr fun b hb => ?_
    obtain ⟨hf, ht'⟩ := releaseBlocksLocked_spec hok ht (by simpa [enabled] using hen) hb
    exact .free hf ht'
  | prepareRebind =>
    exact .of_map hr fun r hp => .shifts (prepareRebind_spec ht hp)
  | prepareLiveRebind =>
    exact .of_map hr fun r hp => .shifts (prepareLiveRebind_spec ht hp)
  | commit =>
    exact .of_map hr fun r hc => .shifts (commit_spec hok ht (by simpa [enabled] using hen) hc)
  | commitLive =>
    exact .of_map hr fun r hc => .shifts (commitLive_spec hok ht (by simpa [enabled] using hen) hc)
  | dropPlan =>
    refine .of_map hr fun w1 hd => .shifts ?_
    unfold World.dropPlan at hd
    split_ifs at hd with hdst
    cases hd
    exact giveUp_spec ht (by simpa using hdst)
  | tryHold =>
    exact .of_map hr fun r hh => .hold ht hh
  | abortHold =>
    exact .of_map hr fun r hh => .abort ht hh
  | commitHold =>
    exact .of_map hr fun r hh => .commit ht hh

/-! ### What every effect keeps -/

/-- Every effect but a mark is a sequence of moves. -/
theorem Effect.moves (ht : w.store.Tidy []) (he : w.Effect op evs w') :
    MovesOf (fun x => x ∈ op.handles) w w' ∨
      (∃ i, op = .markPresent i ∧ i ∈ w.marking ∧
        w' = { w with marking := w.marking.erase i }.addGuard i) ∨
      ∃ x, op = .markAbsent x ∧ x ∈ w.absents ∧ w' = { w with absents := w.absents.erase x } := by
  cases he with
  | evict _ hev hrep =>
    refine .inl (.single (.lose (hev.sameOwned ht) (hev.deregisters ht) ?_
      (slotCount_congr hev.cleared.config)))
    unfold HandlesOf
    rw [← hrep, List.map_map]
    refine List.map_congr_left fun e he => ?_
    obtain ⟨handle, hst, hreg, -⟩ := ht.reg_of_mem (hev.mem e he)
    simp [hreg, takeInactiveHandle, hst]
  | keep hm => exact .inl hm
  | free hf => exact .inl hf.moves.of
  | shift hs => exact .inl hs.moves.of
  | @giveBack s ids handles reported holds _ hf hd hh =>
    have hlose : MoveOf (fun x => x ∈ op.handles) w ({ w with store := s }.markLater handles) :=
      .lose hf.owned hd hh (slotCount_congr hf.config)
    have haside : MoveOf (fun x => x ∈ op.handles) ({ w with store := s }.markLater handles)
        ({ w with store := s, holds := holds }.markLater handles) := .aside fun p hp => .inl hp
    exact .inl (.tail (.single hlose) haside)
  | present hop hi => exact .inr (.inl ⟨_, hop, hi, rfl⟩)
  | absent hop hx => exact .inr (.inr ⟨_, hop, hx, rfl⟩)

theorem Effect.tidy (ht : w.store.Tidy []) (he : w.Effect op evs w') : w'.store.Tidy [] := by
  cases he with
  | evict _ hev => exact hev.tidy
  | keep _ ht' => exact ht'
  | free _ ht' => exact ht'
  | shift _ ht' => exact ht'
  | giveBack ht' => exact ht'
  | present | absent => exact ht

omit [InactiveIndex ι] [LawfulIndex ι] in
/-- A registration that has made its mark keeps its reference as a guard. -/
theorem strong_present {i : InnerId} (hi : i ∈ w.marking) (p : InnerId) :
    ({ w with marking := w.marking.erase i }.addGuard i).strong p = w.strong p := by
  have hkept : ({ w with marking := w.marking.erase i }.addGuard i).kept p = w.kept p := rfl
  have hpos := count_pos_iff.mpr hi
  unfold strong
  rw [hkept]
  by_cases hp : p = i
  · subst hp
    simp only [addGuard, Function.update_self, count_erase_self]
    omega
  · simp only [addGuard, Function.update_of_ne hp, count_erase_of_ne hp]

theorem Effect.ok (hok : w.Ok) (ht : w.store.Tidy []) (he : w.Effect op evs w') : w'.Ok := by
  rcases he.moves ht with hm | ⟨i, -, hi, rfl⟩ | ⟨x, -, -, rfl⟩
  · exact hm.ok hok
  · have hstrong := strong_present hi
    exact { hok with
      live := fun hp => hok.live (hstrong _ ▸ hp)
      bound := fun hp => ⟨(hstrong _).trans (hok.bound hp).1, (hok.bound hp).2⟩
      dead := fun hp => (hstrong _).trans (hok.dead hp) }
  · exact { hok with }

theorem step_effect (hok : w.Ok) (ht : w.store.Tidy []) (hs : w.step op = some w') :
    ∃ evs, w.exec op = some (evs, w') ∧ w.Effect op evs w' := by
  unfold step at hs
  split_ifs at hs with hen
  obtain ⟨⟨evs, w1⟩, hr, rfl⟩ := map_eq_some_iff.mp hs
  exact ⟨evs, hr, exec_effect hok ht hen hr⟩

end World

end Kvbm
