/-
What a remote commit promises and what it serves.

The hashes committed are always those of the chain up to the end of the local match.  The blocks
made available are those of the computed prefix and then the first blocks of the search's shards.
These are the blocks of the local match only if the first shard begins at the computed prefix:
when an earlier poll of the search had a lower one, the blocks are those of lower positions, some
are served twice, and the last ones promised are not served at all.
-/
import Kvbm.Tiering.Commit
import Kvbm.Proofs.Tiering.Search

namespace Kvbm.Tiering

open Lib List Option Finder

variable {H : Type} {cfg : SearchConfig} {cd : DisaggConfig} {chain : List H} {env : CdEnv H}

/-! ### One commit -/

theorem openAndCommit_eq [DecidableEq H] {p : RemoteCommitPlan H} {blocks : List (G2Block H)}
    {session : Session H} {ledger : AvailabilityLedger H}
    (h : openAndCommit env p blocks = some (session, ledger)) :
    session.committed = p.sessionCommitSet ∧ session.available = blocks := by
  unfold openAndCommit at h
  split at h
  · obtain ⟨s1, h1, h⟩ := bind_eq_some_iff.mp h
    obtain ⟨s2, h2, h⟩ := bind_eq_some_iff.mp h
    cases h1
    rw [Session.makeAvailable, if_neg (by nofun)] at h2
    split at h2
    · cases h2
      split at h
      · cases h
        exact ⟨rfl, rfl⟩
      · cases h
        exact ⟨rfl, rfl⟩
    · cases h2
  · cases h

variable {prefixBlocks localBlocks : List (G2Block H)} {req : MatchWindow H}

theorem cdCommitRemote_eq [DecidableEq H] {localHit numComputed fbet : Nat}
    {state : CdRequestState H}
    (h : cdCommitRemote cfg env req localHit numComputed fbet prefixBlocks localBlocks =
      some (some state)) :
    localBlocks.length = localHit ∧ prefixBlocks.length = numComputed / cfg.blockSize ∧
      localHit ≤ req.blockPlhs.length ∧ state.localHitBlocks = localHit ∧
      state.session.committed = req.prefixPlhs ++ req.blockPlhs.take localHit ∧
      state.session.available = prefixBlocks ++ localBlocks := by
  unfold cdCommitRemote at h
  split at h
  · cases h
  rename_i hlens
  obtain ⟨hloc, hpre⟩ : localBlocks.length = localHit ∧
      prefixBlocks.length = numComputed / cfg.blockSize := by simpa using hlens
  split at h
  · cases h
  rename_i hwindow
  simp only at h
  split at h
  · cases h
  rename_i session ledger hopen
  cases h
  obtain ⟨hcommitted, havailable⟩ := openAndCommit_eq hopen
  refine ⟨hloc, hpre, Nat.not_lt.mp hwindow, rfl, ?_, havailable⟩
  rw [hcommitted, RemoteCommitPlan.sessionCommitSet, append_nil]

theorem cdInterpose_opened [DecidableEq H] {latch : Option (CdRequestState H)}
    {status : MatchStatus} {result : Interposed H}
    (h : cdInterpose cfg cd env latch req status prefixBlocks localBlocks = some result)
    (ho : result.opened = true) :
    ∃ localHit fbet state, status = .matched localHit ∧ latch = none ∧
      result.latch = some state ∧
      cdCommitRemote cfg env req localHit (req.computedBlocks * cfg.blockSize) fbet prefixBlocks
        localBlocks = some (some state) := by
  unfold cdInterpose at h
  cases status with
  | pending | lost => cases h; cases ho
  | matched localHit =>
    cases latch with
    | some =>
      simp only at h
      split at h
      · cases h; cases ho
      · cases h; cases ho
    | none =>
      simp only at h
      split at h
      · cases h; cases ho
      split at h
      · cases h; cases ho
      · cases h; cases ho
      · rename_i fbet _
        obtain ⟨committed, hc, hres⟩ := map_eq_some_iff.mp h
        cases committed with
        | none => cases hres; cases ho
        | some state => cases hres; exact ⟨localHit, fbet, state, rfl, rfl, rfl, hc⟩

/-- The leading blocks of the shards carry the hashes from the start of the first one. -/
theorem cloneLeadingG2Blocks_hashes {s : SearchState H} {computed hit : Nat}
    (hs : s.Sound cfg chain computed) (hm : s.status = .matched hit)
    (hlen : ((cloneLeadingG2Blocks s.onboarding hit).getD []).length = hit) :
    ((cloneLeadingG2Blocks s.onboarding hit).getD []).map (·.sequenceHash) =
      slice chain s.head (s.head + hit) := by
  by_cases hzero : hit = 0
  · subst hzero
    rw [length_eq_zero_iff.mp hlen, Nat.add_zero, slice_self]
    rfl
  obtain ⟨e, -, hh, hle, hin, hspan⟩ := reported_spans hs hm
  have hhe : hit ≤ e - computed := hh ▸ Nat.mod_le _ _
  unfold cloneLeadingG2Blocks at hlen ⊢
  rw [if_neg hzero] at hlen ⊢
  cases hloop : collectLoop hit s.onboarding.shards [] with
  | none =>
    rw [hloop] at hlen
    exact absurd hlen.symm hzero
  | some out =>
    have hpre : out <+: gathered s.onboarding.shards := by simpa using collectLoop_begins hloop
    rw [hloop] at hlen
    rw [bind_some] at hlen ⊢
    split at hlen
    · exact absurd hlen.symm hzero
    rename_i hout
    rw [if_neg hout]
    have hlead : ((out.drop 0).take hit).map (·.sequenceHash) =
        slice chain (s.head + 0) (s.head + 0 + hit) :=
      hspan.hashes_of_begins hin hpre (by omega) (by omega)
    exact hlead

/-! ### What is opened -/

namespace Opened

variable {o : Opened H}

/-- What is known of every session that is opened. -/
structure Described (chain : List H) (o : Opened H) : Prop where
  committed : o.session.committed = chain.take (o.computed + o.localHit)
  available : o.session.available.map (·.sequenceHash) =
    chain.take o.computed ++ slice chain o.head (o.head + o.localHit)
  head_le : o.head ≤ o.computed
  inside : o.computed + o.localHit ≤ chain.length

/-- The blocks served are those promised, position by position, and both are those of the chain up
to the end of the local match. -/
def Exact (chain : List H) (o : Opened H) : Prop :=
  o.session.available.map (·.sequenceHash) = o.session.committed ∧
    o.session.committed = chain.take (o.computed + o.localHit)

theorem Described.exact_of (h : o.Described chain) (hc : o.computed ≤ o.head ∨ o.localHit = 0) :
    o.Exact chain := by
  refine ⟨?_, h.committed⟩
  rw [h.available, h.committed, take_add_eq_append h.inside]
  rcases hc with hle | hzero
  · rw [Nat.le_antisymm h.head_le hle]
  · rw [hzero, Nat.add_zero, Nat.add_zero, slice_self, slice_self]

/-- With a first shard that begins lower, the first block of the local match is another one. -/
theorem Described.of_exact (h : o.Described chain) (hn : chain.Nodup) (he : o.Exact chain) :
    o.computed ≤ o.head ∨ o.localHit = 0 := by
  have heq := he.1
  rw [h.available, h.committed, take_add_eq_append h.inside, append_cancel_left_eq] at heq
  by_cases hzero : o.localHit = 0
  · exact .inr hzero
  refine .inl ?_
  have hin := h.inside
  have hle := h.head_le
  have hfirst := congrArg (·[0]?) heq
  simp only [getElem?_slice] at hfirst
  rw [if_pos (by omega), if_pos (by omega)] at hfirst
  have := (getElem?_inj (by omega) hn).mp hfirst
  omega

end Opened

namespace CdFinder

variable {f f' : CdFinder H}

structure Inv (cfg : SearchConfig) (chain : List H) (f : CdFinder H) : Prop where
  standing : ∀ s ∈ f.finder.search, s.Standing cfg chain
  described : ∀ o ∈ f.opened, o.Described chain

/-- The polls that the search answers right. -/
def Accepts (cfg : SearchConfig) (chain : List H) (f : CdFinder H) : CdOp H → Prop
  | .poll _ leader numComputedTokens totalTokens =>
    f.finder.Accepts cfg chain (.poll leader numComputedTokens totalTokens)
  | .progress i session => f.finder.Accepts cfg chain (.progress i session)
  | .release => True
  | .unlatch => True

instance [DecidableEq H] (f : CdFinder H) : (op : CdOp H) → Decidable (f.Accepts cfg chain op)
  | .poll _ leader numComputedTokens totalTokens =>
    inferInstanceAs (Decidable
      (f.finder.Accepts cfg chain (.poll leader numComputedTokens totalTokens)))
  | .progress i session =>
    inferInstanceAs (Decidable (f.finder.Accepts cfg chain (.progress i session)))
  | .release => inferInstanceAs (Decidable True)
  | .unlatch => inferInstanceAs (Decidable True)

variable {req : MatchWindow H} {c e : Nat} {s : SearchState H}

/-- The blocks of the computed prefix, when all of them are cached. -/
theorem hashes_before {status : MatchStatus} {st : OnboardingState H} (hreq : req.Shows chain c e)
    (hlen : (cdCloneLocalBlocks env false req status st).1.length = c) :
    (cdCloneLocalBlocks env false req status st).1.map (·.sequenceHash) = chain.take c := by
  have hbegins : (cdCloneLocalBlocks env false req status st).1.map (·.sequenceHash) <+:
      chain.take c := by
    rw [← hreq.before]
    unfold cdCloneLocalBlocks
    split
    · simp only
      split
      · exact env.matchBlocks_begins _
      · exact nil_prefix
    · exact nil_prefix
  refine hbegins.eq_of_length ?_
  have := hreq.lt
  have := hreq.inside
  rw [length_map, hlen, length_take]
  omega

/-- What a commit opens over a search whose match has been reported. -/
theorem described_of_commit [DecidableEq H] {c e hit fbet : Nat}
    {state : CdRequestState H} (hreq : req.Shows chain c e)
    (hs : s.Sound cfg chain c) (hstatus : s.status = .matched hit)
    (hcommit : cdCommitRemote cfg env req hit (req.computedBlocks * cfg.blockSize) fbet
      (cdCloneLocalBlocks env false req s.status s.onboarding).1
      (cdCloneLocalBlocks env false req s.status s.onboarding).2 = some (some state)) :
    Opened.Described chain ⟨state.session, req.computedBlocks, state.localHitBlocks, s.head⟩ := by
  obtain ⟨hloc, hpre, hwindow, hhit, hcommitted, havailable⟩ := cdCommitRemote_eq hcommit
  obtain ⟨-, -, -, hle, -⟩ := reported_spans hs hstatus
  rw [hreq.computed, Nat.mul_div_cancel _ cfg.blockSize_pos] at hpre
  have hend : c + hit ≤ e := by
    have hlen := hreq.length
    rw [hreq.plhs] at hwindow
    omega
  have hin : c + hit ≤ chain.length := Nat.le_trans hend hreq.inside
  have hbefore := hashes_before hreq hpre
  simp only [cdCloneLocalBlocks, hstatus] at hloc hbefore havailable
  rw [hreq.computed, hhit]
  refine ⟨?_, ?_, hle, hin⟩
  · rw [hcommitted, hreq.before, hreq.plhs, take_slice, Nat.min_eq_left hend,
      take_add_eq_append hin]
  · rw [havailable, map_append, hbefore, cloneLeadingG2Blocks_hashes hs hstatus hloc]

/-- The interposition leaves a search that stands, and what it opens is described. -/
theorem Inv.interpose [DecidableEq H] (hi : f.Inv cfg chain) {finder : Finder H}
    (hreq : req.Shows chain c e) (hs : s.Sound cfg chain c)
    (h : f.interpose cfg cd env req finder s = some f') : f'.Inv cfg chain := by
  obtain ⟨result, hres, rfl⟩ := map_eq_some_iff.mp h
  refine ⟨?_, ?_⟩
  · intro t ht
    simp only at ht
    split at ht
    · cases ht
    · cases ht
      exact hs.standing
  · intro o ho
    simp only at ho
    split at ho
    · rename_i state hlatch
      split at ho
      · rename_i hopened
        obtain ⟨hit, fbet, state', hstatus, hnone, hsome, hcommit⟩ :=
          cdInterpose_opened hres hopened
        obtain rfl : state = state' := some.inj (hlatch.symm.trans hsome)
        rw [hnone, isSome_none] at hcommit
        rcases mem_cons.mp ho with rfl | hold
        · exact described_of_commit hreq hs hstatus hcommit
        · exact hi.described o hold
      · exact hi.described o ho
    · exact hi.described o ho

theorem Inv.poll [DecidableEq H] (hi : f.Inv cfg chain) {leader : Leader H}
    {numComputedTokens totalTokens : Nat}
    (hok : f.finder.Accepts cfg chain (.poll leader numComputedTokens totalTokens))
    (h : f.findBlocks cfg cd chain env leader numComputedTokens totalTokens = some f') :
    f'.Inv cfg chain := by
  unfold CdFinder.findBlocks at h
  by_cases hlt : numComputedTokens / cfg.blockSize < windowEnd cfg chain totalTokens
  · have hreq := matchWindow_shows hlt (hok hlt).1
    obtain ⟨search, heq, hsound⟩ := poll_sound hi.standing hlt hok
    simp only [hreq.plhs, hreq.nonempty, heq, bind_some, Bool.false_eq_true, if_false] at h
    cases search with
    | none =>
      cases h
      exact ⟨nofun, hi.described⟩
    | some s =>
      simp only at h
      split at h
      · exact hi.interpose hreq (hsound s rfl) h
      · cases h
        exact ⟨fun s hs => (hsound s hs).standing, hi.described⟩
  · simp only [matchWindow_empty hlt, if_true] at h
    cases h
    exact hi

theorem Inv.step [DecidableEq H] (hi : f.Inv cfg chain) {op : CdOp H}
    (hok : f.Accepts cfg chain op) (h : f.step cfg cd chain op = some f') : f'.Inv cfg chain := by
  cases op with
  | poll => exact hi.poll hok h
  | progress =>
    obtain ⟨finder, hp, rfl⟩ := map_eq_some_iff.mp h
    obtain ⟨s, shard, st, hf, -, -, rfl, hst⟩ := progress_backed hok hp
    refine ⟨?_, hi.described⟩
    intro t ht
    cases ht
    obtain ⟨b, p, hb⟩ := hi.standing s hf
    exact ⟨b, p, hst hb⟩
  | release =>
    cases h
    exact ⟨nofun, hi.described⟩
  | unlatch =>
    cases h
    exact ⟨hi.standing, hi.described⟩

/-- **A remote commit serves what it promises when, and for distinct hashes only when, the first
shard begins at the computed prefix or nothing is matched locally.** -/
theorem opened_exact_iff [DecidableEq H]
    (h : ReachableWhile (Accepts cfg chain) (· = CdFinder.new) (step cfg cd chain) f) :
    ∀ o ∈ f.opened,
      (o.computed ≤ o.head ∨ o.localHit = 0 → o.Exact chain) ∧
        (chain.Nodup → o.Exact chain → o.computed ≤ o.head ∨ o.localHit = 0) := by
  have hi : f.Inv cfg chain := by
    refine h.invariant ?_ ?_
    · intro f hf
      subst hf
      exact ⟨nofun, nofun⟩
    · intro f op f' hi hok hs
      exact hi.step hok hs
  intro o ho
  have hd := hi.described o ho
  exact ⟨hd.exact_of, hd.of_exact⟩

def alwaysRemote : DisaggConfig := ⟨.always, fun _ _ => true, false⟩

def cdBuild : SearchConfig := ⟨true, 4, debugBuild.blockSize_pos, true⟩

/-- Every hash is cached, and the budget does not run out. -/
def allCached : CdEnv Nat where
  tier := .calm
  tryReserve _ := true
  matchBlocks hashes := hashes.map fun h => ⟨h, h⟩
  matchBlocks_begins hashes := by
    rw [List.map_map]
    exact (List.map_id hashes).symm ▸ List.prefix_rfl
  opens := true

theorem opened_exact_iff_onePoll :
    ∃ f o, runListWhile (Accepts cdBuild [10, 11, 12]) (step cdBuild alwaysRemote [10, 11, 12])
        CdFinder.new [.poll allCached (findUpTo 1) 4 13] = some f ∧
      o ∈ f.opened ∧ o.computed = 1 ∧ o.head = 1 ∧ o.localHit = 1 ∧ o.Exact [10, 11, 12] := by
  have hrun : (runListWhile (Accepts cdBuild [10, 11, 12]) (step cdBuild alwaysRemote [10, 11,
      12]) CdFinder.new [.poll allCached (findUpTo 1) 4 13]).map (·.opened) =
        some [⟨⟨[10, 11], true, [⟨10, 10⟩, ⟨11, 11⟩], true⟩, 1, 1, 1⟩] := by
    decide
  obtain ⟨f, hf, hopened⟩ := map_eq_some_iff.mp hrun
  have ho := hopened ▸ mem_singleton.mpr rfl
  exact ⟨f, _, hf, ho, rfl, rfl, rfl,
    (opened_exact_iff (ReachableWhile.runListWhile (.init rfl) hf) _ ho).1 (.inl (Nat.le_refl 1))⟩

/-- A search of three blocks is still going on when the prefix grows by one. -/
def grownPrefix : List (CdOp Nat) :=
  [.poll allCached
      ⟨fun _ => some (.asyncSession .searching none), fun h => by cases h; trivial⟩ 0 13,
    .progress 0 (.asyncSession (.complete 3) (some [⟨10, 10⟩, ⟨11, 11⟩, ⟨12, 12⟩])),
    .poll allCached (findUpTo 8) 4 13]

/-- Three blocks are promised, the first of them is served twice, and the last is not served. -/
theorem grownPrefix_not_exact :
    ∃ f o, runListWhile (Accepts cdBuild [10, 11, 12]) (step cdBuild alwaysRemote [10, 11, 12])
        CdFinder.new grownPrefix = some f ∧
      o ∈ f.opened ∧ o.session.committed = [10, 11, 12] ∧
      o.session.available.map (·.sequenceHash) = [10, 10, 11] ∧ ¬ o.Exact [10, 11, 12] := by
  have hrun : (runListWhile (Accepts cdBuild [10, 11, 12])
      (step cdBuild alwaysRemote [10, 11, 12]) CdFinder.new grownPrefix).map (·.opened) =
        some [⟨⟨[10, 11, 12], true, [⟨10, 10⟩, ⟨10, 10⟩, ⟨11, 11⟩], true⟩, 1, 2, 0⟩] := by
    decide
  obtain ⟨f, hf, hopened⟩ := map_eq_some_iff.mp hrun
  refine ⟨f, _, hf, hopened ▸ mem_singleton.mpr rfl, rfl, rfl, ?_⟩
  intro he
  exact absurd he.1 (by decide)

end CdFinder

end Kvbm.Tiering
