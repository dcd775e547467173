/-
How far a request has come, and the blocks that go with it.

A call either fails and changes nothing or does one of a few things, which `Effect` lists.  From
that list follow where the positions stand, which blocks are held, and which are registered.
-/
import Kvbm.Lib.Run
import Kvbm.Sequence.Scheduled

namespace Kvbm.Sequence

open Lib List Option RequestSequence

/-! ### What a call can do -/

/-- `n` more tokens are generated. -/
def RequestSequence.grow (r : RequestSequence) (n : Nat) : RequestSequence :=
  { r with
    totalTokens := r.totalTokens + n
    generatedTokens := r.generatedTokens + n }

namespace SchedulableSequence

/-- The state after `ids` have been taken for a step. -/
def hold (s : SchedulableSequence) (ids : List BlockId) (state : SequenceState) :
    SchedulableSequence :=
  { s with
    inner := { s.inner with unassigned := s.inner.unassigned ++ ids }
    state }

/-- The checks before a decode pass. -/
structure Decodable (s : SchedulableSequence) : Prop where
  idle : s.state = .idle
  prefilled : s.isPrefillComplete
  unfinished : ¬ s.inner.isComplete
  dangling : s.tailTokens = 1

/-- What is known of the blocks that were taken for a step. -/
def Ready (s : SchedulableSequence) (ids : List BlockId) : SequenceState → Prop
  | .idle => False
  | .prefillScheduled n b => b = ids.length ∧ ¬ s.isPrefillComplete ∧
    s.prefillPosition + n ≤ s.inner.numInputTokens ∧
    ids.length = s.blocksFor (s.prefillPosition + n) - s.inner.allBlockIds.length
  | .decodeScheduled b => b = ids.length ∧ s.Decodable ∧
    ids.length = s.inner.completeSequenceBlocks -
      (s.inner.assigned.length + s.inner.staged.length) + 1 - s.inner.unassigned.length
  | .speculativeScheduled k b => b = ids.length ∧ s.Decodable ∧ k ≤ s.inner.remainingTokens ∧
    ids.length = s.blocksFor (s.inner.totalTokens + k) - s.inner.allBlockIds.length

/-- The outcomes of a call that schedules: it fails, or an idle request takes blocks. -/
inductive Takes (s : SchedulableSequence) (scheduled : Nat → SequenceState) :
    Except ScheduleError Unit × SchedulableSequence → Prop
  | failed (e : ScheduleError) : Takes s scheduled (.error e, s)
  | took (ids : List BlockId) (idle : s.state = .idle)
      (ready : s.Ready ids (scheduled ids.length)) :
    Takes s scheduled (.ok (), s.hold ids (scheduled ids.length))

/-- No prefix is matched. -/
def Silent (s : SchedulableSequence) : Act → Prop
  | .matchAndAddPrefix _ | .reacquire _ => s.state ≠ .idle
  | _ => True

/-- What a call can do.  One that fails changes nothing. -/
inductive Effect (s : SchedulableSequence) : Act → SchedulableSequence → Prop
  | unchanged (silent : s.Silent a) : Effect s a s
  | matched {ids : List BlockId} {position kv : Nat} (idle : s.state = .idle)
      (empty : s.inner.allBlockIds = [])
      (found : ids = m.matchBlocks s.inner.completeSequenceBlocks)
      (moved : position = s.prefillPosition + ids.length * s.inner.blockSize)
      (written : kv = position ∨ ids = [] ∧ kv = s.kvPosition) :
    Effect s (.matchAndAddPrefix m)
      ⟨{ s.inner with
          assigned := ids
          prefixMatchedBlocks := s.inner.prefixMatchedBlocks + ids.length },
        s.state, position, kv⟩
  | scheduled {ids : List BlockId} {state : SequenceState} (idle : s.state = .idle)
      (ready : s.Ready ids state) (silent : s.Silent a) :
    Effect s a (s.hold ids state)
  | prefilled {n b : Nat} {token : Bool} (state : s.state = .prefillScheduled n b) :
    Effect s (.applyPrefill token) ⟨s.inner.completeAndRegisterPending.grow token.toNat, .idle,
      s.prefillPosition + n, s.prefillPosition + n⟩
  | decoded {b : Nat} (state : s.state = .decodeScheduled b) :
    Effect s .applyDecode ⟨(s.inner.grow 1).completeAndRegisterPending, .idle, s.prefillPosition,
      s.kvPosition + 1⟩
  | speculated {k b : Nat} (state : s.state = .speculativeScheduled k b) :
    Effect s (.applySpeculative n)
      ⟨lifoDropExcessUnassigned (s.inner.grow n).completeAndRegisterPending, .idle,
        s.prefillPosition, s.kvPosition + n⟩
  | reverted {b : Nat} (state : s.state.blocks = some b) :
    Effect s .revertSchedule { s with inner := s.inner.lifoPopUnassigned b, state := .idle }
  | dropped (idle : s.state = .idle) :
    Effect s (.dropUnassigned n) { s with inner := s.inner.lifoPopUnassigned n }
  | released (idle : s.state = .idle) : Effect s .release { s with inner := s.inner.release }
  | refused (refuses : s.reacquire m = some (.ok false, s)) : Effect s (.reacquire m) s
  | reacquired {ids : List BlockId} (idle : s.state = .idle) :
    Effect s (.reacquire m) { s with inner := { s.inner with
      assigned := m.matchBlocks s.inner.completeSequenceBlocks ++ ids
      prefixMatchedBlocks := (m.matchBlocks s.inner.completeSequenceBlocks).length } }
  | appended (idle : s.state = .idle) :
    Effect s (.appendTokens n) { s with inner := s.inner.grow n }

end SchedulableSequence

variable {r r' : RequestSequence} {s s' : SchedulableSequence} {m : Manager} {a : Act} {n : Nat}

/-! ### The tokens and the blocks of a request -/

namespace RequestSequence

theorem appendToken_eq {crossed : Bool} (h : r.appendToken = some (crossed, r')) :
    ¬ r.isComplete ∧ r' = r.grow 1 := by
  rw [appendToken] at h
  split_ifs at h with hc
  cases h
  exact ⟨hc, rfl⟩

theorem appendAll_eq {crossed : Bool} (h : r.appendAll n = some (crossed, r')) : r' = r.grow n := by
  induction n generalizing r crossed with
  | zero =>
    cases h
    rfl
  | succ n ih =>
    obtain ⟨⟨c, r1⟩, h1, hrest⟩ := bind_eq_some_iff.mp h
    obtain ⟨⟨l, r2⟩, h2, heq⟩ := map_eq_some_iff.mp hrest
    cases heq
    rw [ih h2, (appendToken_eq h1).2]
    simp [grow, Nat.add_comm, Nat.add_left_comm]

theorem exists_appendAll (h : n ≤ r.remainingTokens) :
    ∃ crossed, r.appendAll n = some (crossed, r.grow n) := by
  suffices hsome : ∃ p, r.appendAll n = some p by
    obtain ⟨⟨crossed, r'⟩, hp⟩ := hsome
    exact ⟨crossed, appendAll_eq hp ▸ hp⟩
  induction n generalizing r with
  | zero => exact ⟨_, rfl⟩
  | succ n ih =>
    have hc : ¬ r.isComplete := by
      rw [remainingTokens] at h
      rw [isComplete]
      omega
    obtain ⟨p, hp⟩ := ih (r := r.grow 1) (by simp only [remainingTokens, grow] at h ⊢; omega)
    exact ⟨_, by rw [appendAll, appendToken, if_neg hc]; exact congrArg (Option.map _) hp⟩

theorem allocateBlocks_cases (r : RequestSequence) (n : Nat) (m : Manager) :
    r.allocateBlocks n m = (false, r) ∨ ∃ ids : List BlockId, ids.length = n ∧
      r.allocateBlocks n m = (true, { r with unassigned := r.unassigned ++ ids }) := by
  rw [allocateBlocks]
  split_ifs with hn
  · exact .inr ⟨[], hn.symm, by simp⟩
  split
  · exact .inl rfl
  rename_i ids hids
  split_ifs
  · exact .inr ⟨ids, m.allocateBlocks_length hids, rfl⟩
  · exact .inl rfl

theorem reacquire_cases {b : Bool} (h : r.reacquire m = some (b, r')) :
    b = false ∧ r' = r ∨ ∃ ids, r' = { r with
      assigned := m.matchBlocks r.completeSequenceBlocks ++ ids
      prefixMatchedBlocks := (m.matchBlocks r.completeSequenceBlocks).length } := by
  simp only [reacquire] at h
  split_ifs at h
  · cases h
    exact .inr ⟨[], rfl⟩
  · split at h
    · cases h
      exact .inl ⟨rfl, rfl⟩
    split_ifs at h <;> cases h
    · exact .inr ⟨_, rfl⟩
    · exact .inl ⟨rfl, rfl⟩
  · cases h
    exact .inl ⟨rfl, rfl⟩

@[simp] theorem length_allBlockIds :
    r.allBlockIds.length = r.assigned.length + r.staged.length + r.unassigned.length := by
  simp [allBlockIds, Nat.add_assoc]

theorem length_registered :
    r.completeAndRegisterPending.assigned.length = r.assigned.length + r.staged.length +
      min (r.completeSequenceBlocks - (r.assigned.length + r.staged.length))
        r.unassigned.length := by
  simp [completeAndRegisterPending, stagePending, registerStaged, Nat.add_assoc]

end RequestSequence

/-! ### One call -/

namespace SchedulableSequence

theorem requireDecodable_eq_ok {u : Unit} : s.requireDecodable = .ok u ↔ s.Decodable := by
  simp only [requireDecodable, requireIdle, bind_eq_ok, ensure_eq_ok]
  exact ⟨fun ⟨_, h1, _, h2, _, h3, h4⟩ => ⟨h1, h2, h3, h4⟩,
    fun ⟨h1, h2, h3, h4⟩ => ⟨(), h1, (), h2, (), h3, h4⟩⟩

theorem provision_takes {scheduled : Nat → SequenceState} (idle : s.state = .idle)
    (ready : ∀ ids : List BlockId, ids.length = n → s.Ready ids (scheduled ids.length)) :
    Takes s scheduled (s.provision n m scheduled) := by
  rw [provision]
  obtain h | ⟨ids, rfl, h⟩ := s.inner.allocateBlocks_cases n m
  · rw [h]
    exact .failed _
  · rw [h]
    exact .took ids idle (ready ids rfl)

theorem schedulePrefill_takes {out : Except ScheduleError Unit × SchedulableSequence}
    (h : s.schedulePrefill n m = some out) : Takes s (.prefillScheduled n) out := by
  simp only [schedulePrefill] at h
  split_ifs at h with hstate hdone _ hover <;> cases h
  · exact .failed _
  · exact .failed _
  · exact .failed _
  · exact provision_takes (not_not.mp hstate) fun ids hids =>
      ⟨rfl, hdone, Nat.le_of_not_lt hover, hids⟩

theorem scheduleDecode_takes : Takes s .decodeScheduled (s.scheduleDecode m) := by
  rw [scheduleDecode]
  split
  · exact .failed _
  · have hready := requireDecodable_eq_ok.mp ‹_›
    exact provision_takes hready.idle fun ids hids => ⟨rfl, hready, hids⟩

theorem scheduleSpeculative_takes : Takes s
    (.speculativeScheduled (min n s.inner.remainingTokens)) (s.scheduleSpeculative n m) := by
  rw [scheduleSpeculative]
  split
  · exact .failed _
  · have hready := requireDecodable_eq_ok.mp ‹_›
    exact provision_takes hready.idle fun ids hids => ⟨rfl, hready, Nat.min_le_right _ _, hids⟩

theorem Takes.effect {scheduled : Nat → SequenceState}
    {out : Except ScheduleError Unit × SchedulableSequence} (h : Takes s scheduled out)
    (silent : s.Silent a) : Effect s a out.2 := by
  cases h with
  | failed => exact .unchanged silent
  | took ids idle ready => exact .scheduled idle ready silent

theorem matchAndAddPrefix_effect {p : Except ScheduleError Nat × SchedulableSequence}
    (h : s.matchAndAddPrefix m = some p) : Effect s (.matchAndAddPrefix m) p.2 := by
  rw [matchAndAddPrefix, requireIdle, ensure] at h
  by_cases hidle : s.state = .idle
  · rw [if_pos hidle] at h
    obtain ⟨⟨count, inner⟩, hm, rfl⟩ := map_eq_some_iff.mp h
    simp only [RequestSequence.matchAndAddPrefix] at hm
    split_ifs at hm with hempty
    cases hm
    dsimp only
    split_ifs with hpos
    · exact .matched hidle hempty.1 rfl rfl (.inl rfl)
    · have hids : m.matchBlocks s.inner.completeSequenceBlocks = [] := by simpa using hpos
      exact .matched hidle hempty.1 rfl (by simp [hids]) (.inr ⟨hids, rfl⟩)
  · rw [if_neg hidle] at h
    cases h
    exact .unchanged hidle

theorem applyPrefill_effect {token : Bool} {p : Except ApplyError Unit × SchedulableSequence}
    (h : s.applyPrefill token = some p) : Effect s (.applyPrefill token) p.2 := by
  rw [applyPrefill] at h
  split at h
  · rename_i n b hstate
    simp only at h
    split_ifs at h with hearly hlate htoken
    · cases h
      exact .unchanged trivial
    · cases h
      exact .unchanged trivial
    · obtain ⟨inner, hinner, rfl⟩ := map_eq_some_iff.mp h
      obtain ⟨⟨c, r⟩, hr, rfl⟩ := map_eq_some_iff.mp hinner
      rw [(appendToken_eq hr).2, htoken]
      exact .prefilled hstate
    · cases h
      rw [Bool.eq_false_iff.mpr htoken]
      exact .prefilled hstate
  · cases h
    exact .unchanged trivial

theorem step_effect (h : step s a = some s') : Effect s a s' := by
  cases a with
  | matchAndAddPrefix =>
    obtain ⟨p, hp, rfl⟩ := map_eq_some_iff.mp h
    exact matchAndAddPrefix_effect hp
  | schedulePrefill =>
    obtain ⟨p, hp, rfl⟩ := map_eq_some_iff.mp h
    exact (schedulePrefill_takes hp).effect trivial
  | applyPrefill =>
    obtain ⟨p, hp, rfl⟩ := map_eq_some_iff.mp h
    exact applyPrefill_effect hp
  | scheduleDecode =>
    cases h
    exact scheduleDecode_takes.effect trivial
  | applyDecode =>
    obtain ⟨p, hp, rfl⟩ := map_eq_some_iff.mp h
    rw [applyDecode] at hp
    split at hp
    · obtain ⟨⟨c, r⟩, hr, rfl⟩ := map_eq_some_iff.mp hp
      rw [(appendToken_eq hr).2]
      exact .decoded ‹_›
    · cases hp
      exact .unchanged trivial
  | scheduleSpeculative =>
    cases h
    exact scheduleSpeculative_takes.effect trivial
  | applySpeculative =>
    obtain ⟨p, hp, rfl⟩ := map_eq_some_iff.mp h
    rw [applySpeculative] at hp
    split at hp
    · split_ifs at hp
      · cases hp
        exact .unchanged trivial
      obtain ⟨⟨c, r⟩, hr, rfl⟩ := map_eq_some_iff.mp hp
      rw [appendAll_eq hr]
      exact .speculated ‹_›
    · cases hp
      exact .unchanged trivial
  | revertSchedule =>
    cases h
    rw [revertSchedule]
    split
    · exact .reverted ‹_›
    · exact .unchanged trivial
  | dropUnassigned =>
    rw [step, dropUnassigned] at h
    split_ifs at h with hidle
    cases h
    exact .dropped hidle
  | release =>
    cases h
    rw [release]
    split
    · exact .unchanged trivial
    · exact .released (ensure_eq_ok.mp ‹_›)
  | reacquire =>
    obtain ⟨p, hp, rfl⟩ := map_eq_some_iff.mp h
    have hcall := hp
    rw [reacquire, requireIdleForApply, ensure] at hp
    by_cases hidle : s.state = .idle
    · rw [if_pos hidle] at hp
      obtain ⟨⟨b, r⟩, hr, rfl⟩ := map_eq_some_iff.mp hp
      obtain ⟨rfl, rfl⟩ | ⟨ids, rfl⟩ := reacquire_cases hr
      · exact .refused hcall
      · exact .reacquired hidle
    · rw [if_neg hidle] at hp
      cases hp
      exact .unchanged hidle
  | appendTokens =>
    obtain ⟨p, hp, rfl⟩ := map_eq_some_iff.mp h
    rw [appendTokens] at hp
    split at hp
    · cases hp
      exact .unchanged trivial
    split_ifs at hp
    · cases hp
      exact .unchanged trivial
    obtain ⟨⟨c, r⟩, hr, rfl⟩ := map_eq_some_iff.mp hp
    rw [appendAll_eq hr]
    exact .appended (ensure_eq_ok.mp ‹_›)

/-! ### Positions -/

/-- What the last prefix match found, after a call. -/
def lastMatch (s : SchedulableSequence) (last : Nat) : Act → Nat
  | .matchAndAddPrefix m | .reacquire m =>
    if s.state = .idle then (m.matchBlocks s.inner.completeSequenceBlocks).length else last
  | _ => last

/-- A call, seen together with what the last prefix match found. -/
def observedStep (o : SchedulableSequence × Nat) (a : Act) : Option (SchedulableSequence × Nat) :=
  (step o.1 a).map fun s' => (s', o.1.lastMatch o.2 a)

/-- A prefix is not matched on top of another one or beyond the input, and a reacquire succeeds. -/
def CountsOnce (o : SchedulableSequence × Nat) : Act → Prop
  | .matchAndAddPrefix m => o.1.state = .idle → o.1.inner.prefixMatchedBlocks = 0 ∧
    o.1.prefillPosition + (m.matchBlocks o.1.inner.completeSequenceBlocks).length *
      o.1.inner.blockSize ≤ o.1.inner.numInputTokens
  | .reacquire m => o.1.reacquire m ≠ some (.ok false, o.1)
  | _ => True

/-- The positions lie in the sequence, and no subtraction is cut off. -/
structure Within (s : SchedulableSequence) (last : Nat) : Prop where
  prefill : s.prefillPosition ≤ s.inner.numInputTokens
  kv : s.kvPosition ≤ s.inner.totalTokens
  matched : s.inner.prefixMatchedBlocks = last
  new_tokens : s.inner.newTokensForPrefill + last * s.inner.blockSize = s.inner.totalTokens
  tail : s.tailTokens + s.kvPosition = s.inner.totalTokens

structure Advances (s : SchedulableSequence) (last : Nat) : Prop where
  input : s.inner.numInputTokens ≤ s.inner.totalTokens
  prefill : s.prefillPosition ≤ s.inner.numInputTokens
  chunk : ∀ n b, s.state = .prefillScheduled n b → s.prefillPosition + n ≤ s.inner.numInputTokens
  kv : s.kvPosition ≤ s.inner.totalTokens
  matched : s.inner.prefixMatchedBlocks = last
  cached : last * s.inner.blockSize ≤ s.inner.totalTokens

theorem lastMatch_eq {last : Nat} (h : s.Silent a) : s.lastMatch last a = last := by
  cases a with
  | matchAndAddPrefix => exact if_neg h
  | reacquire => exact if_neg h
  | _ => rfl

theorem matchBlocks_le_total (m : Manager) (r : RequestSequence) :
    (m.matchBlocks r.completeSequenceBlocks).length * r.blockSize ≤ r.totalTokens :=
  Nat.mul_le_of_le_div _ _ _ (m.matchBlocks_le _)

theorem Advances.step {last : Nat} (h : s.Advances last) (hok : CountsOnce (s, last) a)
    (he : s.Effect a s') : s'.Advances (s.lastMatch last a) := by
  obtain ⟨hin, hp, hchunk, hkv, hm, hc⟩ := h
  cases he with
  | unchanged silent =>
    rw [lastMatch_eq silent]
    exact ⟨hin, hp, hchunk, hkv, hm, hc⟩
  | matched idle empty found moved written =>
    subst found
    obtain ⟨hzero, hfit⟩ : s.inner.prefixMatchedBlocks = 0 ∧ _ := hok idle
    have hle := matchBlocks_le_total ‹Manager› s.inner
    rw [lastMatch, if_pos idle]
    refine ⟨hin, moved ▸ hfit, fun n b hs => by simp [idle] at hs, ?_, ?_, hle⟩
    · obtain rfl | ⟨-, rfl⟩ := written
      · exact (moved ▸ hfit).trans hin
      · exact hkv
    · simp [hzero]
  | scheduled idle ready silent =>
    rw [lastMatch_eq silent]
    refine ⟨hin, hp, fun n b hs => ?_, hkv, hm, hc⟩
    cases hs
    exact ready.2.2.1
  | prefilled state =>
    have hfit := hchunk _ _ state
    exact ⟨Nat.le_add_right_of_le hin, hfit, nofun, Nat.le_add_right_of_le (hfit.trans hin), hm,
      Nat.le_add_right_of_le hc⟩
  | decoded =>
    exact ⟨Nat.le_add_right_of_le hin, hp, nofun, Nat.add_le_add_right hkv 1, hm,
      Nat.le_add_right_of_le hc⟩
  | speculated =>
    exact ⟨Nat.le_add_right_of_le hin, hp, nofun, Nat.add_le_add_right hkv _, hm,
      Nat.le_add_right_of_le hc⟩
  | reverted => exact ⟨hin, hp, nofun, hkv, hm, hc⟩
  | dropped => exact ⟨hin, hp, hchunk, hkv, hm, hc⟩
  | released => exact ⟨hin, hp, hchunk, hkv, hm, hc⟩
  | refused refuses => exact absurd refuses hok
  | reacquired idle =>
    rw [lastMatch, if_pos idle]
    exact ⟨hin, hp, hchunk, hkv, rfl, matchBlocks_le_total _ s.inner⟩
  | appended =>
    exact ⟨Nat.le_add_right_of_le hin, hp, hchunk, Nat.le_add_right_of_le hkv, hm,
      Nat.le_add_right_of_le hc⟩

/-- **The positions stay within the tokens** as long as each prefix is counted once. -/
theorem positions_within {o : SchedulableSequence × Nat}
    (h : ReachableWhile CountsOnce (fun o => ∃ tokens out bs, o = (new tokens out bs, 0))
      observedStep o) : o.1.Within o.2 := by
  have hinv : o.1.Advances o.2 := by
    refine h.invariant (P := fun o => o.1.Advances o.2) ?_ fun o a o' hi hok hs => ?_
    · rintro _ ⟨tokens, out, bs, rfl⟩
      exact ⟨le_rfl, Nat.zero_le _, nofun, Nat.zero_le _, rfl, by simp⟩
    · obtain ⟨s', hs', rfl⟩ := map_eq_some_iff.mp hs
      exact hi.step hok (step_effect hs')
  refine ⟨hinv.prefill, hinv.kv, hinv.matched, ?_, Nat.sub_add_cancel hinv.kv⟩
  rw [newTokensForPrefill, hinv.matched]
  exact Nat.sub_add_cancel hinv.cached

/-- A manager that has every block, and gives the lowest ids. -/
def roomy : Manager where
  matchBlocks := List.range
  matchBlocks_le := by simp
  allocateBlocks n := some (List.range n)
  allocateBlocks_length := by
    rintro n _ ⟨⟩
    simp

/-- An input that is cached whole is matched, given up and acquired again. -/
theorem positions_within_reacquired :
    ∃ o, runList observedStep (new 8 4 4, 0)
      [.matchAndAddPrefix roomy, .release, .reacquire roomy, .appendTokens 3] = some o ∧
      o.1.Within o.2 := by
  refine ⟨_, rfl, positions_within (.step (a := .appendTokens 3) (.step (a := .reacquire roomy)
    (.step (a := .release) (.step (a := .matchAndAddPrefix roomy) (.init ⟨8, 4, 4, rfl⟩) ?_ rfl)
      trivial rfl) ?_ rfl) trivial rfl)⟩
  · exact fun _ => ⟨rfl, by decide⟩
  · nofun

/-- After a release the same prefix is counted again. -/
theorem released_match_overcounts :
    ∃ o, runList observedStep (new 8 4 4, 0) [.schedulePrefill 8 roomy, .applyPrefill true,
      .release, .matchAndAddPrefix roomy] = some o ∧ o.1.prefillPosition = 16 ∧
      o.1.inner.numInputTokens = 8 ∧ o.1.kvPosition = 16 ∧ o.1.inner.totalTokens = 9 :=
  ⟨_, rfl, rfl, rfl, rfl, rfl⟩

/-! ### Blocks for a step -/

/-- The call comes back and, where it ends the step, has registered `complete` blocks. -/
def Applies (s : SchedulableSequence) (a : Act) (complete : SchedulableSequence → Nat) : Prop :=
  ∃ s', step s a = some s' ∧ (s'.state = .idle → complete s' ≤ s'.inner.assigned.length)

/-- A call to schedule that fails changes nothing; otherwise there are blocks for `tokens`, and the
step can be reverted or applied. -/
structure Provisioned (s : SchedulableSequence)
    (out : Except ScheduleError Unit × SchedulableSequence) (tokens : Nat)
    (Applicable : SchedulableSequence → Prop) : Prop where
  failed : ∀ e, out.1 = .error e → out.2 = s
  covered : out.1 = .ok () → s.blocksFor tokens ≤ out.2.inner.allBlockIds.length
  reverts : out.1 = .ok () → out.2.revertSchedule = (.ok (), s)
  applies : out.1 = .ok () → Applicable out.2

theorem length_hold {ids : List BlockId} {state : SequenceState} :
    (s.hold ids state).inner.allBlockIds.length = s.inner.allBlockIds.length + ids.length := by
  simp [hold, Nat.add_assoc]

theorem Takes.provisioned_iff {scheduled : Nat → SequenceState} {tokens : Nat} {C : Prop}
    {out : Except ScheduleError Unit × SchedulableSequence}
    {Applicable : SchedulableSequence → Prop} (h : Takes s scheduled out)
    (hblocks : ∀ b, (scheduled b).blocks = some b)
    (covered : ∀ ids, s.Ready ids (scheduled ids.length) →
      s.blocksFor tokens ≤ s.inner.allBlockIds.length + ids.length)
    (applies : ∀ ids, s.Ready ids (scheduled ids.length) →
      (Applicable (s.hold ids (scheduled ids.length)) ↔ C)) :
    Provisioned s out tokens Applicable ↔ (out.1 = .ok () → C) := by
  cases h with
  | failed e => exact ⟨nofun, fun _ => ⟨fun _ _ => rfl, nofun, nofun, nofun⟩⟩
  | took ids idle ready =>
    refine ⟨fun hp ok => (applies ids ready).mp (hp.applies ok), fun hc => ⟨nofun, fun _ => ?_,
      fun _ => ?_, fun ok => (applies ids ready).mpr (hc ok)⟩⟩
    · rw [length_hold]
      exact covered ids ready
    · rw [revertSchedule, show (s.hold _ _).state.blocks = _ from hblocks _]
      simp [hold, lifoPopUnassigned, ← idle]

theorem registers_held {k : Nat} (hk : k ≤ r.completeSequenceBlocks)
    (hheld : k ≤ r.allBlockIds.length) : k ≤ r.completeAndRegisterPending.assigned.length := by
  rw [length_allBlockIds] at hheld
  rw [length_registered]
  omega

theorem applyPrefill_applies {b k : Nat} (hs : s.state = .prefillScheduled n b)
    (hk : k ≤ s.inner.completeSequenceBlocks) (hheld : k ≤ s.inner.allBlockIds.length) :
    (∀ token, Applies s (.applyPrefill token) fun _ => k) ↔
      (s.inner.numInputTokens ≤ s.prefillPosition + n → ¬ s.inner.isComplete) := by
  have hreg := registers_held hk hheld
  by_cases hfinal : s.inner.numInputTokens ≤ s.prefillPosition + n
  · simp [Applies, step, applyPrefill, hs, hfinal, appendToken]
    refine ⟨fun h => h.2.1, fun hc => ⟨⟨s, ?_, by simp [hs]⟩, hc, hreg⟩⟩
    -- without a token the last chunk is refused
    exact ⟨_, if_pos (Nat.zero_lt_of_lt (Nat.lt_of_not_le hc))⟩
  · simp [Applies, step, applyPrefill, hs, hfinal, hreg]

theorem div_le_blocksFor (s : SchedulableSequence) (tokens : Nat) :
    tokens / s.inner.blockSize ≤ s.blocksFor tokens := by
  rw [blocksFor]
  obtain h | h := Nat.eq_zero_or_pos s.inner.blockSize
  · simp [h]
  · exact Nat.div_le_div_right (by omega)

theorem blocksFor_le (s : SchedulableSequence) (tokens : Nat) :
    s.blocksFor (tokens + 1) ≤ tokens / s.inner.blockSize + 1 := by
  rw [blocksFor]
  obtain h | h := Nat.eq_zero_or_pos s.inner.blockSize
  · simp [h]
  · rw [← Nat.add_div_right tokens h]
    exact Nat.div_le_div_right (by omega)

theorem applyDecode_applies {b : Nat} (hs : s.state = .decodeScheduled b)
    (hc : ¬ s.inner.isComplete)
    (hheld : (s.inner.totalTokens + 1) / s.inner.blockSize ≤ s.inner.allBlockIds.length) :
    Applies s .applyDecode (·.inner.completeSequenceBlocks) := by
  have hstep : step s .applyDecode = some ⟨(s.inner.grow 1).completeAndRegisterPending, .idle,
      s.prefillPosition, s.kvPosition + 1⟩ := by
    rw [step, applyDecode, hs]
    dsimp only
    rw [appendToken, if_neg hc]
    rfl
  exact ⟨_, hstep, fun _ => registers_held (r := s.inner.grow 1) le_rfl hheld⟩

theorem applySpeculative_applies {k b : Nat} (hs : s.state = .speculativeScheduled k b)
    (hk : k ≤ s.inner.remainingTokens)
    (hheld : (s.inner.totalTokens + k) / s.inner.blockSize ≤ s.inner.allBlockIds.length) (n : Nat) :
    Applies s (.applySpeculative n) (·.inner.completeSequenceBlocks) := by
  by_cases hn : k < n
  · exact ⟨s, by simp [step, applySpeculative, hs, hn], by simp [hs]⟩
  have hn := Nat.le_of_not_lt hn
  obtain ⟨crossed, happ⟩ := exists_appendAll (hn.trans hk)
  have hle : (s.inner.totalTokens + n) / s.inner.blockSize ≤ s.inner.allBlockIds.length :=
    (Nat.div_le_div_right (by omega)).trans hheld
  have hstep : step s (.applySpeculative n) = some
      ⟨lifoDropExcessUnassigned (s.inner.grow n).completeAndRegisterPending, .idle,
        s.prefillPosition, s.kvPosition + n⟩ := by
    rw [step, applySpeculative, hs]
    dsimp only
    rw [if_neg (Nat.not_lt.mpr hn), happ]
    rfl
  exact ⟨_, hstep, fun _ => registers_held (r := s.inner.grow n) le_rfl hle⟩

/-- **A scheduled step has its blocks**: a call that fails changes nothing, and after one that
succeeds the step can be reverted and applied, and the apply registers the complete blocks that the
step covers.  Only the last chunk of a prefill can fall short, of room for its token. -/
theorem schedule_provisioned (s : SchedulableSequence) (n : Nat) (m : Manager) :
    (∀ out, s.schedulePrefill n m = some out →
      (Provisioned s out (s.prefillPosition + n) (fun s' =>
          ∀ token, Applies s' (.applyPrefill token) fun _ =>
            min s'.inner.completeSequenceBlocks ((s.prefillPosition + n) / s.inner.blockSize)) ↔
        (out.1 = .ok () → s.inner.numInputTokens ≤ s.prefillPosition + n → ¬ s.inner.isComplete))) ∧
    Provisioned s (s.scheduleDecode m) s.inner.totalTokens
      (Applies · .applyDecode (·.inner.completeSequenceBlocks)) ∧
    Provisioned s (s.scheduleSpeculative n m)
      (s.inner.totalTokens + min n s.inner.remainingTokens)
      (fun s' => ∀ k, Applies s' (.applySpeculative k) (·.inner.completeSequenceBlocks)) := by
  refine ⟨fun out hout => (schedulePrefill_takes hout).provisioned_iff (fun _ => rfl) ?_ ?_,
    (scheduleDecode_takes.provisioned_iff (C := True) (fun _ => rfl) ?_ ?_).mpr fun _ => trivial,
    (scheduleSpeculative_takes.provisioned_iff (C := True) (fun _ => rfl) ?_ ?_).mpr
      fun _ => trivial⟩
  · rintro ids ⟨-, -, -, hids⟩
    omega
  · rintro ids ⟨-, -, -, hids⟩
    have hle := s.div_le_blocksFor (s.prefillPosition + n)
    refine applyPrefill_applies rfl (min_le_left _ _) ((min_le_right _ _).trans ?_)
    rw [length_hold, hids]
    exact hle.trans (by omega)
  · rintro ids ⟨-, hdec, hids⟩
    have hle := s.blocksFor_le s.inner.totalTokens
    have hmono : s.blocksFor s.inner.totalTokens ≤ s.blocksFor (s.inner.totalTokens + 1) :=
      Nat.div_le_div_right (by omega)
    rw [completeSequenceBlocks] at hids
    rw [length_allBlockIds]
    omega
  · rintro ids ⟨-, hdec, hids⟩
    refine iff_true_intro (applyDecode_applies rfl hdec.unfinished ?_)
    have hle := (s.div_le_blocksFor _).trans (s.blocksFor_le s.inner.totalTokens)
    rw [completeSequenceBlocks] at hids
    rw [length_hold, length_allBlockIds]
    refine hle.trans ?_
    omega
  · rintro ids ⟨-, hdec, -, hids⟩
    omega
  · rintro ids ⟨-, hdec, hk, hids⟩
    refine iff_true_intro (applySpeculative_applies rfl hk ?_)
    have := s.div_le_blocksFor (s.inner.totalTokens + min n s.inner.remainingTokens)
    rw [length_hold, hids]
    exact this.trans (by omega)

theorem schedule_provisioned_chunk : ∃ s', (new 8 4 4).schedulePrefill 4 roomy = some (.ok (), s') ∧
    Provisioned (new 8 4 4) (.ok (), s') 4 (fun s' =>
      ∀ token, Applies s' (.applyPrefill token) fun _ =>
        min s'.inner.completeSequenceBlocks 1) :=
  ⟨_, rfl, ((schedule_provisioned (new 8 4 4) 4 roomy).1 _ rfl).mpr fun _ => nofun⟩

/-- With no output to come, the token of the last chunk stops the program. -/
theorem exhausted_prefill_stops : ∃ s, (new 4 0 4).schedulePrefill 4 roomy = some (.ok (), s) ∧
    step s (.applyPrefill true) = none :=
  ⟨_, rfl, rfl⟩

/-! ### Registered blocks are written -/

/-- A chunk ends with a block or with the tokens, and a later step does not end with a block. -/
def Aligned (s : SchedulableSequence) : Act → Prop
  | .applyPrefill _ => ∀ n b, s.state = .prefillScheduled n b →
    s.inner.blockSize ∣ s.prefillPosition + n ∨ s.prefillPosition + n = s.inner.totalTokens
  | .applyDecode => ∀ b, s.state = .decodeScheduled b →
    ¬ s.inner.blockSize ∣ s.inner.totalTokens + 1
  | .applySpeculative accepted => ∀ n b, s.state = .speculativeScheduled n b →
    ¬ s.inner.blockSize ∣ s.inner.totalTokens + accepted
  | .release | .reacquire _ => False
  | _ => True

/-- Blocks that are held, apart from those taken for the scheduled step. -/
def kept (r : RequestSequence) (state : SequenceState) : Nat :=
  r.assigned.length + (r.unassigned.length - state.blocks.getD 0)

/-- What is known of a request while a step is scheduled. -/
def InStep (s : SchedulableSequence) : SequenceState → Prop
  | .idle => True
  | .prefillScheduled n _ => ¬ s.isPrefillComplete ∧
    s.inner.assigned.length + s.inner.unassigned.length ≤
      max (kept s.inner s.state) (s.blocksFor (s.prefillPosition + n))
  | _ => s.isPrefillComplete ∧ s.inner.totalTokens = s.kvPosition + 1

structure Written (s : SchedulableSequence) : Prop where
  input : s.inner.numInputTokens ≤ s.inner.totalTokens
  staged : s.inner.staged = []
  kv : s.inner.assigned.length * s.inner.blockSize ≤ s.kvPosition
  prefill : ¬ s.isPrefillComplete → kept s.inner s.state * s.inner.blockSize ≤ s.prefillPosition
  inStep : s.InStep s.state

theorem blocksFor_mul_le {tokens : Nat} (h : s.inner.blockSize ∣ tokens) :
    s.blocksFor tokens * s.inner.blockSize ≤ tokens := by
  obtain ⟨k, rfl⟩ := h
  obtain h | h := Nat.eq_zero_or_pos s.inner.blockSize
  · simp [h]
  · rw [blocksFor, Nat.add_sub_assoc h, Nat.mul_add_div h, Nat.div_eq_of_lt (by omega),
      Nat.mul_comm, Nat.add_zero]

theorem registered_mul_le {x : Nat} (hstaged : r.staged = [])
    (hassigned : r.assigned.length * r.blockSize ≤ x)
    (hcomplete : r.completeSequenceBlocks * r.blockSize ≤ x) :
    r.completeAndRegisterPending.assigned.length * r.blockSize ≤ x := by
  obtain h | h : r.completeAndRegisterPending.assigned.length ≤ r.assigned.length ∨
      r.completeAndRegisterPending.assigned.length ≤ r.completeSequenceBlocks := by
    rw [length_registered, hstaged, length_nil]
    omega
  · exact (Nat.mul_le_mul_right _ h).trans hassigned
  · exact (Nat.mul_le_mul_right _ h).trans hcomplete

theorem kept_registered (hstaged : r.staged = []) : kept r.completeAndRegisterPending .idle ≤
    r.assigned.length + r.unassigned.length := by
  simp only [kept, completeAndRegisterPending, stagePending, registerStaged, hstaged, nil_append,
    length_append, length_take, length_drop, SequenceState.blocks, getD_none]
  omega

theorem div_mul_le_of_not_dvd {k t : Nat} (h : ¬ k ∣ t + 1) : (t + 1) / k * k ≤ t :=
  Nat.le_of_lt_succ ((Nat.div_mul_le_self _ _).lt_of_ne fun he => h (he ▸ Nat.dvd_mul_left _ _))

theorem Written.step (h : s.Written) (hok : s.Aligned a) (he : s.Effect a s') : s'.Written := by
  obtain ⟨hin, hst, hkv, hp, hstep⟩ := h
  cases he with
  | unchanged silent => exact ⟨hin, hst, hkv, hp, hstep⟩
  | matched idle empty found moved written =>
    simp only [RequestSequence.allBlockIds, append_eq_nil_iff] at empty
    refine ⟨hin, hst, ?_, fun _ => ?_, by rw [idle]; trivial⟩
    · obtain rfl | ⟨rfl, -⟩ := written
      · exact moved ▸ Nat.le_add_left _ _
      · simp
    · simp [kept, empty.2, moved]
  | @scheduled a ids state idle ready silent =>
    have hkept : kept (s.hold ids state).inner state = kept s.inner s.state := by
      rw [idle]
      cases state <;> simp [kept, hold, SequenceState.blocks, Ready] at ready ⊢ <;> omega
    refine ⟨hin, hst, hkv, fun hc => hkept ▸ hp hc, ?_⟩
    cases state with
    | idle => trivial
    | prefillScheduled n b =>
      obtain ⟨-, hc, -, hids⟩ := ready
      refine ⟨hc, ?_⟩
      show _ ≤ max (kept (s.hold ids _).inner (.prefillScheduled n b)) (s.blocksFor _)
      rw [hkept, idle]
      simp only [kept, hold, SequenceState.blocks, getD_none, length_append, hids,
        length_allBlockIds, hst, length_nil]
      omega
    | decodeScheduled | speculativeScheduled =>
      have := ready.2.1.dangling
      exact ⟨ready.2.1.prefilled, by simp only [tailTokens, hold] at this ⊢; omega⟩
  | @prefilled n b token state =>
    rw [state] at hstep
    obtain ⟨hc, hheld⟩ := hstep
    have hkept := Nat.le_add_right_of_le (k := n) (hp hc)
    obtain hdvd | htotal := hok n b state
    · have hall : (s.inner.assigned.length + s.inner.unassigned.length) * s.inner.blockSize ≤
          s.prefillPosition + n := by
        obtain h | h := le_max_iff.mp hheld
        · exact (Nat.mul_le_mul_right _ h).trans hkept
        · exact (Nat.mul_le_mul_right _ h).trans (blocksFor_mul_le hdvd)
      have hafter := (Nat.mul_le_mul_right _ (kept_registered hst)).trans hall
      exact ⟨Nat.le_add_right_of_le hin, rfl,
        (Nat.mul_le_mul_right _ (Nat.le_add_right _ _)).trans hafter, fun _ => hafter, trivial⟩
    · refine ⟨Nat.le_add_right_of_le hin, rfl, registered_mul_le hst
        ((Nat.mul_le_mul_right _ (Nat.le_add_right _ _)).trans hkept) ?_, fun h => ?_, trivial⟩
      · exact htotal ▸ Nat.div_mul_le_self _ _
      · exact absurd (htotal ▸ hin) h
  | decoded state =>
    rw [state] at hstep
    refine ⟨Nat.le_add_right_of_le hin, rfl, registered_mul_le hst (Nat.le_succ_of_le hkv) ?_,
      fun hc => absurd hstep.1 hc, trivial⟩
    exact hstep.2 ▸ div_mul_le_of_not_dvd (hok _ state)
  | @speculated n k b state =>
    rw [state] at hstep
    refine ⟨Nat.le_add_right_of_le hin, rfl, registered_mul_le (r := s.inner.grow n) hst
      (Nat.le_add_right_of_le hkv) ?_, fun hc => absurd hstep.1 hc, trivial⟩
    have hend := hok _ _ state
    rw [hstep.2, Nat.add_right_comm] at hend
    show (s.inner.totalTokens + n) / _ * _ ≤ _
    rw [hstep.2, Nat.add_right_comm]
    exact div_mul_le_of_not_dvd hend
  | reverted state =>
    refine ⟨hin, hst, hkv, fun hc => ?_, trivial⟩
    have hidle : SequenceState.idle.blocks = none := rfl
    simpa [kept, lifoPopUnassigned, state, hidle] using hp hc
  | dropped idle =>
    refine ⟨hin, hst, hkv, fun hc => (Nat.mul_le_mul_right _ ?_).trans (hp hc),
      by rw [idle]; trivial⟩
    simp only [kept, lifoPopUnassigned, length_take]
    omega
  | released | refused | reacquired => exact hok.elim
  | appended idle =>
    exact ⟨Nat.le_add_right_of_le hin, hst, hkv, hp, by rw [idle]; trivial⟩

/-- **A registered block is written**, when the steps end where `Aligned` asks for. -/
theorem registered_written
    (h : ReachableWhile Aligned (fun s => ∃ tokens out bs, s = new tokens out bs) Sequence.step s) :
    s.inner.assigned.length * s.inner.blockSize ≤ s.kvPosition := by
  have hinv : s.Written := by
    refine h.invariant ?_ fun s a s' hi hok hs => hi.step hok (step_effect hs)
    rintro _ ⟨tokens, out, bs, rfl⟩
    exact ⟨le_rfl, rfl, by simp [new, RequestSequence.new],
      by simp [new, RequestSequence.new, kept], trivial⟩
  exact hinv.kv

theorem registered_written_prefilled :
    ∃ s, runList Sequence.step (new 8 4 4) [.schedulePrefill 8 roomy, .applyPrefill true] = some s ∧
      s.inner.assigned = [0, 1] ∧ s.inner.assigned.length * s.inner.blockSize ≤ s.kvPosition := by
  refine ⟨_, rfl, rfl, registered_written (.step (a := .applyPrefill true)
    (.step (a := .schedulePrefill 8 roomy) (.init ⟨8, 4, 4, rfl⟩) trivial rfl) ?_ rfl)⟩
  rintro n b ⟨⟩
  exact .inl (by decide)

/-- The token that ends a block is not yet written when the block is registered. -/
theorem dangling_registered :
    ∃ s, runList Sequence.step (new 2 4 4) [.schedulePrefill 2 roomy, .applyPrefill true,
      .scheduleDecode roomy, .applyDecode] = some s ∧
      s.inner.assigned.length * s.inner.blockSize = 4 ∧ s.kvPosition = 3 :=
  ⟨_, rfl, rfl, rfl⟩

end SchedulableSequence

end Kvbm.Sequence
