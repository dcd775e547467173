/-
What a search is asked for, it finds in its own place.

A poll may move the computed prefix up and down and the end of the window up.  Two kinds of polls
break the search: one whose prefix falls below the first shard while its window ends before that
shard, which has padding searched in place of hashes, and, where debug assertions are compiled in,
one whose prefix falls back into the first shards.  Along every run without them the shards tile
the chain, no poll stops the program, and what is matched and collected sits where it belongs.
-/
import Kvbm.Lib.Run
import Kvbm.Proofs.Tiering.Shards

namespace Kvbm.Tiering

open Lib List Option

variable {H : Type} {cfg : SearchConfig} {chain : List H}

/-! ### The buffer -/

section Buffer

variable {buffer plhs : List H} {c e : Nat}

/-- The list agrees with the chain from block `a` to its own end. -/
def AgreesFrom (chain : List H) (a : Nat) (buffer : List H) : Prop :=
  buffer.length ≤ chain.length ∧ ∀ i, a ≤ i → i < buffer.length → buffer[i]? = chain[i]?

theorem AgreesFrom.mono {a a' : Nat} (h : AgreesFrom chain a buffer) (ha : a ≤ a') :
    AgreesFrom chain a' buffer :=
  ⟨h.1, fun i hi => h.2 i (Nat.le_trans ha hi)⟩

theorem length_copyAt {i : Nat} (h : i + plhs.length ≤ buffer.length) :
    (copyAt buffer i plhs).length = buffer.length := by
  simp only [copyAt, length_append, length_take, length_drop]
  omega

theorem getElem?_copyAt {i k : Nat} (h : i + plhs.length ≤ buffer.length) :
    (copyAt buffer i plhs)[k]? =
      if i ≤ k ∧ k < i + plhs.length then plhs[k - i]? else buffer[k]? := by
  have hlen : (buffer.take i).length = i := by rw [length_take]; omega
  rw [copyAt, append_assoc, getElem?_append, getElem?_append, hlen]
  by_cases hk : k < i
  · rw [if_pos hk, if_neg (by omega), getElem?_take, if_pos hk]
  by_cases hk' : k < i + plhs.length
  · rw [if_neg hk, if_pos (by omega), if_pos (by omega)]
  rw [if_neg hk, if_neg (by omega), if_neg (by omega), getElem?_drop]
  congr 1
  omega

theorem add_length_slice (hce : c < e) (he : e ≤ chain.length) :
    c + (slice chain c e).length = e := by
  rw [length_slice_of_le he]
  omega

variable {a : Nat}

theorem AgreesFrom.copyAt (hce : c < e) (he : e ≤ chain.length)
    (hbuf : e ≤ buffer.length) (hlen : buffer.length ≤ chain.length)
    (hout : ∀ i, a ≤ i → i < buffer.length → i < c ∨ e ≤ i → buffer[i]? = chain[i]?) :
    AgreesFrom chain a (copyAt buffer c (slice chain c e)) := by
  have hin := (add_length_slice hce he).trans_le hbuf
  refine ⟨(length_copyAt hin).trans_le hlen, fun i ha hi => ?_⟩
  rw [length_copyAt hin] at hi
  rw [getElem?_copyAt hin, length_slice_of_le he, getElem?_slice]
  by_cases hw : c ≤ i ∧ i < e
  · rw [if_pos (by omega), if_pos (by omega), Nat.add_sub_cancel' hw.1]
  · rw [if_neg (by omega)]
    exact hout i ha hi (by omega)

theorem slice_ne_nil (hce : c < e) (he : e ≤ chain.length) : slice chain c e ≠ [] := by
  have hlen := length_slice_of_le (i := c) he
  intro hs
  rw [hs, length_nil] at hlen
  omega

theorem buildBuffer_agrees (hce : c < e) (he : e ≤ chain.length) :
    ∃ buffer, buildBuffer c (slice chain c e) = some buffer ∧ buffer.length = e ∧
      AgreesFrom chain c buffer := by
  have hfirst := head?_eq_some_head (slice_ne_nil hce he)
  have hlen := add_length_slice hce he
  refine ⟨_, by rw [buildBuffer, hfirst]; rfl, ?_, ?_⟩
  · rw [length_copyAt (by rw [length_replicate]), length_replicate, hlen]
  · refine .copyAt hce he (by rw [length_replicate, hlen])
      (by rw [length_replicate, hlen]; exact he) fun i hi hi' => ?_
    rw [length_replicate, hlen] at hi'
    omega

theorem mergeBuffer_agrees (cfg : SearchConfig) (h : AgreesFrom chain a buffer) (hce : c < e)
    (he : e ≤ chain.length) (hc : c ≤ buffer.length) (hhead : c < a → a ≤ e) :
    ∃ buffer', mergeBuffer cfg buffer c (slice chain c e) = some buffer' ∧
      buffer'.length = max buffer.length e ∧ AgreesFrom chain (min a c) buffer' := by
  have hfirst := head?_eq_some_head (slice_ne_nil hce he)
  have hlen := add_length_slice hce he
  have hgrown : ∀ first, (buffer ++ replicate (e - buffer.length) first).length =
      max buffer.length e := by
    intro first
    rw [length_append, length_replicate]
    omega
  have hchain := h.1
  refine ⟨_, by simp only [mergeBuffer, hfirst, debugAssert_of (decide_eq_true hc), hlen]; rfl,
    ?_, ?_⟩
  · rw [length_copyAt (by rw [hlen, hgrown]; exact Nat.le_max_right _ _), hgrown]
  · refine .copyAt hce he (by rw [hgrown]; exact Nat.le_max_right _ _) (by rw [hgrown]; omega)
      fun i hi hi' hout => ?_
    rw [hgrown] at hi'
    rw [getElem?_append_left (by omega)]
    exact h.2 i (by omega) (by omega)

end Buffer

/-! ### Reconciliation -/

/-- The shards tile the chain from `a` to `b`, what they are searched in agrees with it, and the
computed prefix of `p` blocks does not begin below them. -/
structure Backed (cfg : SearchConfig) (chain buffer : List H) (st : OnboardingState H)
    (a b p : Nat) : Prop where
  ne : st.shards ≠ []
  tiles : Tiles chain a st.shards b
  le : b ≤ buffer.length
  agrees : AgreesFrom chain a buffer
  computed : st.numComputedTokens = p * cfg.blockSize
  masked : a ≤ p

section Reconcile

variable {buffer : List H} {st : OnboardingState H} {a b c e p : Nat}

theorem issueShard_cases {leader : Leader H} (hlt : c < e) (he : e ≤ buffer.length)
    (h : AgreesFrom chain c buffer) :
    issueShard cfg leader buffer c e = some none ∨
      ∃ shard, issueShard cfg leader buffer c e = some (some shard) ∧ shard.Searched chain ∧
        shard.startBlock = c ∧ shard.endBlock = e := by
  have hslice : slice buffer c e = slice chain c e :=
    slice_congr fun i hi hi' => h.2 i hi (Nat.lt_of_lt_of_le hi' he)
  simp only [issueShard, debugAssert_of (decide_eq_true hlt), debugAssert_of (decide_eq_true he),
    bind_eq_bind, bind_some, if_pos (And.intro (Nat.le_of_lt hlt) he), hslice]
  cases hfind : leader.findMatches (slice chain c e) with
  | none => exact .inl rfl
  | some =>
    have hend : c + (e - c) = e := Nat.add_sub_cancel' (Nat.le_of_lt hlt)
    refine .inr ⟨_, rfl, ⟨?_, ?_, leader.answers hfind⟩, rfl, hend⟩
    · exact hend.trans_le (Nat.le_trans he h.1)
    · rw [OnboardingShard.endBlock, hend]

/-- The computed prefix moves.  The shards then begin at the lower of where they began and the new
prefix, unless the leader fails. -/
theorem reconcileHead_backed (leader : Leader H) (h : Backed cfg chain buffer st a b p)
    (hbuf : AgreesFrom chain (min a c) buffer) (hback : cfg.debug = true → a < c → p ≤ c) :
    ∃ st' ok a' p', reconcileHead cfg leader buffer st (c * cfg.blockSize) = some (st', ok) ∧
      Backed cfg chain buffer st' a' b p' ∧ (ok = true → p' = c ∧ a' = min a c) := by
  have hpos := cfg.blockSize_pos
  unfold reconcileHead
  simp only [h.computed, Nat.mul_lt_mul_right hpos, ← Nat.sub_mul, Nat.mul_mod_left, if_true,
    Nat.mul_div_cancel c hpos]
  split
  · rename_i hpc
    have hac : a ≤ c := Nat.le_trans h.masked (Nat.le_of_lt hpc)
    exact ⟨_, _, a, c, rfl, ⟨h.ne, h.tiles, h.le, h.agrees, rfl, hac⟩,
      fun _ => ⟨rfl, (Nat.min_eq_left hac).symm⟩⟩
  · split
    · rename_i hcp
      split
      · exact absurd ‹_› h.ne
      rename_i head rest hcons
      have hhead : head.startBlock = a := (hcons ▸ h.tiles).head_eq
      have hassert : debugAssert cfg (decide (c ≤ a)) = some () :=
        debugAssert_of_debug fun hd => decide_eq_true (by have := hback hd; omega)
      simp only [hhead, hassert, bind_eq_bind, bind_some]
      split
      · rename_i hca
        have ha := Nat.le_trans h.tiles.le h.le
        rcases issueShard_cases hca ha
          (hbuf.mono (Nat.min_le_right a c)) with hnone | ⟨shard, hsome, hs, hstart, hend⟩
        · exact ⟨st, false, a, p, by rw [hnone]; rfl, h, nofun⟩
        refine ⟨⟨c * cfg.blockSize, shard :: st.shards⟩, true, c, c, by rw [hsome]; rfl,
          ⟨cons_ne_nil _ _, .cons hstart hs (hend ▸ h.tiles), h.le, ?_, rfl, ?_⟩,
          fun _ => ⟨rfl, (Nat.min_eq_right (Nat.le_of_lt hca)).symm⟩⟩
        · exact hbuf.mono (Nat.min_le_right a c)
        · exact Nat.le_refl c
      · rename_i hca
        have hac : a ≤ c := Nat.not_lt.mp hca
        exact ⟨_, _, a, c, rfl, ⟨h.ne, h.tiles, h.le, h.agrees, rfl, hac⟩,
          fun _ => ⟨rfl, (Nat.min_eq_left hac).symm⟩⟩
    · have hpc : p = c := by omega
      exact ⟨st, true, a, p, rfl, h, fun _ => ⟨hpc, (Nat.min_eq_left (hpc ▸ h.masked)).symm⟩⟩

theorem computeLastBlockIndex_succ :
    computeLastBlockIndex (e * cfg.blockSize + 1) cfg.blockSize = e := by
  have hpos := cfg.blockSize_pos
  rw [computeLastBlockIndex, Nat.add_comm, Nat.add_mul_mod_self_right,
    Nat.add_mul_div_right _ _ hpos]
  by_cases hone : cfg.blockSize = 1
  · rw [hone]
    simp
  have hlt : 1 < cfg.blockSize := by omega
  rw [Nat.mod_eq_of_lt hlt, Nat.div_eq_of_lt hlt]
  simp

/-- The window reaches past the shards. -/
theorem reconcileTail_backed (leader : Leader H) (h : Backed cfg chain buffer st a b p)
    (he : e ≤ buffer.length) :
    ∃ st' ok b', reconcileTail cfg leader buffer st (e * cfg.blockSize + 1) = some (st', ok) ∧
      Backed cfg chain buffer st' a b' p := by
  unfold reconcileTail
  split
  · rename_i hnone
    exact absurd (getLast?_eq_none_iff.mp hnone) h.ne
  rename_i last hlast
  have hend : last.endBlock = b := h.tiles.last_eq last hlast
  simp only [computeLastBlockIndex_succ, hend]
  split
  · rename_i hbe
    rcases issueShard_cases hbe he
      (h.agrees.mono h.tiles.le) with hnone | ⟨shard, hsome, hs, hstart, hend'⟩
    · exact ⟨st, false, b, by rw [hnone]; rfl, h⟩
    refine ⟨{ st with shards := st.shards ++ [shard] }, true, e, by rw [hsome]; rfl,
      ⟨by simp, ?_, he, h.agrees, h.computed, h.masked⟩⟩
    exact h.tiles.append (.cons hstart hs (hend' ▸ .nil _))
  · exact ⟨st, true, b, rfl, h⟩

theorem reconcileState_backed (leader : Leader H) (h : Backed cfg chain buffer st a b p)
    (hbuf : AgreesFrom chain (min a c) buffer) (he : e ≤ buffer.length)
    (hback : cfg.debug = true → a < c → p ≤ c) :
    ∃ st' ok a' b' p', reconcileState cfg leader buffer st (c * cfg.blockSize)
        (e * cfg.blockSize + 1) = some (st', ok) ∧
      Backed cfg chain buffer st' a' b' p' ∧ (ok = true → p' = c ∧ a' = min a c) := by
  have hne : (!st.shards.isEmpty) = true := by simp [h.ne]
  obtain ⟨st1, ok1, a1, p1, heq1, hst1, hp1⟩ := reconcileHead_backed leader h hbuf hback
  obtain ⟨st2, ok2, b2, heq2, hst2⟩ := reconcileTail_backed leader hst1 he
  simp only [reconcileState, debugAssert_of hne, debugAssert_of h.tiles.contiguous,
    Nat.mul_mod_left, if_true, heq1, heq2, bind_eq_bind, bind_some]
  cases ok1 with
  | false => exact ⟨st1, false, a1, b, p1, rfl, hst1, nofun⟩
  | true =>
    cases ok2 with
    | false => exact ⟨st2, false, a1, b2, p1, rfl, hst2, nofun⟩
    | true =>
      refine ⟨st2, true, a1, b2, p1, ?_, hst2, fun _ => hp1 rfl⟩
      simp only [if_true, debugAssert_of hst2.tiles.contiguous, bind_some]

end Reconcile

/-! ### Polls -/

namespace SearchState

/-- Where the first shard begins: the lowest computed prefix the search has had. -/
def head (s : SearchState H) : Nat := (s.onboarding.shards.head?.map (·.startBlock)).getD 0

/-- What every poll relies on. -/
def Standing (cfg : SearchConfig) (chain : List H) (s : SearchState H) : Prop :=
  ∃ b p, Backed cfg chain s.buffer s.onboarding s.head b p

/-- What holds of a search between polls; `computed` is the prefix of the last one. -/
structure Sound (cfg : SearchConfig) (chain : List H) (computed : Nat) (s : SearchState H) :
    Prop where
  backed : ∃ b p, Backed cfg chain s.buffer s.onboarding s.head b p ∧
    (s.status ≠ .lost → p = computed)
  reported : ∀ h, s.status = .matched h →
    ∃ outcome, computeOutcome cfg s.onboarding = some outcome ∧ matchStatus cfg outcome = .matched h

theorem Sound.standing {s : SearchState H} {computed : Nat} (hs : s.Sound cfg chain computed) :
    s.Standing cfg chain := by
  obtain ⟨b, p, hb, -⟩ := hs.backed
  exact ⟨b, p, hb⟩

end SearchState

variable {st : OnboardingState H} {buffer : List H} {s : SearchState H}

theorem Backed.head_eq {a b p : Nat} (h : Backed cfg chain buffer st a b p) (status : MatchStatus) :
    SearchState.head ⟨st, buffer, status⟩ = a := by
  obtain ⟨shard, rest, hcons⟩ := exists_cons_of_ne_nil h.ne
  have hstart := (hcons ▸ h.tiles).head_eq
  simp [SearchState.head, hcons, hstart]

theorem Backed.sound {a b c : Nat} (h : Backed cfg chain buffer st a b c) :
    ∃ outcome, computeOutcome cfg st = some outcome ∧
      SearchState.Sound cfg chain c ⟨st, buffer, matchStatus cfg outcome⟩ := by
  obtain ⟨outcome, ho⟩ := OnboardingState.exists_computeOutcome h.tiles h.ne
  exact ⟨outcome, ho, ⟨b, c, (h.head_eq _).symm ▸ h, fun _ => rfl⟩, fun _ hs => ⟨_, ho, hs⟩⟩

/-- The request shows the poll the blocks from `c` to `e` of its chain. -/
structure MatchWindow.Shows (req : MatchWindow H) (chain : List H) (c e : Nat) : Prop where
  computed : req.computedBlocks = c
  before : req.prefixPlhs = chain.take c
  plhs : req.blockPlhs = slice chain c e
  lt : c < e
  inside : e ≤ chain.length

variable {req : MatchWindow H} {c e : Nat}

theorem MatchWindow.Shows.length (h : req.Shows chain c e) :
    c + (slice chain c e).length = e := add_length_slice h.lt h.inside

theorem MatchWindow.Shows.nonempty (h : req.Shows chain c e) : (slice chain c e).isEmpty = false :=
  isEmpty_eq_false_iff.mpr (slice_ne_nil h.lt h.inside)

theorem performSearch_sound (leader : Leader H) (hreq : req.Shows chain c e) :
    ∃ search, performSearch cfg leader req = some search ∧ ∀ s ∈ search, s.Sound cfg chain c := by
  obtain ⟨buffer, hbuild, hlen, hagrees⟩ := buildBuffer_agrees hreq.lt hreq.inside
  unfold performSearch
  simp only [hreq.nonempty, hreq.computed, hreq.length, hreq.plhs, hbuild, bind_eq_bind,
    bind_some, Bool.false_eq_true, if_false]
  rcases issueShard_cases hreq.lt hlen.ge hagrees with
    hnone | ⟨shard, hsome, hs, hstart, hend⟩
  · exact ⟨none, by rw [hnone]; rfl, nofun⟩
  have hbacked : Backed cfg chain buffer ⟨c * cfg.blockSize, [shard]⟩ c e c :=
    ⟨cons_ne_nil _ _, .cons hstart hs (hend ▸ .nil _), hlen.ge, hagrees, rfl, Nat.le_refl c⟩
  obtain ⟨outcome, ho, hsound⟩ := hbacked.sound
  simp only [hsome, ho, bind_some]
  split
  · exact ⟨none, rfl, nofun⟩
  refine ⟨_, rfl, ?_⟩
  intro s hm
  cases hm
  exact hsound

/-- The poll does not have padding searched, nor trip the assertion on the head. -/
def SearchState.Accepts (cfg : SearchConfig) (s : SearchState H) (c e : Nat) : Prop :=
  (c < s.head → s.head ≤ e) ∧
    (cfg.debug = true → s.head < c → s.onboarding.numComputedTokens ≤ c * cfg.blockSize)

theorem performRefresh_sound {leader : Leader H} (hs : s.Standing cfg chain)
    (hreq : req.Shows chain c e) (hc : c ≤ s.buffer.length) (hok : s.Accepts cfg c e) :
    ∃ s', performRefresh cfg leader s req = some s' ∧ s'.Sound cfg chain c := by
  obtain ⟨b, p, hb⟩ := hs
  obtain ⟨buffer, hmerge, hlen, hagrees⟩ := mergeBuffer_agrees cfg hb.agrees hreq.lt
    hreq.inside hc hok.1
  have hgrow : s.buffer.length ≤ buffer.length := hlen ▸ Nat.le_max_left _ _
  have hb' : Backed cfg chain buffer s.onboarding s.head b p :=
    ⟨hb.ne, hb.tiles, Nat.le_trans hb.le hgrow, hagrees.mono (Nat.min_le_left _ _), hb.computed,
      hb.masked⟩
  have hback : cfg.debug = true → s.head < c → p ≤ c := by
    intro hd hlt
    have := hok.2 hd hlt
    rw [hb.computed] at this
    exact Nat.le_of_mul_le_mul_right this cfg.blockSize_pos
  obtain ⟨st', ok, a', b', p', heq, hst', hp'⟩ :=
    reconcileState_backed leader hb' hagrees (hlen ▸ Nat.le_max_right _ _) hback
  unfold performRefresh
  simp only [hreq.computed, hreq.length, hreq.plhs, hmerge, heq, bind_eq_bind, bind_some]
  cases ok with
  | false =>
    have hlost := hst'.head_eq .lost
    exact ⟨⟨st', buffer, .lost⟩, rfl, ⟨b', p', hlost.symm ▸ hst', fun h => absurd rfl h⟩,
      fun _ h => nomatch h⟩
  | true =>
    obtain ⟨rfl, -⟩ := hp' rfl
    obtain ⟨outcome, ho, hsound⟩ := hst'.sound
    exact ⟨_, by rw [if_pos rfl, ho]; rfl, hsound⟩

theorem localRefresh_sound [DecidableEq H] (leader : Leader H) (hs : s.Standing cfg chain)
    (hreq : req.Shows chain c e) (hc : c ≤ s.buffer.length) (hok : s.Accepts cfg c e) :
    ∃ s', localRefresh cfg leader s req = some s' ∧ s'.Sound cfg chain c := by
  unfold localRefresh
  split
  · rename_i hsame
    obtain ⟨b, p, hb⟩ := hs
    have hpc : p = c := by
      simp only [refreshWindowUnchanged, Bool.and_eq_true, decide_eq_true_eq, hb.computed,
        hreq.computed] at hsame
      exact Nat.eq_of_mul_eq_mul_right cfg.blockSize_pos hsame.1.1.1.2
    subst hpc
    obtain ⟨outcome, ho, hsound⟩ := hb.sound
    exact ⟨_, by rw [ho]; rfl, hsound⟩
  · exact performRefresh_sound hs hreq hc hok

/-! ### Runs -/

namespace Finder

variable {f f' : Finder H}

def windowEnd (cfg : SearchConfig) (chain : List H) (totalTokens : Nat) : Nat :=
  min ((totalTokens - 1) / cfg.blockSize) chain.length

variable {numComputedTokens totalTokens : Nat}

theorem matchWindow_shows
    (hlt : numComputedTokens / cfg.blockSize < windowEnd cfg chain totalTokens)
    (hu32 : numComputedTokens / cfg.blockSize < 4294967296) :
    (matchWindow cfg chain numComputedTokens totalTokens).Shows chain
      (numComputedTokens / cfg.blockSize) (windowEnd cfg chain totalTokens) where
  computed := Nat.mod_eq_of_lt hu32
  before := congrArg (chain.take ·)
    (Nat.min_eq_left (Nat.le_of_lt (Nat.lt_of_lt_of_le hlt (Nat.min_le_right _ _))))
  plhs := congrArg (slice chain · _) (Nat.min_eq_left (Nat.le_of_lt hlt))
  lt := hlt
  inside := Nat.min_le_right _ _

theorem matchWindow_empty
    (hge : ¬ numComputedTokens / cfg.blockSize < windowEnd cfg chain totalTokens) :
    (matchWindow cfg chain numComputedTokens totalTokens).blockPlhs.isEmpty = true := by
  have hmin : min (numComputedTokens / cfg.blockSize) (windowEnd cfg chain totalTokens) =
      windowEnd cfg chain totalTokens := Nat.min_eq_right (Nat.not_lt.mp hge)
  have hplhs : (matchWindow cfg chain numComputedTokens totalTokens).blockPlhs =
      slice chain (min (numComputedTokens / cfg.blockSize) (windowEnd cfg chain totalTokens))
        (windowEnd cfg chain totalTokens) := rfl
  rw [hplhs, hmin, slice_self]
  rfl

/-- The polls that are answered right: the computed prefix fits its type and is not above the
highest end seen, and the search accepts the window.  A session that ends holds the blocks it has
matched. -/
def Accepts (cfg : SearchConfig) (chain : List H) (f : Finder H) : FindOp H → Prop
  | .poll _ numComputedTokens totalTokens =>
    numComputedTokens / cfg.blockSize < windowEnd cfg chain totalTokens →
      numComputedTokens / cfg.blockSize < 4294967296 ∧
        ∀ s ∈ f.search, numComputedTokens / cfg.blockSize ≤ s.buffer.length ∧
          s.Accepts cfg (numComputedTokens / cfg.blockSize) (windowEnd cfg chain totalTokens)
  | .progress i session =>
    ∀ s ∈ f.search, ∀ shard ∈ s.onboarding.shards[i]?, session.Answers shard.queried
  | .release => True

instance [DecidableEq H] (f : Finder H) : (op : FindOp H) → Decidable (f.Accepts cfg chain op)
  | .poll _ _ _ => inferInstanceAs (Decidable (_ → _ ∧ ∀ s ∈ f.search, _ ∧ _ ∧ _))
  | .progress _ _ => inferInstanceAs (Decidable (∀ s ∈ f.search, ∀ shard ∈ _, _))
  | .release => inferInstanceAs (Decidable True)

def Inv (cfg : SearchConfig) (chain : List H) (f : Finder H) : Prop :=
  ∀ s ∈ f.search, s.Sound cfg chain f.computed

variable {leader : Leader H} {s : SearchState H} {computed h : Nat} {session : FindSession H}
  {i : Nat}

theorem poll_sound [DecidableEq H] (hs : ∀ s ∈ f.search, s.Standing cfg chain)
    (hlt : numComputedTokens / cfg.blockSize < windowEnd cfg chain totalTokens)
    (hok : f.Accepts cfg chain (.poll leader numComputedTokens totalTokens)) :
    ∃ search, f.findBlocks cfg chain leader numComputedTokens totalTokens =
        some ⟨search, numComputedTokens / cfg.blockSize⟩ ∧
      ∀ s ∈ search, s.Sound cfg chain (numComputedTokens / cfg.blockSize) := by
  obtain ⟨hu32, hsearch⟩ := hok hlt
  have hreq := matchWindow_shows hlt hu32
  unfold findBlocks
  simp only [hreq.plhs, hreq.nonempty, Bool.false_eq_true, if_false]
  cases hf : f.search with
  | none =>
    obtain ⟨search, heq, hsound⟩ := performSearch_sound leader hreq
    exact ⟨search, by simp only [heq]; rfl, hsound⟩
  | some s =>
    obtain ⟨hc, hacc⟩ := hsearch s hf
    obtain ⟨s', heq, hsound⟩ := localRefresh_sound leader (hs s hf) hreq hc hacc
    refine ⟨some s', by simp only [heq]; rfl, ?_⟩
    intro t ht
    cases ht
    exact hsound

theorem Inv.poll [DecidableEq H] (hi : f.Inv cfg chain)
    (hok : f.Accepts cfg chain (.poll leader numComputedTokens totalTokens)) :
    ∃ f', f.findBlocks cfg chain leader numComputedTokens totalTokens = some f' ∧
      f'.Inv cfg chain := by
  by_cases hlt : numComputedTokens / cfg.blockSize < windowEnd cfg chain totalTokens
  · obtain ⟨search, heq, hsound⟩ := poll_sound (fun s hs => (hi s hs).standing) hlt hok
    exact ⟨_, heq, hsound⟩
  · exact ⟨f, if_pos (matchWindow_empty hlt), hi⟩

/-- A search that has reported a match has the prefix of the last poll. -/
theorem backed_of_reported (hs : s.Sound cfg chain computed) (hm : s.status = .matched h) :
    ∃ b, Backed cfg chain s.buffer s.onboarding s.head b computed ∧
      max s.head (s.onboarding.numComputedTokens / cfg.blockSize) = computed := by
  obtain ⟨b, p, hb, hp⟩ := hs.backed
  obtain rfl : p = computed := hp (by rw [hm]; nofun)
  refine ⟨b, hb, ?_⟩
  rw [hb.computed, Nat.mul_div_cancel _ cfg.blockSize_pos, Nat.max_eq_right hb.masked]

/-- And no session of it goes on. -/
theorem terminal_of_reported (hs : s.Sound cfg chain computed) (hm : s.status = .matched h) :
    s.onboarding.allShardsTerminal = true := by
  obtain ⟨outcome, ho, hmatch⟩ := hs.reported h hm
  by_contra hterm
  rw [computeOutcome, if_neg hterm] at ho
  cases ho
  cases hmatch

/-- A session that goes on leaves everything else as it is. -/
theorem progress_backed
    (hok : f.Accepts cfg chain (.progress i session)) (h : f.progress i session = some f') :
    ∃ s shard st, f.search = some s ∧ shard ∈ s.onboarding.shards ∧
      shard.findSession.isTerminal = false ∧
      f' = { f with search := some { s with onboarding := st } } ∧
      ∀ {b p}, Backed cfg chain s.buffer s.onboarding s.head b p →
        Backed cfg chain s.buffer st (SearchState.head ⟨st, s.buffer, s.status⟩) b p := by
  unfold Finder.progress at h
  obtain ⟨s, hf, h⟩ := bind_eq_some_iff.mp h
  obtain ⟨shard, hshard, h⟩ := bind_eq_some_iff.mp h
  split at h
  · cases h
  rename_i hterm
  refine ⟨s, shard, _, hf, mem_of_getElem? hshard, Bool.not_eq_true _ ▸ hterm,
    (some.inj h).symm, ?_⟩
  intro b p hb
  have hold := hb.tiles.searched shard (mem_of_getElem? hshard)
  have hnew : OnboardingShard.Searched chain { shard with findSession := session } :=
    ⟨hold.inside, hold.queried, hok s hf shard hshard⟩
  have hb' : Backed cfg chain s.buffer
      { s.onboarding with
        shards := s.onboarding.shards.set i { shard with findSession := session } } s.head b p :=
    ⟨by simp [hb.ne], hb.tiles.set hshard hnew rfl rfl, hb.le, hb.agrees, hb.computed, hb.masked⟩
  exact (hb'.head_eq s.status).symm ▸ hb'

theorem Inv.progress (hi : f.Inv cfg chain) (hok : f.Accepts cfg chain (.progress i session))
    (h : f.progress i session = some f') : f'.Inv cfg chain := by
  obtain ⟨s, shard, st, hf, hshard, hterm, rfl, hst⟩ := progress_backed hok h
  intro t ht
  cases ht
  have hs := hi s hf
  obtain ⟨b, p, hb, hp⟩ := hs.backed
  refine ⟨⟨b, p, hst hb, hp⟩, ?_⟩
  intro h hm
  have hall := all_eq_true.mp (terminal_of_reported hs hm) shard hshard
  rw [hterm] at hall
  cases hall

theorem Inv.step [DecidableEq H] (hi : f.Inv cfg chain) {op : FindOp H}
    (hok : f.Accepts cfg chain op) (h : f.step cfg chain op = some f') : f'.Inv cfg chain := by
  cases op with
  | poll =>
    obtain ⟨f'', heq, hi'⟩ := hi.poll hok
    obtain rfl : f'' = f' := some.inj (heq.symm.trans h)
    exact hi'
  | progress => exact hi.progress hok h
  | release =>
    cases h
    intro s hs
    cases hs

/-! ### What is matched sits in its own place -/

/-- The shards lie side by side and were searched over their own parts of the chain; what is
reported as matched is matched after the computed prefix, what is then collected carries the hashes
from there, and it is loaded into the blocks of the allocation from there. -/
structure Aligned (cfg : SearchConfig) (chain : List H) (f : Finder H) : Prop where
  contiguous : ∀ s ∈ f.search,
    s.onboarding.shards ≠ [] ∧ OnboardingState.contiguous s.onboarding.shards = true
  searched : ∀ s ∈ f.search, ∀ shard ∈ s.onboarding.shards, shard.endBlock ≤ chain.length ∧
    shard.queried = slice chain shard.startBlock shard.endBlock
  matched : ∀ s ∈ f.search, ∀ h, s.status = .matched h → ∀ k < h,
    ∃ shard ∈ s.onboarding.shards, ∃ m, shard.findSession.terminalMatchedCount cfg = some m ∧
      shard.startBlock ≤ f.computed + k ∧ f.computed + k < shard.startBlock + m
  /-- A release build that is asked for blocks after an answer of none takes what it has. -/
  collected : ∀ s ∈ f.search, ∀ h n blocks, s.status = .matched h →
    (cfg.debug = true ∨ n = 0 ∨ 0 < h) →
      collectG2Blocks cfg s.onboarding n = some (some blocks) →
        blocks.length = n ∧ ∀ i < n, ∃ block, blocks[i]? = some block ∧
          chain[f.computed + i]? = some block.sequenceHash
  loaded : ∀ s ∈ f.search, ∀ h n dest, s.status = .matched h → ∀ i < n,
    (selectOnboardBlockIds cfg dest s.onboarding.numComputedTokens (n * cfg.blockSize))[i]? =
      dest[f.computed + i]?

variable {s : SearchState H} {h : Nat}

theorem reported_spans {computed : Nat} (hs : s.Sound cfg chain computed)
    (hm : s.status = .matched h) :
    ∃ e, s.onboarding.matchedSpan cfg = some (computed, e) ∧ h = asU32 (e - computed) ∧
      s.head ≤ computed ∧ e ≤ chain.length ∧ Spans chain s.onboarding.shards s.head e := by
  obtain ⟨b, hb, hcomputed⟩ := backed_of_reported hs hm
  have hterm := terminal_of_reported hs hm
  obtain ⟨e, he, heb, hspan⟩ := OnboardingState.matchedSpan_eq hb.tiles hb.ne hterm
  rw [hcomputed] at he
  refine ⟨e, he, ?_, hb.masked, Nat.le_trans heb (hb.tiles.inside hb.ne), hspan⟩
  obtain ⟨outcome, ho, hmatch⟩ := hs.reported h hm
  rw [computeOutcome, if_pos hterm, he] at ho
  cases ho
  rw [matchStatus, Nat.mul_div_cancel _ cfg.blockSize_pos] at hmatch
  exact (MatchStatus.matched.inj hmatch).symm

theorem Inv.aligned (hi : f.Inv cfg chain) : f.Aligned cfg chain where
  contiguous s hs := by
    obtain ⟨b, p, hb, -⟩ := (hi s hs).backed
    exact ⟨hb.ne, hb.tiles.contiguous⟩
  searched s hs shard hshard := by
    obtain ⟨b, p, hb, -⟩ := (hi s hs).backed
    have := hb.tiles.searched shard hshard
    exact ⟨this.inside, this.queried⟩
  matched s hf h hm k hk := by
    have hs := hi s hf
    obtain ⟨b, p, hb, -⟩ := hs.backed
    obtain ⟨e, -, hh, hle, -, hspan⟩ := reported_spans hs hm
    have hke : k < e - f.computed := Nat.lt_of_lt_of_le hk (hh ▸ Nat.mod_le _ _)
    obtain ⟨shard, hshard, hmatch⟩ := hspan.covers (f.computed + k) (by omega) (by omega)
    have hterm := all_eq_true.mp (terminal_of_reported hs hm) shard hshard
    exact ⟨shard, hshard, _, (hb.tiles.searched shard hshard).answers.matchedCount hterm, hmatch⟩
  collected s hf h n blocks hm hn hc := by
    have hs := hi s hf
    obtain ⟨b, hb, hcomputed⟩ := backed_of_reported hs hm
    obtain ⟨e, he, hh, -⟩ := reported_spans hs hm
    obtain ⟨hlen, e', he', hdebug, hhashes⟩ :=
      hb.tiles.collect hb.ne (terminal_of_reported hs hm) hcomputed hc
    obtain rfl : e' = e := by simpa using he'.symm.trans he
    refine ⟨hlen, fun i hin => ?_⟩
    have hspan : f.computed ≤ e' := by
      rcases hn with hd | rfl | hpos
      · exact hdebug hd
      · omega
      · have : h ≤ e' - f.computed := hh ▸ Nat.mod_le _ _
        omega
    obtain ⟨block, hblock⟩ : ∃ block, blocks[i]? = some block :=
      ⟨_, getElem?_eq_getElem (hlen ▸ hin)⟩
    refine ⟨block, hblock, ?_⟩
    have hget := congrArg (·[i]?) (hhashes hspan)
    simp only [getElem?_map, hblock, getElem?_slice] at hget
    rw [if_pos (by omega)] at hget
    exact hget.symm
  loaded s hs h n dest hm i hin := by
    obtain ⟨b, hb, -⟩ := backed_of_reported (hi s hs) hm
    have hpos := cfg.blockSize_pos
    rw [hb.computed, selectOnboardBlockIds, Nat.mul_div_cancel _ hpos, Nat.mul_div_cancel _ hpos,
      getElem?_slice]
    by_cases hdest : f.computed + i < dest.length
    · rw [Nat.min_eq_left (by omega), if_pos (by omega)]
    · rw [if_neg (by omega), getElem?_eq_none (Nat.not_lt.mp hdest)]

/-- **Each matched block is loaded into its own position**, and no poll stops the program. -/
theorem aligned_of_accepts [DecidableEq H]
    (h : ReachableWhile (Accepts cfg chain) (· = ⟨none, 0⟩) (step cfg chain) f) :
    f.Aligned cfg chain ∧
      ∀ leader numComputedTokens totalTokens,
        f.Accepts cfg chain (.poll leader numComputedTokens totalTokens) →
          ∃ f', f.step cfg chain (.poll leader numComputedTokens totalTokens) = some f' := by
  have hi : f.Inv cfg chain := by
    refine h.invariant ?_ ?_
    · intro f hf s hs
      subst hf
      cases hs
    · intro f op f' hi hok hs
      exact hi.step hok hs
  refine ⟨hi.aligned, ?_⟩
  intro leader numComputedTokens totalTokens hok
  obtain ⟨f', heq, -⟩ := hi.poll hok
  exact ⟨f', heq⟩

/-- A leader that has the first blocks of any chain in the host cache. -/
def findUpTo (n : Nat) : Leader Nat where
  findMatches hashes :=
    some (.ready ((hashes.take n).map fun h => ⟨h, h⟩) ⟨(hashes.take n).length, 0, 0⟩)
  answers := by
    intro hashes session h
    cases h
    refine ⟨by simp, ?_⟩
    simp only [Option.getD_some, List.map_map]
    exact (List.map_id (hashes.take n)).symm ▸ List.take_prefix n hashes

def eightBlocks : List Nat := [10, 11, 12, 13, 14, 15, 16, 17]

def debugBuild : SearchConfig := ⟨true, 4, Nat.succ_pos 3, false⟩

def releaseBuild : SearchConfig := ⟨false, 4, Nat.succ_pos 3, false⟩

/-- The computed prefix grows by two blocks, and falls below where it was. -/
def upAndDown : List (FindOp Nat) :=
  [.poll (findUpTo 8) 8 25, .poll (findUpTo 8) 16 25, .poll (findUpTo 2) 4 33]

theorem aligned_of_accepts_upAndDown :
    ∃ f, runListWhile (Accepts debugBuild eightBlocks) (step debugBuild eightBlocks) ⟨none, 0⟩
        upAndDown = some f ∧
      f.search.map (fun s => (s.onboarding.shards.map (·.queried), s.status)) =
        some ([[11], [12, 13, 14, 15], [16, 17]], .matched 7) ∧
      f.Aligned debugBuild eightBlocks := by
  exact exists_of_map
    (f := fun f => f.search.map fun s => (s.onboarding.shards.map (·.queried), s.status))
    (by decide) fun f hf hshape =>
      ⟨hshape, (aligned_of_accepts (ReachableWhile.runListWhile (.init rfl) hf)).1⟩

/-- The window of the second poll ends below the shard of the first. -/
def windowBelow : List (FindOp Nat) := [.poll (findUpTo 8) 16 33, .poll (findUpTo 8) 0 9]

/-- The first shard has a hole, and the prefix has grown past it. -/
def pastTheHole : List (FindOp Nat) :=
  [.poll (findUpTo 1) 0 9, .poll (findUpTo 8) 0 25, .poll (findUpTo 8) 12 25]

/-- The prefix falls back part of the way, and the assertion on the head stops a debug build.  The
window falls below the first shard, and the padding between them is searched.  A release build is
asked for a block after an answer of none, and takes the one of another position. -/
theorem polls_not_aligned :
    (∃ f, runList (step debugBuild eightBlocks) ⟨none, 0⟩
        [.poll (findUpTo 8) 0 17, .poll (findUpTo 8) 8 17] = some f ∧
      f.step debugBuild eightBlocks (.poll (findUpTo 8) 4 17) = none) ∧
    (∃ f, runList (step releaseBuild eightBlocks) ⟨none, 0⟩ windowBelow = some f ∧
      ¬ f.Aligned releaseBuild eightBlocks) ∧
    ∃ f s, runList (step releaseBuild eightBlocks) ⟨none, 0⟩ pastTheHole = some f ∧
      f.search = some s ∧ s.status = .matched 0 ∧ f.computed = 3 ∧ eightBlocks[3]? = some 13 ∧
        collectG2Blocks releaseBuild s.onboarding 1 = some (some [⟨14, 14⟩]) := by
  refine ⟨?_, ?_, ?_⟩
  · exact map_eq_some_iff.mp (by decide)
  · refine exists_of_map (f := fun f => f.search.map (·.onboarding.shards.map fun shard =>
        (shard.startBlock, shard.endBlock, shard.queried)))
      (b := some [(0, 4, [10, 11, 14, 14]), (4, 8, [14, 15, 16, 17])]) (by decide)
      fun f _ hshape hal => ?_
    obtain ⟨s, hs, hshards⟩ := map_eq_some_iff.mp hshape
    obtain ⟨shard, rest, hcons, hshard, -⟩ := map_eq_cons_iff.mp hshards
    obtain ⟨hstart, hrest⟩ := Prod.mk.inj hshard
    obtain ⟨hend, hqueried⟩ := Prod.mk.inj hrest
    have hsearched := (hal.searched s hs shard (by rw [hcons]; exact mem_cons_self)).2
    rw [hstart, hend, hqueried] at hsearched
    exact absurd hsearched (by decide)
  · have hrun : (runList (step releaseBuild eightBlocks) ⟨none, 0⟩ pastTheHole).map (fun f =>
        (f.search.map fun s =>
          (s.status, collectG2Blocks releaseBuild s.onboarding 1), f.computed)) =
        some (some (.matched 0, some (some [⟨14, 14⟩])), 3) :=
      rfl
    obtain ⟨f, hf, hshape⟩ := map_eq_some_iff.mp hrun
    obtain ⟨hsearch, hcomputed⟩ := Prod.mk.inj hshape
    obtain ⟨s, hs, hpair⟩ := map_eq_some_iff.mp hsearch
    obtain ⟨hstatus, hcollect⟩ := Prod.mk.inj hpair
    exact ⟨f, s, hf, hs, hstatus, hcomputed, rfl, hcollect⟩

end Finder

end Kvbm.Tiering
