/-
A generation that was invalidated does not come back.

A query returns the first candidate for which there is an eligible advertisement, and of several
owners the one that is written first.  As long as the mark of an invalidated generation is kept,
no advertisement up to that generation is stored, and so none is returned.
-/
import Mathlib.Data.Nat.Pairing
import Kvbm.Proofs.Hub.Bundle.Sound

namespace Kvbm.Hub.Bundle

open Lib List Option

variable {H : Type} [DecidableEq H] [SequenceHash H] {δ : Type} [LinearOrder δ]

namespace BundleDirectoryState

/-! ### What a query returns -/

/-- An advertisement that may be returned for `key`. -/
structure Eligible (s : BundleDirectoryState H) (request : BundleQueryRequest H)
    (key : BundleKey H) (a : BundleAdvertisementRecord H) : Prop where
  manifest : key.manifest = request.manifest
  stored : s.advertisements.get key a.owner = some a
  authority : ∃ authority, s.ownerCredentials a.owner = some authority ∧
    a.registrationEpoch = some authority.registrationEpoch
  current : s.retiredGenerations.rejectedGeneration a.key a.owner a.generation
    request.nowUnixMs = none
  unexpired : request.nowUnixMs < a.expiresAtUnixMs
  requirements : a.requirements = request.requirements
  complete : validateBundleLineages key request.requirements a.lineages = .ok ()

/-- The first of the keys with an eligible advertisement, and of its owners the one that is
written first. -/
structure FirstEligible (s : BundleDirectoryState H) (display : InstanceId → δ)
    (request : BundleQueryRequest H) (keys : List (BundleKey H))
    (a : BundleAdvertisementRecord H) : Prop where
  eligible : s.Eligible request a.key a
  first : ∃ before after, keys = before ++ a.key :: after ∧
    ∀ key ∈ before, ∀ b, ¬ s.Eligible request key b
  least : ∀ b, s.Eligible request a.key b → display a.owner ≤ display b.owner

variable {s : BundleDirectoryState H} {display : InstanceId → δ}
  {request : BundleQueryRequest H} {key : BundleKey H} {a : BundleAdvertisementRecord H}
  {reason : BundleQueryMissReason}

theorem refusal_eq_none :
    s.refusal request key a = none ↔
      (∃ authority, s.ownerCredentials a.owner = some authority ∧
        a.registrationEpoch = some authority.registrationEpoch) ∧
      s.retiredGenerations.rejectedGeneration a.key a.owner a.generation request.nowUnixMs = none ∧
      request.nowUnixMs < a.expiresAtUnixMs ∧ a.requirements = request.requirements ∧
      validateBundleLineages key request.requirements a.lineages = .ok () := by
  unfold refusal
  cases hauthority : s.ownerCredentials a.owner with
  | none => simp
  | some =>
    simp only [some.injEq, exists_eq_left']
    split_ifs with hepoch hrejected hexpired hrequirements
    · simp [hepoch]
    · simp [isSome_iff_ne_none.mp hrejected]
    · simp [not_lt.mpr hexpired]
    · simp [hrequirements]
    · rw [not_not] at hepoch hrequirements
      rw [Bool.not_eq_true, isSome_eq_false_iff, isNone_iff_eq_none] at hrejected
      cases hvalid : validateBundleLineages key request.requirements a.lineages with
      | error => simp
      | ok => simp [hepoch, hrejected, not_le.mp hexpired, hrequirements]

theorem mem_forKey (hs : s.Sound) :
    a ∈ s.advertisements.forKey key ↔ a.key = key ∧ s.advertisements.get key a.owner = some a := by
  simp only [AdvertisementIndex.forKey, List.mem_map, List.mem_filter, decide_eq_true_eq]
  constructor
  · rintro ⟨e, ⟨hmem, hkey⟩, he⟩
    have hlook : s.advertisements.byKey.lookup e.1 = some a := Listed.mem_entries.mp (he ▸ hmem)
    have hid := hs.advertisements.identity _ _ hlook
    have hakey : a.key = key := (congrArg Prod.fst hid).trans hkey
    refine ⟨hakey, ?_⟩
    rw [← hakey, AdvertisementIndex.get, hid]
    exact hlook
  · rintro ⟨hkey, hget⟩
    exact ⟨⟨(key, a.owner), a⟩, ⟨Listed.mem_entries.mpr hget, rfl⟩, rfl⟩

theorem eligible_iff (hs : s.Sound) (hmanifest : key.manifest = request.manifest) :
    s.Eligible request key a ↔
      a ∈ s.advertisements.forKey key ∧ s.refusal request key a = none := by
  rw [mem_forKey hs, refusal_eq_none]
  constructor
  · intro h
    have hkey : a.key = key := congrArg Prod.fst (hs.advertisements.identity _ _ h.stored)
    exact ⟨⟨hkey, h.stored⟩, h.authority, h.current, h.unexpired, h.requirements, h.complete⟩
  · intro ⟨⟨_, hstored⟩, hauthority, hcurrent, hunexpired, hrequirements, hcomplete⟩
    exact ⟨hmanifest, hstored, hauthority, hcurrent, hunexpired, hrequirements, hcomplete⟩

/-- The choice among the entries seen so far: an eligible one that is written first, or nothing if
none is eligible. -/
structure Choice (s : BundleDirectoryState H) (display : InstanceId → δ)
    (request : BundleQueryRequest H) (key : BundleKey H)
    (seen : List (BundleAdvertisementRecord H)) (choice : Option (BundleAdvertisementRecord H)) :
    Prop where
  chosen : ∀ b, choice = some b → (b ∈ seen ∧ s.refusal request key b = none) ∧
    ∀ c ∈ seen, s.refusal request key c = none → display b.owner ≤ display c.owner
  nothing : choice = none → ∀ c ∈ seen, s.refusal request key c ≠ none

variable {seen : List (BundleAdvertisementRecord H)}
  {found : BundleQueryMissReason × Option (BundleAdvertisementRecord H)}

section

variable (h : s.Choice display request key seen found.2)

include h

theorem Choice.skip (ha : s.refusal request key a ≠ none) :
    s.Choice display request key (seen ++ [a]) found.2 := by
  constructor
  · intro b hb
    obtain ⟨⟨hmem, hb⟩, hleast⟩ := h.chosen b hb
    refine ⟨⟨mem_append_left _ hmem, hb⟩, ?_⟩
    intro c hc hcn
    rcases mem_append.mp hc with hc | hc
    · exact hleast c hc hcn
    · exact absurd hcn (mem_singleton.mp hc ▸ ha)
  · intro hnone c hc
    rcases mem_append.mp hc with hc | hc
    · exact h.nothing hnone c hc
    · exact mem_singleton.mp hc ▸ ha

/-- An eligible entry is taken if it is written before the choice so far. -/
theorem Choice.take (ha : s.refusal request key a = none) :
    s.Choice display request key (seen ++ [a])
      (if found.2.all fun current => display a.owner < display current.owner then some a
        else found.2) := by
  split_ifs with hall
  · constructor
    · intro b hb
      obtain rfl := some.inj hb
      refine ⟨⟨by simp, ha⟩, ?_⟩
      intro c hc hcn
      rcases mem_append.mp hc with hc | hc
      · cases hfound : found.2 with
        | none => exact absurd hcn (h.nothing hfound c hc)
        | some current =>
          rw [hfound] at hall
          exact (of_decide_eq_true hall).le.trans ((h.chosen current hfound).2 c hc hcn)
      · exact (mem_singleton.mp hc ▸ le_rfl)
    · intro hnone
      cases hnone
  · cases hfound : found.2 with
    | none => exact absurd (by simp [hfound]) hall
    | some current =>
      obtain ⟨⟨hmem, hcurrent⟩, hleast⟩ := h.chosen current hfound
      rw [hfound] at hall
      constructor
      · intro b hb
        obtain rfl := some.inj hb
        refine ⟨⟨mem_append_left _ hmem, hcurrent⟩, ?_⟩
        intro c hc hcn
        rcases mem_append.mp hc with hc | hc
        · exact hleast c hc hcn
        · rw [mem_singleton.mp hc]
          exact not_lt.mp fun hlt => hall (decide_eq_true hlt)
      · intro hnone
        cases hnone

theorem Choice.consider :
    s.Choice display request key (seen ++ [a]) (s.consider display request key found a).2 := by
  unfold BundleDirectoryState.consider
  cases ha : s.refusal request key a with
  | none => exact h.take ha
  | some refused =>
    cases refused with
    | none => exact h.skip (by simp [ha])
    | some => exact h.skip (by simp [ha])

end

theorem Choice.fold {l : List (BundleAdvertisementRecord H)}
    (found : BundleQueryMissReason × Option (BundleAdvertisementRecord H))
    (h : s.Choice display request key seen found.2) :
    s.Choice display request key (seen ++ l)
      (l.foldl (s.consider display request key) found).2 := by
  induction l generalizing seen found with
  | nil => rwa [append_nil]
  | cons a l ih =>
    have hnext := ih _ (h.consider (a := a))
    rwa [append_assoc] at hnext

variable {keys : List (BundleKey H)}

theorem FirstEligible.pass
    (h : s.FirstEligible display request keys a) (hnone : ∀ b, ¬ s.Eligible request key b) :
    s.FirstEligible display request (key :: keys) a := by
  obtain ⟨before, after, hkeys, hbefore⟩ := h.first
  refine ⟨h.eligible, ⟨key :: before, after, by rw [hkeys, cons_append], ?_⟩, h.least⟩
  intro k hk
  rcases mem_cons.mp hk with hk | hk
  · rw [hk]
    exact hnone
  · exact hbefore k hk

/-- **The search returns the first eligible candidate.** -/
theorem search_first (hs : s.Sound) (h : s.search display request reason keys = .ok a) :
    s.FirstEligible display request keys a := by
  induction keys generalizing reason with
  | nil => cases h
  | cons key keys ih =>
    unfold search at h
    by_cases hmanifest : key.manifest = request.manifest
    · rw [if_neg (not_not.mpr hmanifest)] at h
      simp only at h
      generalize hnoted : (if s.expiredAdvertisements.contains key = true then
        note reason .expired else reason) = noted at h
      have hstart : s.Choice display request key [] none :=
        ⟨fun _ hb => absurd hb (by simp), fun _ _ hc => absurd hc (by simp)⟩
      have hchoice := hstart.fold (l := s.advertisements.forKey key) (noted, none)
      generalize hfold : (s.advertisements.forKey key).foldl (s.consider display request key)
        (noted, none) = result at h hchoice
      obtain ⟨reason', choice⟩ := result
      cases choice with
      | none =>
        refine (ih h).pass fun b hb => ?_
        obtain ⟨hmem, hb⟩ := (eligible_iff hs hmanifest).mp hb
        exact hchoice.nothing rfl b hmem hb
      | some b =>
        obtain rfl := Except.ok.inj h
        obtain ⟨⟨hmem, hb⟩, hleast⟩ := hchoice.chosen b rfl
        have hkey : b.key = key := ((mem_forKey hs).mp hmem).1
        have heligible := (eligible_iff hs hmanifest).mpr ⟨hmem, hb⟩
        subst hkey
        refine ⟨heligible, ⟨[], keys, rfl, by simp⟩, fun c hc => ?_⟩
        obtain ⟨hcmem, hc⟩ := (eligible_iff hs hmanifest).mp hc
        exact hleast c hcmem hc
    · rw [if_pos hmanifest] at h
      exact (ih h).pass fun b hb => hmanifest hb.manifest

end BundleDirectoryState

/-! ### Whole runs -/

namespace BundleDirectory

open BundleDirectoryState

variable {d d' : BundleDirectory H} {display : InstanceId → δ} {leaseId : Nat}

/-- One step, as a step of a run. -/
def next (d : BundleDirectory H) (action : Action H) : Option (BundleDirectory H) :=
  some (d.step action)

variable {start : BundleDirectory H}

theorem sound_of_reachable (hstart : start.state.Sound)
    (h : Reachable (· = start) next d) : d.state.Sound := by
  apply h.invariant (P := fun d => d.state.Sound)
  · intro e he
    exact he ▸ hstart
  · intro e action e' he hstep
    obtain rfl := some.inj hstep
    exact (moves_step (p := fun _ => False) he action fun _ _ => id).sound

/-- A mark stays until its horizon, as long as its owner's lifecycle goes on. -/
theorem mark_kept {i : Identity H} {m : RetiredGeneration}
    (hstart : start.state.Sound) (hm : start.state.retiredGenerations.entries.lookup i = some m)
    (h : ReachableWhile (fun e action => ¬ e.Renews i.2 action) (· = start) next d)
    (hclock : d.clock < m.retainUntilUnixMs) :
    ∃ m', d.state.retiredGenerations.entries.lookup i = some m' ∧ m.generation ≤ m'.generation := by
  have hkept : d.state.Sound ∧ (d.clock < m.retainUntilUnixMs → ∃ m',
      d.state.retiredGenerations.entries.lookup i = some m' ∧ m.generation ≤ m'.generation ∧
      m.retainUntilUnixMs ≤ m'.retainUntilUnixMs) := by
    apply h.invariant (P := fun d => d.state.Sound ∧ (d.clock < m.retainUntilUnixMs → ∃ m',
      d.state.retiredGenerations.entries.lookup i = some m' ∧ m.generation ≤ m'.generation ∧
      m.retainUntilUnixMs ≤ m'.retainUntilUnixMs))
    · intro e he
      exact he ▸ ⟨hstart, fun _ => ⟨m, hm, le_rfl, le_rfl⟩⟩
    · intro e action e' ⟨hsound, hmark⟩ hgoes hstep
      obtain rfl := some.inj hstep
      have hmoves := moves_step (p := fun o => o = i.2) hsound action
        fun o ho hoi => hgoes (hoi ▸ ho)
      refine ⟨hmoves.sound, fun hlater => ?_⟩
      -- the clock has not reached the horizon, so it had not before
      have hnow := clock_le_step.trans_lt hlater
      obtain ⟨m1, hm1, hgen, hret⟩ := hmark hnow
      obtain ⟨m2, hm2, hgen', hret'⟩ := hmoves.marks i m1 rfl hm1 (hnow.trans_le hret)
      exact ⟨m2, hm2, hgen.trans hgen', hret.trans hret'⟩
  obtain ⟨m', hm', hgen, -⟩ := hkept.2 hclock
  exact ⟨m', hm', hgen⟩

theorem answer_hit {request : BundleQueryRequest H} {hit : BundleQueryHit H}
    (h : d.answer display leaseId request = .hit hit) :
    d.state.search display request .notFound request.candidates = .ok hit.advertisement := by
  unfold answer at h
  split at h
  · cases h
  rename_i entry hsearch
  obtain rfl := BundleQueryOutcome.hit.inj h
  exact hsearch

/-- How long the hub grants a retirement to be kept. -/
def granted (d : BundleDirectory H) (request : BundleInvalidateRequest H) : Nat :=
  (d.state.prune d.clock).keepUntil request d.clock

/-- Unless its time has passed, a retirement leaves a mark. -/
theorem invalidate_mark {request : BundleInvalidateRequest H} {exact : Bool}
    (hs : d.state.Sound) (h : d.invalidate request = (.ok exact, d')) :
    d'.state.Sound ∧ (d.clock < d.granted request →
      ∃ m, d'.state.retiredGenerations.entries.lookup (request.key, request.owner) = some m ∧
        request.generation ≤ m.generation ∧ d.granted request ≤ m.retainUntilUnixMs) := by
  have hpruned : Moves d.clock (fun _ => True) d.state (d.state.prune d.clock) := moves_prune hs
  unfold invalidate at h
  split at h
  · cases h
  simp only at h
  split at h
  · cases h
  rename_i exact' s' hretire
  obtain ⟨-, rfl⟩ := Prod.mk.inj h
  have hmoves : Moves d.clock (fun _ => True) _ s' := moves_retire hpruned.sound hretire
  refine ⟨hmoves.sound, fun hkeep => ?_⟩
  obtain ⟨r, hretires, hs'⟩ := retire_eq_ok hretire
  obtain rfl : s'.retiredGenerations = r := by
    obtain rfl | ⟨rfl, -⟩ := hs' <;> rfl
  obtain ⟨m, hm, hgen, hret⟩ := hretires.marked hkeep
  exact ⟨m, hm, hgen ▸ le_max_right _ _, hret ▸ le_max_right _ _⟩

/-- **Invalidated generations are not revived.**  In every directory that calls and a clock that
never goes back lead to:

  * an advertisement is newer than what is retired under its identity, and the agenda, the counters
    and the lengths are exactly those of the records;
  * a successful invalidation leaves a mark, unless the time for which the hub grants it has passed
    already, and until the mark's time, as long as the owner's lifecycle goes on, no query returns
    an advertisement of the key and the owner up to the invalidated generation;
  * what a query returns is the first eligible candidate, and it has not expired.

A query prunes and then answers, and other calls may come in between, so answers are looked at in
every state. -/
theorem generations_not_revived (leaseTtlMs advertisementTtlMs advertisementsPerOwner
    advertisementsGlobal absentRetirementsPerOwner absentRetirementsGlobal clock : Nat)
    (h : Reachable (· = withLimits leaseTtlMs advertisementTtlMs advertisementsPerOwner
      advertisementsGlobal absentRetirementsPerOwner absentRetirementsGlobal clock) next d) :
    d.state.Sound ∧
    (∀ request exact d', d.invalidate request = (.ok exact, d') → d.clock < d.granted request →
      ∃ m, d'.state.retiredGenerations.entries.lookup (request.key, request.owner) = some m ∧
        request.generation ≤ m.generation ∧ d.granted request ≤ m.retainUntilUnixMs ∧
        ∀ e, ReachableWhile (fun e action => ¬ e.Renews request.owner action) (· = d') next e →
          e.clock < m.retainUntilUnixMs →
          ∀ (display : InstanceId → δ) leaseId query hit,
            e.answer display leaseId query = .hit hit →
            hit.advertisement.key = request.key → hit.advertisement.owner = request.owner →
            request.generation < hit.advertisement.generation) ∧
    (∀ (display : InstanceId → δ) leaseId query hit, d.answer display leaseId query = .hit hit →
      d.state.FirstEligible display query query.candidates hit.advertisement) ∧
    ∀ (display : InstanceId → δ) leaseId query hit, (d.query display leaseId query).1 = .hit hit →
      d.prune.state.FirstEligible display query query.candidates hit.advertisement ∧
      d.clock < hit.advertisement.expiresAtUnixMs := by
  have hs : d.state.Sound := sound_of_reachable sound_new h
  have hpruned : d.prune.state.Sound := (moves_prune (p := fun _ => True) hs).sound
  refine ⟨hs, ?_, ?_, ?_⟩
  · intro request exact d' hinvalidate hkeep
    obtain ⟨hs', hmark⟩ := invalidate_mark hs hinvalidate
    obtain ⟨m, hm, hgen, hret⟩ := hmark hkeep
    refine ⟨m, hm, hgen, hret, ?_⟩
    intro e he hclock display leaseId query hit hhit hkey howner
    obtain ⟨m', hm', hgen'⟩ := mark_kept (i := (request.key, request.owner)) hs' hm he hclock
    have hes : e.state.Sound := sound_of_reachable hs' he.toReachable
    have hstored := (search_first hes (answer_hit hhit)).eligible.stored
    rw [hkey, howner] at hstored
    exact (hgen.trans hgen').trans_lt (hes.newer _ _ m' hstored hm')
  · intro display leaseId query hit hhit
    exact search_first hs (answer_hit hhit)
  · intro display leaseId query hit hhit
    unfold BundleDirectory.query at hhit
    split_ifs at hhit
    have hfirst := search_first hpruned (answer_hit hhit)
    exact ⟨hfirst, (prune_live hs).2 _ hfirst.eligible.stored⟩

/-! A small run -/

/-- A hash that is the number of its block and its place. -/
structure PlainBlock where
  block : Nat
  position : Nat
  deriving DecidableEq, Repr

instance : SequenceHash PlainBlock where
  mode _ := 0
  position := PlainBlock.position
  parentHashFragment _ := 0
  parentFragmentForChildPosition _ _ := 0
  currentSequenceHash := PlainBlock.block
  new block _ position := ⟨block, position⟩
  asU128 h := Nat.pair h.block h.position
  asU128_injective := by
    intro a b h
    obtain ⟨hblock, hposition⟩ := Nat.pair_eq_pair.mp h
    cases a
    cases b
    exact congrArg₂ PlainBlock.mk hblock hposition

def plainKey : BundleKey PlainBlock := ⟨1, ⟨5, 0⟩, 16, by decide⟩

/-- Owner `7` registers and publishes generation `3`. -/
def published : List (Action PlainBlock) :=
  [.stage 7 (some 40) 2, .bind 7 2 1, .finalize 7 1,
    .publish ⟨40, ⟨plainKey, 3, 7, some 2, [⟨0, .prefixHistory, 16, by decide⟩],
      [⟨0, [⟨5, 0⟩]⟩], 1000, [], none, none⟩⟩]

def directory : BundleDirectory PlainBlock := published.foldl step (withLimits 30 500 4 8 4 8 100)

/-- Its invalidation leaves a mark. -/
theorem generations_not_revived_published :
    let request : BundleInvalidateRequest PlainBlock := ⟨40, plainKey, 3, 7, 900⟩
    (directory.invalidate request).1 = .ok true ∧
      ∃ m, (directory.invalidate request).2.state.retiredGenerations.entries.lookup (plainKey, 7) =
        some m ∧ 3 ≤ m.generation ∧ 600 ≤ m.retainUntilUnixMs := by
  intro request
  have hrun : runList next (withLimits 30 500 4 8 4 8 100) published = some directory := rfl
  have hreach : Reachable (· = withLimits 30 500 4 8 4 8 100) next directory :=
    Reachable.runList (.init rfl) hrun
  have hok : (directory.invalidate request).1 = .ok true := by decide
  have hgranted : directory.granted request = 600 := by decide
  have hclock : directory.clock < directory.granted request := by decide
  obtain ⟨-, hinvalidate, -, -⟩ := generations_not_revived (δ := Nat) 30 500 4 8 4 8 100 hreach
  obtain ⟨m, hm, hgen, hret, -⟩ := hinvalidate request true _ (Prod.ext hok rfl) hclock
  exact ⟨hok, m, hm, hgen, hgranted ▸ hret⟩

end BundleDirectory

end Kvbm.Hub.Bundle
