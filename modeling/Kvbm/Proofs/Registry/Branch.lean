/-
The fan-out of a record is the number of live children, while parents go last.

Dropping a block drops its record as a parent, but not what its live children know of it.  If such
a block is registered again it starts without a record, and its children are not counted any more.
A run in which a block is dropped only when it has no live child does not get there, and in it every
record counts exactly the children there are.
-/
import Kvbm.Lib.Run
import Kvbm.Registry.Branch

namespace Kvbm

open Function Finset BranchPointTracker

namespace Branch

variable {live : Finset SequenceHash} {h : SequenceHash} {k : Nat × Nat} {s s' : System}

/-- What the documentation asks of a call: the parent was registered before, and no block of the
run has the same position and fragment as another. -/
def Documented (s : System) : Call → Prop
  | .registered h =>
    (h.position ≠ 0 → ∃ p ∈ s.seen, p.key = h.parentKey) ∧ ∀ g ∈ s.seen, g.key = h.key → g = h
  | .removed h => h ∈ s.seen

/-- A block is dropped only when no live block has it for a parent. -/
def ParentsLast (s : System) : Call → Prop
  | .registered _ => True
  | .removed h => ∀ c ∈ s.live, parentKeyOf c ≠ some h.key

instance (s : System) (c : Call) : Decidable (Documented s c) := by
  cases c <;> (unfold Documented; infer_instance)

instance (s : System) (c : Call) : Decidable (ParentsLast s c) := by
  cases c <;> (unfold ParentsLast; infer_instance)

/-- What the records show as the fan-out of a key: nothing without a record. -/
def fanout (records : Nat × Nat → Option BranchPointRecord) (k : Nat × Nat) : Nat :=
  (records k).elim 0 (·.currentFanout)

/-- No fan-out is above its high-water mark. -/
def Peaks (records : Nat × Nat → Option BranchPointRecord) : Prop :=
  ∀ k, ∀ r ∈ records k, r.currentFanout ≤ r.maxFanout

structure Tracks (s : System) : Prop where
  parents : ∀ h, s.tracker.parents (childKeyOf h) = if h ∈ s.live then parentKeyOf h else none
  counted : ∀ k, fanout s.tracker.records k = children s.live k
  peaks : Peaks s.tracker.records

/-! ### The number of children -/

theorem children_insert (hh : h ∉ live) :
    children (insert h live) k = children live k + if parentKeyOf h = some k then 1 else 0 := by
  rw [children, filter_insert]
  split_ifs
  · exact card_insert_of_notMem fun hm => hh (mem_filter.mp hm).1
  · rfl

theorem children_insert_root (hh : parentKeyOf h = none) :
    children (insert h live) k = children live k := by
  rw [children, filter_insert, if_neg (by simp [hh])]
  rfl

theorem childKeyOf_ne {g : SequenceHash} (hg : g ≠ h) : childKeyOf g ≠ childKeyOf h :=
  fun he => hg (congrArg Prod.snd he)

theorem Peaks.update {records : Nat × Nat → Option BranchPointRecord} (hr : Peaks records)
    {v : Option BranchPointRecord} (hv : ∀ r ∈ v, r.currentFanout ≤ r.maxFanout) :
    Peaks (update records k v) :=
  (forall_update_iff records fun _ v => ∀ r ∈ v, r.currentFanout ≤ r.maxFanout).mpr
    ⟨hv, fun k _ => hr k⟩

/-! ### One call -/

/-- A registration is counted once, and not at all for a root. -/
theorem onBlockRegistered_cases {t t' : BranchPointTracker} (ht : t.onBlockRegistered h = some t') :
    (parentKeyOf h = none ∨ t.parents (childKeyOf h) ≠ none) ∧ t' = t ∨
    ∃ key, parentKeyOf h = some key ∧ t.parents (childKeyOf h) = none ∧
      t' = ⟨update t.parents (childKeyOf h) (some key),
        update t.records key (some ((t.records key).getD ⟨key.1, key.2, 0, 0, 0⟩).observe)⟩ := by
  rw [onBlockRegistered] at ht
  cases hp : parentKeyOf h with
  | none =>
    simp only [hp] at ht
    cases ht
    exact .inl ⟨.inl rfl, rfl⟩
  | some key =>
    simp only [hp] at ht
    split_ifs at ht with hknown
    · cases ht
      exact .inl ⟨.inr (Option.isSome_iff_ne_none.mp hknown), rfl⟩
    · cases ht
      exact .inr ⟨key, rfl, by simpa using hknown, rfl⟩

theorem Tracks.registered (hs : Tracks s) {t : BranchPointTracker}
    (ht : s.tracker.onBlockRegistered h = some t) :
    Tracks ⟨t, insert h s.live, insert h s.seen⟩ := by
  obtain ⟨hp | hknown, rfl⟩ | ⟨key, hp, hfree, rfl⟩ := onBlockRegistered_cases ht
  · refine ⟨fun g => ?_, fun k => (hs.counted k).trans (children_insert_root hp).symm, hs.peaks⟩
    by_cases hg : g = h
    · simp [hg, hs.parents, hp]
    · simp [hg, hs.parents]
  · -- a child that is known is live already
    have hmem : h ∈ s.live := by
      by_contra hn
      exact hknown (by rw [hs.parents, if_neg hn])
    rw [insert_eq_of_mem hmem]
    exact ⟨hs.parents, hs.counted, hs.peaks⟩
  · have hnew : h ∉ s.live := fun hm => by simp [hs.parents, hm, hp] at hfree
    refine ⟨fun g => ?_, fun k => ?_, hs.peaks.update ?_⟩
    · by_cases hg : g = h
      · simp [hg, hp]
      · simp [hg, update_of_ne (childKeyOf_ne hg), hs.parents]
    · rw [children_insert hnew, hp, ← hs.counted k]
      by_cases hkey : k = key
      · subst hkey
        cases hr : s.tracker.records k <;> simp [fanout, hr, BranchPointRecord.observe]
      · simp [fanout, hkey, Ne.symm hkey]
    · rintro r ⟨⟩
      exact le_max_right _ _

/-- Before the record of the block itself goes, the counts are those without the block. -/
theorem Tracks.dropChild (hs : Tracks s) (h : SequenceHash) (k : Nat × Nat) :
    fanout (s.tracker.dropChild h) k = children (s.live.erase h) k := by
  have hk := hs.counted k
  by_cases hm : h ∈ s.live
  · have he := children_insert (k := k) (notMem_erase h s.live)
    rw [insert_erase hm] at he
    cases hp : parentKeyOf h with
    | none => simp_all [BranchPointTracker.dropChild, hs.parents]
    | some key =>
      simp only [BranchPointTracker.dropChild, hs.parents, hm, if_true, hp]
      by_cases hkey : k = key
      · subst hkey
        cases hr : s.tracker.records k <;> simp_all [fanout]
      · simp_all [fanout, Ne.symm hkey]
  · simp [BranchPointTracker.dropChild, hs.parents, hm, hk]

theorem Peaks.dropChild {t : BranchPointTracker} (ht : Peaks t.records) :
    Peaks (t.dropChild h) := by
  rw [BranchPointTracker.dropChild]
  split
  · exact ht
  refine ht.update fun r hr => ?_
  obtain ⟨r', hr', rfl⟩ := Option.map_eq_some_iff.mp hr
  exact (Nat.sub_le _ _).trans (ht _ r' hr')

theorem Tracks.removed (hs : Tracks s) (hlast : ∀ c ∈ s.live, parentKeyOf c ≠ some h.key) :
    Tracks ⟨s.tracker.onBlockRemoved h, s.live.erase h, s.seen⟩ := by
  refine ⟨fun g => ?_, fun k => ?_, hs.peaks.dropChild.update fun _ => nofun⟩
  · by_cases hg : g = h
    · simp [hg, onBlockRemoved]
    · simp [hg, onBlockRemoved, update_of_ne (childKeyOf_ne hg), hs.parents]
  · by_cases hkey : k = h.key
    · -- the record of the block goes, and there was no child to count
      subst hkey
      have hnone : children (s.live.erase h) h.key = 0 :=
        card_eq_zero.mpr <| filter_eq_empty_iff.mpr fun c hc =>
          hlast c (mem_of_mem_erase hc)
      simp [hnone, fanout, onBlockRemoved]
    · rw [← hs.dropChild h k]
      simp [fanout, onBlockRemoved, hkey]

/-! ### High-water marks -/

/-- A record stays, and its high-water mark does not fall, until its block is dropped. -/
theorem maxFanout_step {c : Call} {r : BranchPointRecord} (hc : ∀ h, c = .removed h → h.key ≠ k)
    (hr : s.tracker.records k = some r) (hst : step s c = some s') :
    ∃ r', s'.tracker.records k = some r' ∧ r.maxFanout ≤ r'.maxFanout := by
  cases c with
  | registered =>
    obtain ⟨t, ht, rfl⟩ := Option.map_eq_some_iff.mp hst
    obtain ⟨-, rfl⟩ | ⟨key, -, -, rfl⟩ := onBlockRegistered_cases ht
    · exact ⟨r, hr, le_rfl⟩
    by_cases hkey : k = key
    · subst hkey
      exact ⟨r.observe, by simp [hr], le_max_left _ _⟩
    · exact ⟨r, by simp [hr, hkey], le_rfl⟩
  | removed h =>
    cases hst
    simp only [onBlockRemoved, update_of_ne (hc h rfl).symm]
    cases hp : s.tracker.parents (childKeyOf h) with
    | none => exact ⟨r, by simp [dropChild, hp, hr], le_rfl⟩
    | some key =>
      by_cases hkey : k = key
      · subst hkey
        exact ⟨{ r with currentFanout := r.currentFanout - 1 }, by simp [dropChild, hp, hr], le_rfl⟩
      · exact ⟨r, by simp [dropChild, hp, hr, hkey], le_rfl⟩

theorem maxFanout_run {calls : List Call} {r : BranchPointRecord}
    (hc : ∀ h, .removed h ∈ calls → h.key ≠ k) (hr : s.tracker.records k = some r)
    (hrun : Lib.runList step s calls = some s') :
    ∃ r', s'.tracker.records k = some r' ∧ r.maxFanout ≤ r'.maxFanout := by
  induction calls generalizing s r with
  | nil =>
    cases hrun
    exact ⟨r, hr, le_rfl⟩
  | cons c rest ih =>
    obtain ⟨t, hst, hrest⟩ := Option.bind_eq_some_iff.mp hrun
    obtain ⟨r1, hr1, hle1⟩ := maxFanout_step (fun h hh => hc h (by simp [hh])) hr hst
    obtain ⟨r2, hr2, hle2⟩ := ih (fun h hh => hc h (List.mem_cons_of_mem c hh)) hr1 hrest
    exact ⟨r2, hr2, hle1.trans hle2⟩

/-! ### Runs -/

/-- What the tracker promises of a state: each record counts the live children of its key, its
high-water mark stays above that number until a block of the key is dropped, and a live block with
two live children reports a fan-out of two or more. -/
def CountsChildren (s : System) : Prop :=
  (∀ k r, s.tracker.records k = some r → r.currentFanout = children s.live k ∧
    ∀ calls s', (∀ h, .removed h ∈ calls → h.key ≠ k) → Lib.runList step s calls = some s' →
      ∃ r', s'.tracker.records k = some r' ∧ r.currentFanout ≤ r'.maxFanout) ∧
  ∀ p ∈ s.live, 2 ≤ children s.live p.key → ∃ n, s.tracker.maxFanout p = some n ∧ 2 ≤ n

theorem Tracks.countsChildren (hs : Tracks s) : CountsChildren s := by
  refine ⟨fun k r hr => ⟨?_, fun calls s' hcalls hrun => ?_⟩, fun p _ hp => ?_⟩
  · simpa [fanout, hr] using hs.counted k
  · obtain ⟨r', hr', hle⟩ := maxFanout_run hcalls hr hrun
    exact ⟨r', hr', (hs.peaks k r hr).trans hle⟩
  · have hk := hs.counted p.key
    cases hr : s.tracker.records p.key with
    | none =>
      simp only [fanout, hr, Option.elim_none] at hk
      omega
    | some r =>
      simp only [fanout, hr, Option.elim_some] at hk
      have hpeak := hs.peaks _ r hr
      exact ⟨r.maxFanout, by simp [maxFanout, hr], by omega⟩

/-- **While parents are dropped last, the tracker counts the live children.** -/
theorem countsChildren_of_parentsLast
    (h : Lib.ReachableWhile ParentsLast (· = .new) step s) : CountsChildren s := by
  refine (h.invariant (P := Tracks) ?_ fun s c s' hs hc hst => ?_).countsChildren
  · rintro _ rfl
    exact ⟨fun h => by simp [System.new, new],
      fun k => by simp [System.new, new, fanout, children], fun _ _ => nofun⟩
  · cases c with
    | registered =>
      obtain ⟨t, ht, rfl⟩ := Option.map_eq_some_iff.mp hst
      exact hs.registered ht
    | removed =>
      cases hst
      exact hs.removed hc

/-- A root and two blocks after it. -/
def trunk : SequenceHash := ⟨0, 0, 7, 0⟩

def left : SequenceHash := ⟨1, 1, 8, 7⟩

def right : SequenceHash := ⟨2, 1, 9, 7⟩

/-- One of the two is dropped and comes back. -/
def fork : List Call :=
  [.registered trunk, .registered left, .registered right, .removed left, .registered left]

theorem countsChildren_of_parentsLast_fork :
    ∃ s, Lib.runListWhile ParentsLast step .new fork = some s ∧ CountsChildren s := by
  have hrun : Lib.runListWhile ParentsLast step .new fork = some _ := rfl
  exact ⟨_, hrun, countsChildren_of_parentsLast (.runListWhile (.init rfl) hrun)⟩

/-- A block that is dropped and registered again forgets the children it still has. -/
theorem forgets_children :
    ∃ s, Lib.runListWhile Documented step .new
        [.registered trunk, .registered left, .registered right, .removed trunk,
          .registered trunk] = some s ∧
      trunk ∈ s.live ∧ children s.live trunk.key = 2 ∧ s.tracker.maxFanout trunk = none ∧
      ¬ CountsChildren s := by
  refine ⟨_, rfl, by decide, by decide, by decide, fun hc => ?_⟩
  obtain ⟨n, hn, -⟩ := hc.2 trunk (by decide) (by decide)
  cases hn

end Branch

end Kvbm
