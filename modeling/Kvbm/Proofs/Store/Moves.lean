/-
The moves that every step is made of.

What the steps do to slots, owners and references comes down to a dozen moves: a slot
changes that nobody owns; slots lose their registration; a reference is added or given
up; the slot of an object without references is vacated; an object is created for a
slot; a destructor ends; a block moves to another slot.  An invariant of owners is
proved for each move, and a step keeps it because it is a sequence of moves.
-/
import Kvbm.Proofs.Store.Heap
import Kvbm.Proofs.Store.Hold

namespace Kvbm

open Function SlotState

def ImmutableBlockInner.slotState (x : ImmutableBlockInner) (i : InnerId) : SlotState :=
  if x.isPrimary then .primary x.seqHash x.handle i else .duplicate x.seqHash x.handle i

@[simp] theorem ImmutableBlockInner.slotState_owner (x : ImmutableBlockInner) (i : InnerId) :
    (x.slotState i).owner = some i := by
  unfold slotState
  split <;> rfl

@[simp] theorem ImmutableBlockInner.slotState_reg (x : ImmutableBlockInner) (i : InnerId) :
    (x.slotState i).reg = some (!x.isPrimary, x.seqHash, x.handle) := by
  unfold slotState
  split <;> simp_all [reg]

namespace World

variable {ι : Type}

/-- Slots and their owners agree. -/
structure Ok (w : World ι) : Prop where
  reg : ∀ {id b h x}, w.store.reg id = some (b, h, x) → id < w.store.slotCount ∧ x.seqHash = h
  /-- An owned slot is as its owner says. -/
  own : ∀ {id i}, w.store.owner id = some i → i < w.nextInner ∧ w.released i = false ∧
    (w.inners i).blockId = id ∧ w.store.state id = (w.inners i).slotState i
  /-- An object with references owns its slot. -/
  live : ∀ {i}, 0 < w.strong i → w.store.owner (w.inners i).blockId = some i
  /-- There is nothing beyond the last object. -/
  bound : ∀ {i}, w.nextInner ≤ i → w.strong i = 0 ∧ w.released i = false
  /-- What a duplicate refers to is a primary of its hash. -/
  keep : ∀ {j p}, j < w.nextInner → (w.inners j).keepalive = some p →
    (w.inners j).isPrimary = false ∧ (w.inners p).isPrimary = true ∧
      (w.inners p).seqHash = (w.inners j).seqHash
  /-- A duplicate refers to a primary until its destructor has been at the store. -/
  dup : ∀ {j}, j < w.nextInner → (w.inners j).isPrimary = false → w.released j = false →
    (w.inners j).keepalive ≠ none
  dead : ∀ {i}, w.released i = true → w.strong i = 0
  plans : ∀ plan ∈ w.plans, plan.handle.seqHash = plan.seqHash

/-- A registered object for a slot that is staged, or for one that was inactive. -/
structure Creates (w : World ι) (x : ImmutableBlockInner) (s : BlockStore ι) : Prop where
  lt : x.blockId < w.store.slotCount
  free : w.store.owner x.blockId = none
  self : s.state x.blockId = x.slotState w.nextInner
  other : ∀ j, j ≠ x.blockId → s.state j = w.store.state j
  name : x.handle.seqHash = x.seqHash
  primary : x.isPrimary = true → x.keepalive = none
  duplicate : x.isPrimary = false → ∃ p, x.keepalive = some p ∧ 0 < w.strong p ∧
    (w.inners p).isPrimary = true ∧ (w.inners p).seqHash = x.seqHash
  count : s.slotCount = w.store.slotCount

/-- One move; a new registration is made with a handle that satisfies `H`. -/
inductive MoveOf (H : BlockRegistrationHandle → Prop) : World ι → World ι → Prop
  /-- No owner and no registration changes. -/
  | quiet {w : World ι} {s : BlockStore ι} : w.store.SameOwned s → s.reg = w.store.reg →
      w.store.slotCount ≤ s.slotCount → MoveOf H w { w with store := s }
  /-- Slots that nobody owns lose their registration. -/
  | lose {w : World ι} {s : BlockStore ι} {ids : List BlockId}
      {handles : List BlockRegistrationHandle} : w.store.SameOwned s →
      w.store.Deregisters ids s → w.store.HandlesOf ids handles →
      s.slotCount = w.store.slotCount → MoveOf H w ({ w with store := s }.markLater handles)
  | aside {w : World ι} {plans : List RebindPlan} {holds : List (List Entry)} :
      (∀ p ∈ plans, p ∈ w.plans ∨ ∃ id b, w.store.reg id = some (b, p.seqHash, p.handle)) →
      MoveOf H w { w with plans := plans, holds := holds }
  | add {w : World ι} {i : InnerId} : 0 < w.strong i → MoveOf H w (w.addGuard i)
  | sub {w : World ι} {i : InnerId} : 0 < w.guards i → MoveOf H w (w.subGuard i)
  /-- An object without references loses its slot. -/
  | vacate {w : World ι} {s : BlockStore ι} {id : BlockId} {i : InnerId} {ids : List BlockId}
      {handles : List BlockRegistrationHandle} : w.strong i = 0 → w.store.owner id = some i →
      s.owner id = none → (∀ j, j ≠ id → s.state j = w.store.state j) →
      w.store.Deregisters ids s → w.store.HandlesOf ids handles →
      s.slotCount = w.store.slotCount → MoveOf H w ({ w with store := s }.markLater handles)
  | resurrect {w : World ι} {x : ImmutableBlockInner} {s : BlockStore ι} : w.Creates x s →
      s.reg = w.store.reg →
      MoveOf H w { (w.newInner x).addGuard w.nextInner with store := s }
  | register {w : World ι} {x : ImmutableBlockInner} {s : BlockStore ι} : w.Creates x s →
      w.store.reg x.blockId = none → H x.handle →
      MoveOf H w { w.newInner x with store := s, marking := w.nextInner :: w.marking }
  | finish {w : World ι} {i : InnerId} : w.strong i = 0 → i < w.nextInner →
      (∀ id, w.store.owner id ≠ some i) → MoveOf H w (w.setReleased i)
  | clear {w : World ι} {i : InnerId} : w.released i = true → i < w.nextInner →
      MoveOf H w (w.clearKeepalive i)
  /-- An owned block moves. -/
  | move {w : World ι} {s : BlockStore ι} {i : InnerId} {src dst : BlockId} : src ≠ dst →
      w.store.owner src = some i → w.store.owner dst = none → w.store.reg dst = none →
      dst < w.store.slotCount → s.state dst = w.store.state src → s.state src = .reset →
      (∀ j, j ≠ src → j ≠ dst → s.state j = w.store.state j) →
      s.slotCount = w.store.slotCount →
      MoveOf H w { w.setBlockId i dst with store := s }
  /-- A block that nobody owns moves. -/
  | shift {w : World ι} {s : BlockStore ι} {src dst : BlockId} : src ≠ dst →
      w.store.reg dst = none → dst < w.store.slotCount → w.store.SameOwned s →
      s.reg dst = w.store.reg src → s.reg src = none →
      (∀ j, j ≠ src → j ≠ dst → s.reg j = w.store.reg j) →
      s.slotCount = w.store.slotCount → MoveOf H w { w with store := s }

/-- A move that makes no new registration. -/
abbrev Move : World ι → World ι → Prop := MoveOf fun _ => False

abbrev MovesOf (H : BlockRegistrationHandle → Prop) : World ι → World ι → Prop :=
  Relation.ReflTransGen (MoveOf H)

abbrev Moves : World ι → World ι → Prop := MovesOf fun _ => False

variable {H H' : BlockRegistrationHandle → Prop} {w w' : World ι} {s : BlockStore ι}

/-! ### Owners -/

namespace Ok

variable {i : InnerId} {ids : List BlockId} {id : BlockId} {b : Bool} {h : SequenceHash}
  {x : BlockRegistrationHandle} (hok : w.Ok)

include hok

theorem below (hr : w.store.reg id ≠ none) : id < w.store.slotCount := by
  obtain ⟨⟨b, h, x⟩, hr⟩ := Option.ne_none_iff_exists'.mp hr
  exact (hok.reg hr).1

theorem names (hr : w.store.reg id = some (b, h, x)) : x.seqHash = h := (hok.reg hr).2

theorem owner_unique {a b : BlockId} (ha : w.store.owner a = some i)
    (hb : w.store.owner b = some i) : a = b :=
  (hok.own ha).2.2.1.symm.trans (hok.own hb).2.2.1

/-- What is kept alive is an object. -/
theorem lt_of_strong (hi : 0 < w.strong i) : i < w.nextInner := by
  by_contra hge
  have := (hok.bound (Nat.le_of_not_lt hge)).1
  omega

/-- The store changes where no object is concerned. -/
theorem store_congr
    (hr : ∀ {id b h x}, s.reg id = some (b, h, x) → id < s.slotCount ∧ x.seqHash = h)
    (ho : ∀ id, s.owner id ≠ none → s.state id = w.store.state id)
    (hl : ∀ i, 0 < w.strong i → s.state (w.inners i).blockId = w.store.state (w.inners i).blockId) :
    Ok { w with store := s } where
  reg := hr
  own {id i} hi := by
    have hst := ho id (by simp [show s.owner id = some i from hi])
    obtain ⟨h1, h2, h3, h4⟩ := hok.own ((congrArg owner hst).symm.trans hi)
    exact ⟨h1, h2, h3, hst.trans h4⟩
  live {i} hi := (congrArg owner (hl i hi)).trans (hok.live hi)
  bound := hok.bound
  keep := hok.keep
  dup := hok.dup
  dead := hok.dead
  plans := hok.plans

theorem store_same (ho : w.store.SameOwned s)
    (hr : ∀ {id b h x}, s.reg id = some (b, h, x) → id < s.slotCount ∧ x.seqHash = h) :
    Ok { w with store := s } :=
  hok.store_congr hr (fun id h => ho id (.inr h)) fun _ hi => ho _ (.inl (by simp [hok.live hi]))

theorem markLater (handles : List BlockRegistrationHandle) : (w.markLater handles).Ok :=
  ⟨hok.reg, hok.own, hok.live, hok.bound, hok.keep, hok.dup, hok.dead, hok.plans⟩

theorem reg_of_deregisters (hd : w.store.Deregisters ids s) (hc : s.slotCount = w.store.slotCount)
    (hr : s.reg id = some (b, h, x)) :
    id < s.slotCount ∧ x.seqHash = h := by
  rw [hc]
  by_cases hid : id ∈ ids
  · rw [(hd.lost id hid).2] at hr
    cases hr
  · rw [hd.kept id hid] at hr
    exact hok.reg hr

theorem reg_of_shift {src dst : BlockId} (hlt : dst < w.store.slotCount)
    (hc : s.slotCount = w.store.slotCount) (hmoved : s.reg dst = w.store.reg src)
    (hreset : s.reg src = none) (hother : ∀ j, j ≠ src → j ≠ dst → s.reg j = w.store.reg j)
    (hr : s.reg id = some (b, h, x)) :
    id < s.slotCount ∧ x.seqHash = h := by
  rw [hc]
  by_cases hid : id = dst
  · subst hid
    exact ⟨hlt, hok.names (hmoved.symm.trans hr)⟩
  by_cases hid' : id = src
  · rw [hid', hreset] at hr
    cases hr
  · rw [hother id hid' hid] at hr
    exact hok.reg hr

/-- No object comes to life. -/
theorem setGuards {guards : InnerId → Nat}
    (hpos : ∀ {p}, 0 < { w with guards := guards }.strong p → 0 < w.strong p) :
    Ok { w with guards := guards } := by
  have hzero : ∀ {p}, w.strong p = 0 → { w with guards := guards }.strong p = 0 := fun hp =>
    Nat.eq_zero_of_not_pos fun h => (hpos h).ne' hp
  exact { hok with
    live := fun hp => hok.live (hpos hp)
    bound := fun hp => ⟨hzero (hok.bound hp).1, (hok.bound hp).2⟩
    dead := fun hp => hzero (hok.dead hp) }

theorem addGuard (hi : 0 < w.strong i) : (w.addGuard i).Ok := by
  refine hok.setGuards fun {p} hp => ?_
  have hp : 0 < (w.addGuard i).strong p := hp
  rw [strong_addGuard] at hp
  split_ifs at hp with hpi
  · exact hpi ▸ hi
  · exact hp

theorem subGuard (hi : 0 < w.guards i) : (w.subGuard i).Ok :=
  hok.setGuards fun hp => hp.trans_le (strong_subGuard_le hi)

theorem vacate (hi : w.strong i = 0) (hid : w.store.owner id = some i) (hnone : s.owner id = none)
    (hother : ∀ j, j ≠ id → s.state j = w.store.state j) (hd : w.store.Deregisters ids s)
    (hc : s.slotCount = w.store.slotCount) : Ok { w with store := s } := by
  refine hok.store_congr (hok.reg_of_deregisters hd hc) (fun j hj => hother j ?_)
    fun k hk => hother _ ?_
  · rintro rfl
    exact hj hnone
  · intro hc
    have hk' := hok.live hk
    rw [hc, hid] at hk'
    cases hk'
    exact hk.ne' hi

theorem setReleased (hi : w.strong i = 0) (hlt : i < w.nextInner)
    (hno : ∀ id, w.store.owner id ≠ some i) : (w.setReleased i).Ok := by
  have hne : ∀ {k}, k ≠ i → (w.setReleased i).released k = w.released k := fun hk =>
    update_of_ne hk _ _
  refine { hok with own := ?_, bound := ?_, dup := ?_, dead := ?_ }
  · intro id k hk
    have hki : k ≠ i := fun hc => hno id (hc ▸ hk)
    obtain ⟨h1, h2, h3, h4⟩ := hok.own hk
    exact ⟨h1, (hne hki).trans h2, h3, h4⟩
  · intro k hk
    have hki : k ≠ i := by
      rintro rfl
      exact absurd hlt (Nat.not_lt.mpr hk)
    exact ⟨(hok.bound hk).1, (hne hki).trans (hok.bound hk).2⟩
  · intro k hk hp hr
    have hki : k ≠ i := by
      rintro rfl
      simp [World.setReleased] at hr
    exact hok.dup hk hp ((hne hki).symm.trans hr)
  · intro k hk
    by_cases hki : k = i
    · exact hki ▸ hi
    · exact hok.dead ((hne hki).symm.trans hk)

theorem clearKeepalive (hr : w.released i = true) (hlt : i < w.nextInner) :
    (w.clearKeepalive i).Ok := by
  have hne : ∀ {k}, k ≠ i → (w.clearKeepalive i).inners k = w.inners k := fun hk =>
    update_of_ne hk _ _
  have hself : (w.clearKeepalive i).inners i = { w.inners i with keepalive := none } :=
    update_self _ _ _
  -- only the reference of this object changes
  have hsame : ∀ k, ((w.clearKeepalive i).inners k).blockId = (w.inners k).blockId ∧
      ((w.clearKeepalive i).inners k).isPrimary = (w.inners k).isPrimary ∧
      ((w.clearKeepalive i).inners k).seqHash = (w.inners k).seqHash ∧
      ((w.clearKeepalive i).inners k).slotState k = (w.inners k).slotState k := by
    intro k
    by_cases hk : k = i
    · subst hk
      rw [hself]
      exact ⟨rfl, rfl, rfl, rfl⟩
    · rw [hne hk]
      exact ⟨rfl, rfl, rfl, rfl⟩
  have hle : ∀ p, (w.clearKeepalive i).strong p ≤ w.strong p := by
    intro p
    have := strong_clearKeepalive (p := p) hlt
    omega
  refine { hok with own := ?_, live := ?_, bound := ?_, keep := ?_, dup := ?_, dead := ?_ }
  · intro id k hk
    obtain ⟨h1, h2, h3, h4⟩ := hok.own hk
    exact ⟨h1, h2, (hsame k).1.trans h3, h4.trans (hsame k).2.2.2.symm⟩
  · intro k hk
    rw [(hsame k).1]
    exact hok.live (hk.trans_le (hle k))
  · exact fun {k} hk => ⟨Nat.le_zero.mp ((hle k).trans (hok.bound hk).1.le), (hok.bound hk).2⟩
  · intro j p hj hk
    have hji : j ≠ i := by
      rintro rfl
      rw [hself] at hk
      cases hk
    rw [hne hji] at hk
    obtain ⟨h1, h2, h3⟩ := hok.keep hj hk
    exact ⟨(hsame j).2.1.trans h1, (hsame p).2.1.trans h2,
      ((hsame p).2.2.1.trans h3).trans (hsame j).2.2.1.symm⟩
  · intro j hj hp hrel
    have hji : j ≠ i := by
      rintro rfl
      rw [show (w.clearKeepalive j).released j = w.released j from rfl, hr] at hrel
      cases hrel
    rw [hne hji] at hp ⊢
    exact hok.dup hj hp hrel
  · exact fun {k} hk => Nat.le_zero.mp ((hle k).trans (hok.dead hk).le)

omit hok in
theorem newInner_ne {x : ImmutableBlockInner} {k : InnerId} (hk : k < w.nextInner) :
    (w.newInner x).inners k = w.inners k := update_of_ne hk.ne _ _

omit hok in
theorem newInner_self (x : ImmutableBlockInner) : (w.newInner x).inners w.nextInner = x :=
  update_self _ _ _

theorem creates {x : ImmutableBlockInner} (hc : w.Creates x s)
    (hw : w'.store = s ∧ w'.inners = (w.newInner x).inners ∧ w'.nextInner = w.nextInner + 1 ∧
      w'.released = w.released ∧ w'.plans = w.plans) (hstrong : ∀ p, w'.strong p =
      w.strong p + (if x.keepalive = some p then 1 else 0) + if p = w.nextInner then 1 else 0) :
    w'.Ok := by
  obtain ⟨hstore, hinners, hnext, hrel, hplans⟩ := hw
  have hka : ∀ {p}, x.keepalive = some p → 0 < w.strong p ∧ x.isPrimary = false ∧
      (w.inners p).isPrimary = true ∧ (w.inners p).seqHash = x.seqHash := by
    intro p hp
    cases hprim : x.isPrimary with
    | true =>
      rw [hc.primary hprim] at hp
      cases hp
    | false =>
      obtain ⟨q, hq, hpos, h1, h2⟩ := hc.duplicate hprim
      rw [hp] at hq
      cases hq
      exact ⟨hpos, rfl, h1, h2⟩
  have hpos : ∀ {p}, p ≠ w.nextInner → 0 < w'.strong p → 0 < w.strong p := by
    intro p hp hs
    rw [hstrong, if_neg hp] at hs
    split_ifs at hs with hk
    · exact (hka hk).1
    · exact hs
  have hself : w'.inners w.nextInner = x := by rw [hinners]; exact newInner_self x
  have hne : ∀ {k}, k < w.nextInner → w'.inners k = w.inners k := by
    intro k hk
    rw [hinners]
    exact newInner_ne hk
  have hzero : ∀ {p}, p ≠ w.nextInner → w.strong p = 0 → w'.strong p = 0 := fun hp hz =>
    Nat.eq_zero_of_not_pos fun h => (hpos hp h).ne' hz
  refine ⟨?_, ?_, ?_, ?_, ?_, ?_, ?_, hplans ▸ hok.plans⟩
  · intro id b h y hr
    rw [hstore] at hr ⊢
    rw [hc.count]
    by_cases hid : id = x.blockId
    · subst hid
      simp only [BlockStore.reg, hc.self, ImmutableBlockInner.slotState_reg, Option.some.injEq,
        Prod.mk.injEq] at hr
      obtain ⟨-, rfl, rfl⟩ := hr
      exact ⟨hc.lt, hc.name⟩
    · rw [BlockStore.reg, hc.other id hid] at hr
      exact hok.reg hr
  · intro id i hi
    rw [hstore] at hi
    by_cases hid : id = x.blockId
    · subst hid
      have hin : i = w.nextInner := by
        have : s.owner x.blockId = some w.nextInner := by simp [BlockStore.owner, hc.self]
        rw [this] at hi
        exact (Option.some.inj hi).symm
      subst hin
      rw [hself, hstore, hrel, hnext]
      exact ⟨Nat.lt_succ_self _, (hok.bound le_rfl).2, rfl, hc.self⟩
    · have hi' : w.store.owner id = some i := (congrArg owner (hc.other id hid)).symm.trans hi
      obtain ⟨h1, h2, h3, h4⟩ := hok.own hi'
      rw [hne h1, hstore, hrel, hnext]
      exact ⟨h1.trans (Nat.lt_succ_self _), h2, h3, (hc.other id hid).trans h4⟩
  · intro i hi
    rw [hstore]
    by_cases hin : i = w.nextInner
    · subst hin
      rw [hself]
      simp [BlockStore.owner, hc.self]
    have hi' := hpos hin hi
    have hlive := hok.live hi'
    rw [hne (hok.lt_of_strong hi')]
    refine (congrArg owner (hc.other _ fun hcon => ?_)).trans hlive
    rw [hcon, hc.free] at hlive
    cases hlive
  · intro i hi
    rw [hnext] at hi
    have hold := hok.bound (Nat.le_of_succ_le hi)
    exact ⟨hzero (Nat.lt_of_succ_le hi).ne' hold.1, hrel ▸ hold.2⟩
  · intro j p hj hk
    rw [hnext] at hj
    by_cases hjn : j = w.nextInner
    · subst hjn
      rw [hself] at hk ⊢
      obtain ⟨h1, h2, h3, h4⟩ := hka hk
      rw [hne (hok.lt_of_strong h1)]
      exact ⟨h2, h3, h4⟩
    · have hj' := Nat.lt_of_le_of_ne (Nat.le_of_lt_succ hj) hjn
      rw [hne hj'] at hk ⊢
      rw [hne (hok.lt_of_strong (strong_pos_of_keepalive hj' hk))]
      exact hok.keep hj' hk
  · intro j hj hp hr
    rw [hnext] at hj
    by_cases hjn : j = w.nextInner
    · subst hjn
      rw [hself] at hp ⊢
      obtain ⟨p, hk, -⟩ := hc.duplicate hp
      simp [hk]
    · have hj' := Nat.lt_of_le_of_ne (Nat.le_of_lt_succ hj) hjn
      rw [hne hj'] at hp ⊢
      exact hok.dup hj' hp (hrel ▸ hr)
  · intro i hi
    rw [hrel] at hi
    refine hzero ?_ (hok.dead hi)
    rintro rfl
    rw [(hok.bound le_rfl).2] at hi
    cases hi

theorem move {src dst : BlockId} (hne : src ≠ dst) (hsrc : w.store.owner src = some i)
    (hdst : w.store.owner dst = none) (hlt : dst < w.store.slotCount)
    (hcount : s.slotCount = w.store.slotCount) (hmoved : s.state dst = w.store.state src)
    (hreset : s.state src = .reset)
    (hother : ∀ j, j ≠ src → j ≠ dst → s.state j = w.store.state j) :
    Ok { w.setBlockId i dst with store := s } := by
  obtain ⟨hi1, hi2, hi3, hi4⟩ := hok.own hsrc
  have hsrcOwner : s.owner src = none := by simp [BlockStore.owner, hreset, owner]
  have hdstOwner : s.owner dst = some i := by
    rw [BlockStore.owner, hmoved]
    exact hsrc
  refine ⟨?_, ?_, ?_, ?_, ?_, ?_, ?_, hok.plans⟩
  · exact hok.reg_of_shift hlt hcount (congrArg SlotState.reg hmoved)
      (congrArg SlotState.reg hreset) fun j hj hj' => congrArg SlotState.reg (hother j hj hj')
  · intro id k hk
    have hk : s.owner id = some k := hk
    show k < w.nextInner ∧ w.released k = false ∧ ((w.setBlockId i dst).inners k).blockId = id ∧
      s.state id = ((w.setBlockId i dst).inners k).slotState k
    by_cases hid : id = dst
    · subst hid
      rw [hdstOwner] at hk
      cases hk
      rw [setBlockId_self]
      exact ⟨hi1, hi2, rfl, hmoved.trans hi4⟩
    · have hid' : id ≠ src := by
        rintro rfl
        rw [hsrcOwner] at hk
        cases hk
      have hst := hother id hid' hid
      have hk' : w.store.owner id = some k := (congrArg owner hst).symm.trans hk
      obtain ⟨h1, h2, h3, h4⟩ := hok.own hk'
      have hki : k ≠ i := by
        rintro rfl
        exact hid' (hok.owner_unique hk' hsrc)
      rw [setBlockId_ne hki]
      exact ⟨h1, h2, h3, hst.trans h4⟩
  · intro k hk
    have hk : 0 < w.strong k := strong_setBlockId (w := w) (i := i) dst ▸ hk
    show s.owner ((w.setBlockId i dst).inners k).blockId = _
    by_cases hki : k = i
    · subst hki
      rw [setBlockId_self]
      exact hdstOwner
    rw [setBlockId_ne hki]
    have hlive := hok.live hk
    refine (congrArg owner (hother _ (fun hc => ?_) fun hc => ?_)).trans hlive
    · rw [hc, hsrc] at hlive
      exact hki (Option.some.inj hlive).symm
    · rw [hc, hdst] at hlive
      cases hlive
  · intro k hk
    exact ⟨(strong_setBlockId dst).trans (hok.bound hk).1, (hok.bound hk).2⟩
  · intro j p hj hk
    obtain ⟨hkeep, hprim, hseq, -⟩ := setBlockId_fields (w := w) (i := i) dst j
    obtain ⟨-, hprim', hseq', -⟩ := setBlockId_fields (w := w) (i := i) dst p
    obtain ⟨h1, h2, h3⟩ := hok.keep hj (hkeep.symm.trans hk)
    exact ⟨hprim.trans h1, hprim'.trans h2, (hseq'.trans h3).trans hseq.symm⟩
  · intro j hj hp hr
    obtain ⟨hkeep, hprim, -⟩ := setBlockId_fields (w := w) (i := i) dst j
    exact fun hnone => hok.dup hj (hprim.symm.trans hp) hr (hkeep.symm.trans hnone)
  · intro k hk
    exact (strong_setBlockId dst).trans (hok.dead hk)

end Ok

/-- **Every move keeps slots and owners in agreement.** -/
theorem MoveOf.ok (hm : MoveOf H w w') (hok : w.Ok) : w'.Ok := by
  cases hm with
  | quiet ho hr hle =>
    exact hok.store_same ho fun h => (hok.reg (congrFun hr _ ▸ h)).imp_left (·.trans_le hle)
  | lose ho hd _ hc => exact (hok.store_same ho (hok.reg_of_deregisters hd hc)).markLater _
  | aside hp =>
    refine { hok with plans := fun plan hmem => ?_ }
    rcases hp plan hmem with hold | ⟨id, b, hreg⟩
    · exact hok.plans plan hold
    · exact hok.names hreg
  | add hi => exact hok.addGuard hi
  | sub hi => exact hok.subGuard hi
  | vacate hi hid hnone hother hd _ hc =>
    exact (hok.vacate hi hid hnone hother hd hc).markLater _
  | resurrect hc =>
    refine hok.creates hc ⟨rfl, rfl, rfl, rfl, rfl⟩ fun p => ?_
    rw [← strong_newInner, ← strong_addGuard]
    rfl
  | register hc =>
    refine hok.creates hc ⟨rfl, rfl, rfl, rfl, rfl⟩ fun p => ?_
    rw [← strong_newInner]
    simp only [World.strong, List.count_cons, beq_iff_eq]
    show _ + (List.count p w.marking + _) + World.kept (w.newInner _) p = _
    simp only [eq_comm (a := w.nextInner)]
    show _ = (w.newInner _).guards p + List.count p w.marking + _ + _
    omega
  | finish hi hlt hno => exact hok.setReleased hi hlt hno
  | clear hr hlt => exact hok.clearKeepalive hr hlt
  | move hne hsrc hdst _ hlt hmoved hreset hother hc =>
    exact hok.move hne hsrc hdst hlt hc hmoved hreset hother
  | shift _ _ hlt ho hmoved hreset hother hc =>
    exact hok.store_same ho (hok.reg_of_shift hlt hc hmoved hreset hother)

theorem MovesOf.ok (hm : MovesOf H w w') (hok : w.Ok) : w'.Ok := by
  induction hm with
  | refl => exact hok
  | tail _ hm ih => exact hm.ok ih

theorem MoveOf.mono (hH : ∀ x, H x → H' x) (hm : MoveOf H w w') : MoveOf H' w w' := by
  cases hm with
  | quiet h1 h2 h3 => exact .quiet h1 h2 h3
  | lose h1 h2 h3 h4 => exact .lose h1 h2 h3 h4
  | aside h1 => exact .aside h1
  | add h1 => exact .add h1
  | sub h1 => exact .sub h1
  | vacate h1 h2 h3 h4 h5 h6 h7 => exact .vacate h1 h2 h3 h4 h5 h6 h7
  | resurrect h1 h2 => exact .resurrect h1 h2
  | register h1 h2 h3 => exact .register h1 h2 (hH _ h3)
  | finish h1 h2 h3 => exact .finish h1 h2 h3
  | clear h1 h2 => exact .clear h1 h2
  | move h1 h2 h3 h4 h5 h6 h7 h8 h9 => exact .move h1 h2 h3 h4 h5 h6 h7 h8 h9
  | shift h1 h2 h3 h4 h5 h6 h7 h8 => exact .shift h1 h2 h3 h4 h5 h6 h7 h8

theorem MovesOf.mono (hH : ∀ x, H x → H' x) (hm : MovesOf H w w') : MovesOf H' w w' :=
  hm.lift id fun _ _ hstep => hstep.mono hH

/-- What makes no registration makes none with any handle. -/
theorem Moves.of (hm : Moves w w') : MovesOf H w w' := MovesOf.mono (fun _ hx => hx.elim) hm

end World

end Kvbm
