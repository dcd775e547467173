/-
What a leaf policy holds.

The backend and its policy keep the same facts twice: which nodes are real and
which of those have no children.  `Wf p nodes leaf` says that the policy's copy is
right, for the real nodes `nodes` and the childless ones `leaf`.  Each hook has one
lemma here: told what the backend does, it comes back, and the copy is right for
the sets the backend has afterwards.  The next victim is a leaf, and there is none
only when there are no leaves.
-/
import Kvbm.Index.Lineage.Graph
import Kvbm.Lib.Run

namespace Kvbm

open Lib Function List Option ValuedPolicy

variable {nodes leaf : Set Nat} {idx : Nat}

/-! ### First in, first out -/

namespace FifoPolicy

/-- The list threaded through the links holds exactly the leaves. -/
def Wf (p : FifoPolicy) (leaf : Set Nat) : Prop :=
  ∃ l, Linked p.links p.head p.tail l ∧ ∀ i, i ∈ l ↔ i ∈ leaf

variable {p : FifoPolicy}

theorem new_wf : Wf new ∅ := ⟨[], Linked.empty, by simp⟩

theorem onLeafAdded_linked {l : List Nat} (hl : Linked p.links p.head p.tail l) (hil : idx ∉ l) :
    ∃ q, p.onLeafAdded idx = some q ∧ Linked q.links q.head q.tail (l ++ [idx]) := by
  unfold onLeafAdded
  cases ht : p.tail with
  | none =>
    refine ⟨_, rfl, ?_⟩
    have hpush : Linked (update p.links idx (some ⟨p.tail, none⟩)) _ _ _ :=
      hl.push hil (by simp) (fun t htt => by rw [ht] at htt; cases htt)
        (fun j hj _ => by simp [update_of_ne hj])
    rw [ht] at hpush
    exact hpush
  | some t =>
    have htl : t ∈ l := by
      refine mem_of_getLast? ?_
      rw [← hl.tailEq, ht]
    have hti : t ≠ idx := fun hc => hil (hc ▸ htl)
    obtain ⟨k, hk⟩ := ne_none_iff_exists'.mp (hl.mem_iff.mp htl)
    refine ⟨⟨update (update p.links idx (some ⟨p.tail, none⟩)) t
      (some { k with next := some idx }), p.head, some idx⟩, ?_, ?_⟩
    · simp [setNext, update_of_ne hti, hk, ht]
    · have hpush : Linked (update (update p.links idx
          (some ⟨p.tail, none⟩)) t (some { k with next := some idx })) _ _ _ := hl.push hil
        (by simp [update_of_ne hti.symm])
        (fun s hs => by
          rw [ht] at hs
          cases hs
          simp [hk])
        (fun j hj hjt => by
          have hjt' : j ≠ t := by
            rintro rfl
            exact hjt ht
          simp [update_of_ne hj, update_of_ne hjt'])
      rw [ht] at hpush
      rw [ht]
      exact hpush

theorem onLeafAdded_wf (h : p.Wf leaf) (hi : idx ∉ leaf) :
    ∃ q, p.onLeafAdded idx = some q ∧ q.Wf (insert idx leaf) := by
  obtain ⟨l, hl, hmem⟩ := h
  obtain ⟨q, hq, hlq⟩ := onLeafAdded_linked hl fun hc => hi ((hmem idx).mp hc)
  refine ⟨q, hq, l ++ [idx], hlq, fun i => ?_⟩
  simp only [mem_append, mem_singleton, Set.mem_insert_iff, hmem]
  exact Or.comm

/-- What the first write leaves: the slot before points past, or the list has a new head. -/
private theorem closePrev_spec (p : FifoPolicy) (link : Link)
    (hq : ∀ q, link.prev = some q → p.links q ≠ none) :
    ∃ q, p.closePrev link = some q ∧ q.tail = p.tail ∧
      q.head = link.prev.elim link.next (fun _ => p.head) ∧
      (∀ i, link.prev = some i →
        q.links i = (p.links i).map fun k => { k with next := link.next }) ∧
      ∀ i, link.prev ≠ some i → q.links i = p.links i := by
  unfold closePrev
  cases hp : link.prev with
  | none => exact ⟨_, rfl, rfl, rfl, by simp, fun _ _ => rfl⟩
  | some r =>
    obtain ⟨k, hk⟩ := ne_none_iff_exists'.mp (hq r hp)
    refine ⟨{ p with links := update p.links r (some { k with next := link.next }) },
      by simp [setNext, hk], rfl, rfl, ?_, ?_⟩
    · intro i hi
      cases hi
      simp [hk]
    · intro i hi
      exact update_of_ne (fun hc => hi (by rw [hc])) _ _

private theorem closeNext_spec (p : FifoPolicy) (link : Link)
    (hn : ∀ n, link.next = some n → p.links n ≠ none) :
    ∃ q, p.closeNext link = some q ∧ q.head = p.head ∧
      q.tail = link.next.elim link.prev (fun _ => p.tail) ∧
      (∀ i, link.next = some i →
        q.links i = (p.links i).map fun k => { k with prev := link.prev }) ∧
      ∀ i, link.next ≠ some i → q.links i = p.links i := by
  unfold closeNext
  cases hp : link.next with
  | none => exact ⟨_, rfl, rfl, rfl, by simp, fun _ _ => rfl⟩
  | some r =>
    obtain ⟨k, hk⟩ := ne_none_iff_exists'.mp (hn r hp)
    refine ⟨{ p with links := update p.links r (some { k with prev := link.prev }) },
      by simp [setPrev, hk], rfl, rfl, ?_, ?_⟩
    · intro i hi
      cases hi
      simp [hk]
    · intro i hi
      exact update_of_ne (fun hc => hi (by rw [hc])) _ _

/-- Taking a slot out of the middle: its own links are gone, its neighbours point past it. -/
theorem unlink_of_mem {l1 l2 : List Nat} (hl : Linked p.links p.head p.tail (l1 ++ idx :: l2)) :
    ∃ q, p.unlink idx = some q ∧ Linked q.links q.head q.tail (l1 ++ l2) := by
  have hnd := hl.nodup
  rw [nodup_middle, nodup_cons, mem_append, not_or] at hnd
  have hdis := disjoint_of_nodup_append hnd.2
  have hlink := hl.inside l1 idx l2 rfl
  have hin : ∀ j ∈ l1 ++ l2, j ≠ idx ∧ p.links j ≠ none := by
    intro j hj
    refine ⟨fun hc => ?_, hl.mem_iff.mp ?_⟩
    · rw [hc, mem_append] at hj
      exact hj.elim hnd.1.1 hnd.1.2
    · simp only [mem_append, mem_cons] at hj ⊢
      exact hj.elim Or.inl fun h => Or.inr (Or.inr h)
  have hgap : ∀ j, j ≠ idx → update p.links idx none j = p.links j := fun j hj =>
    update_of_ne hj _ _
  obtain ⟨q, hq, hqt, hqh, hqp, hqr⟩ := closePrev_spec
    { p with links := update p.links idx none } ⟨l1.getLast?, l2.head?⟩ (by
      intro r hr
      have hr' := hin r (mem_append_left _ (mem_of_getLast? hr))
      show update p.links idx none r ≠ none
      rw [hgap r hr'.1]
      exact hr'.2)
  have hnq : ∀ n, l2.head? = some n → q.links n = p.links n := by
    intro n hn
    have hn' := mem_of_head? hn
    rw [hqr n fun hc => hdis (mem_of_getLast? hc) hn']
    exact hgap n (hin n (mem_append_right _ hn')).1
  obtain ⟨r, hr, hrh, hrt, hrn, hrr⟩ := closeNext_spec q ⟨l1.getLast?, l2.head?⟩ (by
      intro n hn
      rw [hnq n hn]
      exact (hin n (mem_append_right _ (mem_of_head? hn))).2)
  refine ⟨r, ?_, hl.unlink ?_ ?_ ?_ ?_ ?_ ?_⟩
  · unfold unlink
    rw [hlink]
    simp only [hq, bind_some, hr]
  · rw [hrr idx fun hc => hnd.1.2 (mem_of_head? hc), hqr idx fun hc => hnd.1.1 (mem_of_getLast? hc)]
    simp
  · intro i hi
    have hi' := mem_of_getLast? hi
    rw [hrr i fun hc => hdis hi' (mem_of_head? hc), hqp i hi]
    simp only [hgap i (hin i (mem_append_left _ hi')).1]
  · intro n hn
    rw [hrn n hn, hnq n hn]
  · intro j hj hj1 hj2
    rw [hrr j hj2, hqr j hj1]
    exact hgap j hj
  · rw [hrh, hqh, hl.headEq]
    cases l1 <;> simp [getLast?_cons]
  · rw [hrt, hqt, hl.tailEq]
    cases l2 <;> simp [getLast?_append]

/-- A slot is taken out of the list, if it is in it. -/
theorem unlink_linked {l : List Nat} (hl : Linked p.links p.head p.tail l) :
    ∃ q, p.unlink idx = some q ∧ Linked q.links q.head q.tail (l.erase idx) := by
  by_cases hi : idx ∈ l
  · obtain ⟨l1, l2, rfl⟩ := append_of_mem hi
    have hnd := hl.nodup
    rw [nodup_middle, nodup_cons, mem_append, not_or] at hnd
    rw [erase_append_right _ hnd.1.1, erase_cons_head]
    exact unlink_of_mem hl
  · rw [erase_of_not_mem hi]
    refine ⟨p, ?_, hl⟩
    unfold unlink
    rw [hl.outside idx hi]

theorem unlink_wf (h : p.Wf leaf) : ∃ q, p.unlink idx = some q ∧ q.Wf (leaf \ {idx}) := by
  obtain ⟨l, hl, hmem⟩ := h
  obtain ⟨q, hq, hlq⟩ := unlink_linked hl
  refine ⟨q, hq, l.erase idx, hlq, fun i => ?_⟩
  rw [hl.nodup.mem_erase_iff, hmem i, Set.mem_sdiff, Set.mem_singleton_iff, and_comm]

theorem head_wf (h : p.Wf leaf) :
    (∀ i, p.head = some i → i ∈ leaf) ∧ (p.head = none → leaf = ∅) := by
  obtain ⟨l, hl, hmem⟩ := h
  rw [hl.headEq]
  refine ⟨fun i hi => (hmem i).mp (mem_of_head? hi), fun hn => ?_⟩
  rw [head?_eq_none_iff] at hn
  ext i
  simp [← hmem i, hn]

end FifoPolicy

/-! ### By insertion tick -/

namespace TickPolicy

/-- Every real node has a tick, and the queue holds the leaves under theirs. -/
structure Wf (p : TickPolicy) (nodes leaf : Set Nat) : Prop where
  tracked : ∀ i, p.ticks i ≠ none ↔ i ∈ nodes
  queued : ∀ t i, toLex (t, i) ∈ p.queue ↔ p.ticks i = some t ∧ i ∈ leaf

variable {p : TickPolicy}

theorem new_wf : Wf new ∅ ∅ := ⟨by simp [new], by simp [new]⟩

variable (h : p.Wf nodes leaf)

include h

theorem onNodeInserted_wf (hi : idx ∉ nodes) (hleaf : leaf ⊆ nodes) :
    (p.onNodeInserted idx).Wf (insert idx nodes) leaf where
  tracked := by
    intro i
    by_cases hii : i = idx
    · simp [onNodeInserted, hii]
    · simp [onNodeInserted, hii, h.tracked]
  queued := by
    intro t i
    by_cases hii : i = idx
    · rw [hii]
      have hil : idx ∉ leaf := fun hc => hi (hleaf hc)
      simp [onNodeInserted, h.queued, hil]
    · simp [onNodeInserted, hii, h.queued]

theorem onLeafAdded_wf (hn : idx ∈ nodes) :
    ∃ q, p.onLeafAdded idx = some q ∧ q.Wf nodes (insert idx leaf) := by
  obtain ⟨tick, htick⟩ := ne_none_iff_exists'.mp ((h.tracked idx).mpr hn)
  refine ⟨{ p with queue := insert (toLex (tick, idx)) p.queue },
    by simp [onLeafAdded, htick], h.tracked, ?_⟩
  intro t i
  simp only [Finset.mem_insert, h.queued, Set.mem_insert_iff, EmbeddingLike.apply_eq_iff_eq,
    Prod.mk.injEq]
  constructor
  · rintro (⟨rfl, rfl⟩ | ⟨ht, hl⟩)
    · exact ⟨htick, Or.inl rfl⟩
    · exact ⟨ht, Or.inr hl⟩
  · rintro ⟨ht, rfl | hl⟩
    · rw [htick] at ht
      exact Or.inl ⟨(some.inj ht).symm, rfl⟩
    · exact Or.inr ⟨ht, hl⟩

theorem onLeafDemoted_wf : (p.onLeafDemoted idx).Wf nodes (leaf \ {idx}) := by
  unfold onLeafDemoted
  cases htick : p.ticks idx with
  | none =>
    refine ⟨h.tracked, fun t i => ?_⟩
    by_cases hi : i = idx
    · simp [hi, h.queued, htick]
    · simp [hi, h.queued]
  | some tick =>
    refine ⟨h.tracked, fun t i => ?_⟩
    by_cases hi : i = idx
    · simp [hi, h.queued, htick]
      exact fun hne ht => absurd ht.symm hne
    · simp [hi, h.queued]

theorem onNodeRemoved_wf : (p.onNodeRemoved idx).Wf (nodes \ {idx}) (leaf \ {idx}) := by
  have hd : (p.onLeafDemoted idx).Wf nodes (leaf \ {idx}) := onLeafDemoted_wf h
  unfold onNodeRemoved
  unfold onLeafDemoted at hd
  cases htick : p.ticks idx with
  | none =>
    rw [htick] at hd
    refine ⟨fun i => ?_, hd.queued⟩
    rw [h.tracked, Set.mem_sdiff, Set.mem_singleton_iff]
    refine ⟨fun hi => ⟨hi, ?_⟩, And.left⟩
    rintro rfl
    exact (h.tracked i).mpr hi htick
  | some =>
    rw [htick] at hd
    refine ⟨fun i => ?_, fun t i => ?_⟩
    · by_cases hi : i = idx
      · simp [hi]
      · simp [hi, h.tracked]
    · refine (hd.queued t i).trans ?_
      by_cases hi : i = idx
      · simp [hi]
      · simp [hi]

theorem nextVictim_wf (hleaf : leaf ⊆ nodes) :
    (∀ i, p.nextVictim = some i → i ∈ leaf) ∧ (p.nextVictim = none → leaf = ∅) := by
  unfold nextVictim
  by_cases hq : p.queue.Nonempty
  · rw [dif_pos hq]
    refine ⟨fun i hi => ?_, by simp⟩
    have hmin := p.queue.min'_mem hq
    cases hi
    exact ((h.queued _ _).mp hmin).2
  · rw [dif_neg hq]
    refine ⟨by simp, fun _ => ?_⟩
    ext i
    simp only [Set.mem_empty_iff_false, iff_false]
    intro hi
    obtain ⟨t, ht⟩ := ne_none_iff_exists'.mp ((h.tracked i).mpr (hleaf hi))
    exact hq ⟨_, (h.queued t i).mpr ⟨ht, hi⟩⟩

end TickPolicy

/-! ### By value -/

namespace ValuedPolicy

/-- Where each slot stands, by the given field. -/
def place (f : PlaceField) (slots : Nat → Option LeafState) (i : Nat) : Option Nat :=
  (slots i).bind f.get

/-- `slots'` is `slots` with nothing changed but the field, and no slot gained or lost. -/
def OnlyPlaces (f : PlaceField) (slots slots' : Nat → Option LeafState) : Prop :=
  ∀ i, (slots i = none ∧ slots' i = none) ∨ ∃ st k, slots i = some st ∧ slots' i = some (f.set st k)

/-- What a write to the field leaves alone. -/
structure PlaceField.Lawful (f g : PlaceField) : Prop where
  get_set : ∀ st k, f.get (f.set st k) = k
  set_set : ∀ st k k', f.set (f.set st k) k' = f.set st k'
  set_get : ∀ st, f.set st (f.get st) = st
  other : ∀ st k, g.get (f.set st k) = g.get st
  bit : ∀ st k, (f.set st k).poisoned = st.poisoned

theorem denseField_lawful : denseField.Lawful poisonField := by
  constructor <;> intros <;> rfl

theorem poisonField_lawful : poisonField.Lawful denseField := by
  constructor <;> intros <;> rfl

variable {f g : PlaceField} {slots slots' : Nat → Option LeafState} {dense : List Nat} {i : Nat}

theorem OnlyPlaces.refl (hf : f.Lawful g) (slots : Nat → Option LeafState) :
    OnlyPlaces f slots slots := by
  intro i
  cases h : slots i with
  | none => exact Or.inl ⟨rfl, rfl⟩
  | some st => exact Or.inr ⟨st, f.get st, rfl, by rw [hf.set_get]⟩

theorem OnlyPlaces.write (hf : f.Lawful g) (h : OnlyPlaces f slots slots') (idx : Nat)
    (k : Option Nat) :
    OnlyPlaces f slots (update slots' idx ((slots' idx).map fun st => f.set st k)) := by
  intro i
  by_cases hi : i = idx
  · subst hi
    rw [update_self]
    rcases h i with ⟨hn, hn'⟩ | ⟨st, k', hst, hst'⟩
    · exact Or.inl ⟨hn, by simp [hn']⟩
    · exact Or.inr ⟨st, k, hst, by simp [hst', hf.set_set]⟩
  · rw [update_of_ne hi]
    exact h i

theorem OnlyPlaces.ne_none (h : OnlyPlaces f slots slots') : slots' i ≠ none ↔ slots i ≠ none := by
  rcases h i with ⟨hn, hn'⟩ | ⟨st, k, hst, hst'⟩
  · rw [hn, hn']
  · simp [hst, hst']

theorem OnlyPlaces.other (hf : f.Lawful g) (h : OnlyPlaces f slots slots') :
    place g slots' = place g slots := by
  funext i
  unfold place
  rcases h i with ⟨hn, hn'⟩ | ⟨st, k, hst, hst'⟩
  · rw [hn, hn']
  · simp [hst, hst', hf.other]

theorem place_write (hf : f.Lawful g) (k : Option Nat) (hs : slots idx ≠ none) (i : Nat) :
    place f (update slots idx ((slots idx).map fun st => f.set st k)) i =
      if i = idx then k else place f slots i := by
  unfold place
  by_cases hi : i = idx
  · obtain ⟨st, hst⟩ := ne_none_iff_exists'.mp hs
    simp [hi, hst, hf.get_set]
  · simp [hi]

theorem ne_none_of_place {pos : Nat} (h : place f slots i = some pos) : slots i ≠ none := by
  intro hc
  simp [place, hc] at h

theorem place_update {st : Option LeafState} (hst : st.bind f.get = place f slots idx) :
    place f (update slots idx st) = place f slots := by
  funext i
  by_cases hi : i = idx
  · rw [hi, place, update_self, hst]
  · rw [place, update_of_ne hi, place]

/-- **Taking a slot out of a dense vector**: it always comes back, the places are right
afterwards, and nothing else of any state has changed. -/
theorem unlinkPlace_spec (hf : f.Lawful g) (h : Dense dense (place f slots)) :
    ∃ slots' dense', unlinkPlace f slots dense idx = some (slots', dense') ∧
      Dense dense' (place f slots') ∧ (∀ i, i ∈ dense' ↔ i ∈ dense ∧ i ≠ idx) ∧
      OnlyPlaces f slots slots' := by
  unfold unlinkPlace
  cases hpos : (slots idx).bind f.get with
  | none =>
    refine ⟨slots, dense, rfl, h, fun i => ⟨fun hi => ⟨hi, ?_⟩, And.left⟩, .refl hf slots⟩
    rintro rfl
    exact h.mem_iff.mp hi hpos
  | some pos =>
    have hplace : place f slots idx = some pos := hpos
    have hlt := h.lt hplace
    have hsome := ne_none_of_place hplace
    have hgone := place_write hf none hsome
    have honly : OnlyPlaces f slots (update slots idx ((slots idx).map fun st => f.set st none)) :=
      (OnlyPlaces.refl hf slots).write hf idx none
    obtain ⟨last, hlast, hplast⟩ := h.exists_last hplace
    -- the slots after the correction, in both cases
    obtain ⟨slots', heq, hplaces, honly'⟩ :
        ∃ slots', (if pos ≠ dense.length - 1 then
            fixPlace f (update slots idx ((slots idx).map fun st => f.set st none))
              (Lib.swapRemove dense pos) pos
          else update slots idx ((slots idx).map fun st => f.set st none)) = slots' ∧
          (∀ j, place f slots' j =
            if j = idx then none else if j = last then some pos else place f slots j) ∧
          OnlyPlaces f slots slots' := by
      by_cases hp : pos = dense.length - 1
      · have hli : last = idx := by
          have := (h idx pos).mp hplace
          rw [hp, ← getLast?_eq_getElem?, hlast] at this
          exact some.inj this
        refine ⟨_, if_neg (by simpa using hp), fun j => ?_, honly⟩
        by_cases hj : j = idx
        · rw [hgone, if_pos hj, if_pos hj]
        · rw [hgone, if_neg hj, if_neg hj, if_neg (hli ▸ hj)]
      · have hli : last ≠ idx := by
          rintro rfl
          rw [hplace] at hplast
          exact hp (some.inj hplast)
        have hfix : (Lib.swapRemove dense pos)[pos]? = some last := by
          rw [getElem?_swapRemove hlast hlt, if_pos (by omega), if_pos rfl]
        have hlsome : update slots idx ((slots idx).map fun st => f.set st none) last ≠ none := by
          rw [update_of_ne hli]
          exact ne_none_of_place hplast
        refine ⟨_, if_pos hp, ?_⟩
        unfold fixPlace
        rw [hfix]
        refine ⟨fun j => ?_, honly.write hf last (some pos)⟩
        rw [place_write hf (some pos) hlsome, hgone]
        by_cases hj : j = last
        · rw [if_pos hj, if_neg (hj ▸ hli), if_pos hj]
        · rw [if_neg hj, if_neg hj]
    have hd := h.swapRemove hplace hlast hplaces
    refine ⟨slots', Lib.swapRemove dense pos, by simp only [if_pos hlt, heq], hd, fun i => ?_,
      honly'⟩
    rw [hd.mem_iff, h.mem_iff, hplaces]
    by_cases hi : i = idx
    · simp [hi]
    by_cases hl : i = last
    · subst hl
      simp [hi, hplast]
    · simp [hi, hl]

/-- The poison bit of a slot is set. -/
def Poisoned (slots : Nat → Option LeafState) (i : Nat) : Prop :=
  ∃ st, slots i = some st ∧ st.poisoned = true

theorem OnlyPlaces.poisoned (hf : f.Lawful g) (h : OnlyPlaces f slots slots') :
    Poisoned slots' i ↔ Poisoned slots i := by
  unfold Poisoned
  rcases h i with ⟨hn, hn'⟩ | ⟨st, k, hst, hst'⟩
  · simp [hn, hn']
  · simp [hst, hst', hf.bit]

/-- The state of every real node is there, and the two dense vectors hold `leaf` and `psn`. -/
structure Places (p : ValuedPolicy) (nodes leaf psn : Set Nat) : Prop where
  tracked : ∀ i, p.slots i ≠ none ↔ i ∈ nodes
  dense : Dense p.leafDense (place denseField p.slots)
  leaves : ∀ i, i ∈ p.leafDense ↔ i ∈ leaf
  poison : Dense p.poisonDense (place poisonField p.slots)
  poisons : ∀ i, i ∈ p.poisonDense ↔ i ∈ psn

/-- The vectors hold the leaves, and the leaves whose poison bit is set. -/
def Wf (p : ValuedPolicy) (nodes leaf : Set Nat) : Prop :=
  p.Places nodes leaf { i | i ∈ leaf ∧ Poisoned p.slots i }

variable {p : ValuedPolicy} {psn : Set Nat}

theorem new_wf {sketch oracle params} : Wf (new sketch oracle params) ∅ ∅ where
  tracked := by simp [new]
  dense := Dense.empty
  leaves := by simp [new]
  poison := Dense.empty
  poisons := by simp [new]

section

variable (h : p.Places nodes leaf psn)

include h

theorem Places.wf (hp : ∀ i, i ∈ psn ↔ i ∈ leaf ∧ Poisoned p.slots i) : p.Wf nodes leaf :=
  { h with poisons := fun i => (h.poisons i).trans (hp i) }

/-- The state of one slot is written, and not where it stands. -/
theorem Places.setSlot {st : Option LeafState} {nodes' : Set Nat}
    (hn : ∀ i, i ∈ nodes' ↔ if i = idx then st ≠ none else i ∈ nodes)
    (hd : st.bind denseField.get = place denseField p.slots idx)
    (hp : st.bind poisonField.get = place poisonField p.slots idx) :
    (p.setSlot idx st).Places nodes' leaf psn := by
  refine ⟨fun i => ?_, ?_, h.leaves, ?_, h.poisons⟩
  · rw [hn]
    by_cases hi : i = idx
    · simp [ValuedPolicy.setSlot, hi]
    · simp [ValuedPolicy.setSlot, hi, h.tracked]
  · rw [ValuedPolicy.setSlot, place_update hd]
    exact h.dense
  · rw [ValuedPolicy.setSlot, place_update hp]
    exact h.poison

theorem unlinkLeaf_places :
    ∃ q, p.unlinkLeaf idx = some q ∧ q.Places nodes (leaf \ {idx}) psn ∧
      ∀ i, Poisoned q.slots i ↔ Poisoned p.slots i := by
  obtain ⟨slots', dense', heq, hd, hmem, honly⟩ := unlinkPlace_spec denseField_lawful h.dense
  refine ⟨{ p with slots := slots', leafDense := dense' }, by rw [unlinkLeaf, heq]; rfl,
    ⟨fun i => honly.ne_none.trans (h.tracked i), hd,
      fun i => (hmem i).trans (and_congr_left' (h.leaves i)), ?_, h.poisons⟩,
    fun i => honly.poisoned denseField_lawful⟩
  rw [honly.other denseField_lawful]
  exact h.poison

theorem unlinkPoison_places :
    ∃ q, p.unlinkPoison idx = some q ∧ q.Places nodes leaf (psn \ {idx}) ∧
      ∀ i, Poisoned q.slots i ↔ Poisoned p.slots i := by
  obtain ⟨slots', dense', heq, hd, hmem, honly⟩ := unlinkPlace_spec poisonField_lawful h.poison
  refine ⟨{ p with slots := slots', poisonDense := dense' }, by rw [unlinkPoison, heq]; rfl,
    ⟨fun i => honly.ne_none.trans (h.tracked i), ?_, h.leaves, hd,
      fun i => (hmem i).trans (and_congr_left' (h.poisons i))⟩,
    fun i => honly.poisoned poisonField_lawful⟩
  rw [honly.other poisonField_lawful]
  exact h.dense

theorem addPoison_places (hn : idx ∈ nodes) (hp : idx ∉ psn) :
    (p.addPoison idx).Places nodes leaf (insert idx psn) ∧
      ∀ i, Poisoned (p.addPoison idx).slots i ↔ Poisoned p.slots i := by
  have hsome := (h.tracked idx).mpr hn
  obtain ⟨st, hst⟩ := ne_none_iff_exists'.mp hsome
  have hslots : (p.addPoison idx).slots = update p.slots idx
      ((p.slots idx).map fun st => poisonField.set st (some p.poisonDense.length)) := by
    simp [addPoison, hst, poisonField]
  have honly : OnlyPlaces poisonField p.slots (p.addPoison idx).slots := by
    rw [hslots]
    exact (OnlyPlaces.refl poisonField_lawful p.slots).write poisonField_lawful idx _
  have hwrite := place_write poisonField_lawful (some p.poisonDense.length) hsome
  rw [← hslots] at hwrite
  have hleaf : (p.addPoison idx).leafDense = p.leafDense := by simp [addPoison, hst]
  have hpoison : (p.addPoison idx).poisonDense = p.poisonDense ++ [idx] := by simp [addPoison, hst]
  refine ⟨⟨fun i => honly.ne_none.trans (h.tracked i), ?_, ?_, ?_, ?_⟩,
    fun i => honly.poisoned poisonField_lawful⟩
  · rw [honly.other poisonField_lawful, hleaf]
    exact h.dense
  · rw [hleaf]
    exact h.leaves
  · rw [hpoison]
    refine h.poison.push ?_ (by rw [hwrite, if_pos rfl]) fun j hj => by rw [hwrite, if_neg hj]
    by_contra hc
    exact hp ((h.poisons idx).mp (h.poison.mem_iff.mpr hc))
  · intro i
    rw [hpoison]
    simp only [mem_append, mem_singleton, Set.mem_insert_iff, h.poisons]
    exact Or.comm

omit h in
theorem onNodeInserted_wf {h : SequenceHash} (hw : p.Wf nodes leaf) (hi : idx ∉ nodes)
    (hleaf : leaf ⊆ nodes) : (p.onNodeInserted idx h).Wf (insert idx nodes) leaf := by
  have hnone : p.slots idx = none := by
    by_contra hc
    exact hi ((hw.tracked idx).mp hc)
  refine (hw.setSlot (fun i => ?_) ?_ ?_).wf fun i => and_congr_right fun hil => ?_
  · by_cases hii : i = idx <;> simp [hii]
  · rw [place, hnone]
    rfl
  · rw [place, hnone]
    rfl
  · have hii : i ≠ idx := fun hc => hi (hc ▸ hleaf hil)
    simp [Poisoned, setSlot, hii]

/-- Entering the order without the poison vector. -/
private theorem enter_places {st : LeafState} (hst : p.slots idx = some st) (hl : idx ∉ leaf) :
    Places { p with
      now := p.now + 1
      slots := update p.slots idx
        (some { st with lastTouch := p.now + 1, denseIdx := some p.leafDense.length })
      leafDense := p.leafDense ++ [idx] } nodes (insert idx leaf) psn := by
  refine ⟨?_, ?_, ?_, ?_, h.poisons⟩
  · intro i
    rw [← h.tracked i]
    by_cases hii : i = idx
    · simp [hii, hst]
    · simp [hii]
  · refine h.dense.push ?_ (by simp [place, denseField]) fun j hj => by simp [place, hj]
    by_contra hc
    exact hl ((h.leaves idx).mp (h.dense.mem_iff.mpr hc))
  · intro i
    simp only [mem_append, mem_singleton, Set.mem_insert_iff, h.leaves]
    exact Or.comm
  · rw [place_update (by rw [place, hst]; rfl)]
    exact h.poison

end

section

variable (hw : p.Wf nodes leaf)

include hw

theorem onLeafAdded_wf (hn : idx ∈ nodes) (hl : idx ∉ leaf) :
    ∃ q, p.onLeafAdded idx = some q ∧ q.Wf nodes (insert idx leaf) := by
  obtain ⟨st, hst⟩ := ne_none_iff_exists'.mp ((hw.tracked idx).mpr hn)
  have henter := enter_places hw hst hl
  have hbits : ∀ i, Poisoned (update p.slots idx
      (some { st with lastTouch := p.now + 1, denseIdx := some p.leafDense.length })) i ↔
      Poisoned p.slots i := by
    intro i
    by_cases hii : i = idx
    · simp [Poisoned, hii, hst]
    · simp [Poisoned, hii]
  unfold onLeafAdded
  rw [hst, map_some]
  by_cases hp : st.poisoned = true
  · -- a node poisoned while it was interior joins the poison vector now
    have hadd := addPoison_places henter hn (fun hc => hl hc.1)
    refine ⟨_, by rw [if_pos hp], hadd.1.wf fun i => ?_⟩
    rw [hadd.2 i, hbits i]
    simp only [Set.mem_insert_iff, Set.mem_ofPred_eq]
    constructor
    · rintro (rfl | ⟨hil, hip⟩)
      · exact ⟨Or.inl rfl, st, hst, hp⟩
      · exact ⟨Or.inr hil, hip⟩
    · rintro ⟨hi | hil, hip⟩
      · exact Or.inl hi
      · exact Or.inr ⟨hil, hip⟩
  · refine ⟨_, by rw [if_neg hp], henter.wf fun i => ?_⟩
    rw [hbits i]
    simp only [Set.mem_insert_iff, Set.mem_ofPred_eq]
    constructor
    · exact fun ⟨hil, hip⟩ => ⟨Or.inr hil, hip⟩
    · rintro ⟨rfl | hil, hip⟩
      · obtain ⟨st', hst', hp'⟩ := hip
        rw [hst] at hst'
        cases hst'
        exact absurd hp' hp
      · exact ⟨hil, hip⟩

private theorem unlink_both (idx : Nat) :
    ∃ q r, p.unlinkLeaf idx = some q ∧ q.unlinkPoison idx = some r ∧ r.Wf nodes (leaf \ {idx}) := by
  obtain ⟨q, hq, hqp, hqb⟩ := unlinkLeaf_places hw
  obtain ⟨r, hr, hrp, hrb⟩ := unlinkPoison_places hqp
  refine ⟨q, r, hq, hr, hrp.wf fun i => ?_⟩
  rw [hrb i, hqb i]
  simp only [Set.mem_sdiff, Set.mem_ofPred_eq, Set.mem_singleton_iff]
  exact ⟨fun ⟨⟨hl, hp⟩, hi⟩ => ⟨⟨hl, hi⟩, hp⟩, fun ⟨⟨hl, hi⟩, hp⟩ => ⟨⟨hl, hp⟩, hi⟩⟩

theorem onLeafDemoted_wf : ∃ q, p.onLeafDemoted idx = some q ∧ q.Wf nodes (leaf \ {idx}) := by
  obtain ⟨q, r, hq, hr, hwf⟩ := unlink_both hw idx
  exact ⟨r, by rw [onLeafDemoted, hq, bind_some, hr], hwf⟩

theorem onNodeRemoved_wf :
    ∃ q, p.onNodeRemoved idx = some q ∧ q.Wf (nodes \ {idx}) (leaf \ {idx}) := by
  obtain ⟨q, r, hq, hr, hwf⟩ := unlink_both hw idx
  have hd : place denseField r.slots idx = none := by
    by_contra hc
    exact ((hwf.leaves idx).mp (hwf.dense.mem_iff.mpr hc)).2 rfl
  have hp : place poisonField r.slots idx = none := by
    by_contra hc
    exact ((hwf.poisons idx).mp (hwf.poison.mem_iff.mpr hc)).1.2 rfl
  have hset : (r.setSlot idx none).Places (nodes \ {idx}) (leaf \ {idx}) _ :=
    hwf.setSlot (fun i => by by_cases hii : i = idx <;> simp [hii]) hd.symm hp.symm
  refine ⟨r.setSlot idx none, by rw [onNodeRemoved, hq, bind_some, hr]; rfl,
    hset.wf fun i => and_congr_right fun hil => ?_⟩
  have hii : i ≠ idx := hil.2
  simp [Poisoned, setSlot, hii]

theorem markPoisoned_wf : (p.markPoisoned idx).Wf nodes leaf := by
  unfold markPoisoned
  cases hst : p.slots idx with
  | none => exact hw
  | some st =>
    by_cases hp : st.poisoned = true
    · simp only [if_pos hp]
      exact hw
    simp only [if_neg hp]
    have hbit : ∀ i, Poisoned (p.setSlot idx (some { st with poisoned := true })).slots i ↔
        i = idx ∨ Poisoned p.slots i := by
      intro i
      by_cases hii : i = idx
      · simp [Poisoned, setSlot, hii]
      · simp [Poisoned, setSlot, hii]
    have hnot : ¬ Poisoned p.slots idx := by
      rintro ⟨st', hst', hp'⟩
      rw [hst] at hst'
      cases hst'
      exact hp hp'
    -- the bit is set; the vectors are as they were
    have hq : (p.setSlot idx (some { st with poisoned := true })).Places nodes leaf
        { i | i ∈ leaf ∧ Poisoned p.slots i } := by
      refine hw.setSlot (fun i => ?_) (by rw [place, hst]; rfl) (by rw [place, hst]; rfl)
      by_cases hii : i = idx
      · simp [hii, ← hw.tracked idx, hst]
      · simp [hii]
    have hleaf : st.denseIdx.isSome = true ↔ idx ∈ leaf := by
      rw [← hw.leaves idx, hw.dense.mem_iff]
      simp [place, denseField, hst, isSome_iff_ne_none]
    by_cases hd : st.denseIdx.isSome = true
    · rw [if_pos hd]
      have hn : idx ∈ nodes := (hw.tracked idx).mp (by simp [hst])
      have hadd := addPoison_places hq hn fun hc => hnot hc.2
      refine hadd.1.wf fun i => ?_
      rw [hadd.2 i, hbit i]
      simp only [Set.mem_insert_iff, Set.mem_ofPred_eq]
      constructor
      · rintro (rfl | ⟨hil, hip⟩)
        · exact ⟨hleaf.mp hd, Or.inl rfl⟩
        · exact ⟨hil, Or.inr hip⟩
      · rintro ⟨hil, hi | hip⟩
        · exact Or.inl hi
        · exact Or.inr ⟨hil, hip⟩
    · rw [if_neg hd]
      refine hq.wf fun i => and_congr_right fun hil => ?_
      rw [hbit i]
      refine ⟨Or.inr, fun hc => hc.resolve_left ?_⟩
      rintro rfl
      exact hd (hleaf.mpr hil)

end

/-- `q` differs from `p` in the random state and in the answers already used only. -/
structure SameOrder (p q : ValuedPolicy) : Prop where
  slots : q.slots = p.slots
  leafDense : q.leafDense = p.leafDense
  poisonDense : q.poisonDense = p.poisonDense

theorem SameOrder.trans {p q r : ValuedPolicy} (h : SameOrder p q) (h' : SameOrder q r) :
    SameOrder p r :=
  ⟨h'.slots.trans h.slots, h'.leafDense.trans h.leafDense, h'.poisonDense.trans h.poisonDense⟩

theorem SameOrder.wf {q : ValuedPolicy} (h : SameOrder p q) (hw : p.Wf nodes leaf) :
    q.Wf nodes leaf := by
  refine ⟨?_, ?_, ?_, ?_, ?_⟩
  · rw [h.slots]; exact hw.tracked
  · rw [h.slots, h.leafDense]; exact hw.dense
  · rw [h.leafDense]; exact hw.leaves
  · rw [h.slots, h.poisonDense]; exact hw.poison
  · rw [h.slots, h.poisonDense]; exact hw.poisons

theorem maxFanoutOf_same (h : SequenceHash) : SameOrder p (p.maxFanoutOf h).2 := by
  unfold maxFanoutOf
  cases p.oracle <;> exact ⟨rfl, rfl, rfl⟩

theorem nextRand_same : SameOrder p p.nextRand.2 := ⟨rfl, rfl, rfl⟩

/-- What the scan has so far: a leaf, or nothing with an infinite score. -/
def Found (l : List Nat) (best : Option Nat × WithTop ℚ) : Prop :=
  (∀ i, best.1 = some i → i ∈ l) ∧ (best.1 = none → best.2 = ⊤)

theorem scoreSlot_same {slot : Nat} :
    SameOrder p (p.scoreSlot slot).2 ∧ (p.slots slot ≠ none → (p.scoreSlot slot).1 < ⊤) := by
  unfold scoreSlot
  cases hst : p.slots slot with
  | none => exact ⟨⟨rfl, rfl, rfl⟩, fun hc => absurd rfl hc⟩
  | some st => exact ⟨⟨rfl, rfl, rfl⟩, fun _ => WithTop.coe_lt_top _⟩

variable {l : List Nat}

/-- A scan of the leaves that got to `r`. -/
structure Scanned (p : ValuedPolicy) (r : (Option Nat × WithTop ℚ) × ValuedPolicy) : Prop where
  same : SameOrder p r.2
  found : Found p.leafDense r.1

variable {r : (Option Nat × WithTop ℚ) × ValuedPolicy}

/-- A tracked slot that is looked at leaves a leaf behind. -/
theorem Scanned.consider {slot : Nat} (h : Scanned p r) (hl : slot ∈ p.leafDense)
    (hs : p.slots slot ≠ none) :
    Scanned p (r.2.consider r.1 slot) ∧ (r.2.consider r.1 slot).1.1 ≠ none := by
  obtain ⟨hsame, hfin⟩ := @scoreSlot_same r.2 slot
  rw [h.same.slots] at hfin
  unfold ValuedPolicy.consider
  dsimp only
  split_ifs with hlt
  · exact ⟨⟨h.same.trans hsame, fun i hi => some.inj hi ▸ hl, by simp⟩, by simp⟩
  refine ⟨⟨h.same.trans hsame, h.found⟩, fun hc => hlt ?_⟩
  rw [h.found.2 hc]
  exact hfin hs

section

variable (hall : ∀ s ∈ p.leafDense, p.slots s ≠ none)

include hall

theorem exactScan_spec {rest : List Nat} : ∀ {r}, Scanned p r → rest ⊆ p.leafDense →
    r.1.1 ≠ none ∨ rest ≠ [] →
    Scanned p (exactScan rest r.2 r.1) ∧ (exactScan rest r.2 r.1).1.1 ≠ none := by
  induction rest with
  | nil => exact fun h _ hne => ⟨h, hne.resolve_right fun hc => hc rfl⟩
  | cons slot rest ih =>
    intro r h hsub _
    obtain ⟨hslot, hrest⟩ := cons_subset.mp hsub
    obtain ⟨hscan, hne⟩ := h.consider hslot (hall slot hslot)
    exact ih hscan hrest (.inl hne)

theorem sampleScan_spec (hpos : 0 < p.leafDense.length) {k : Nat} : ∀ {r}, Scanned p r →
    r.1.1 ≠ none ∨ 0 < k →
    Scanned p (sampleScan k r.2 r.1) ∧ (sampleScan k r.2 r.1).1.1 ≠ none := by
  induction k with
  | zero => exact fun h hne => ⟨h, hne.resolve_right (Nat.lt_irrefl 0)⟩
  | succ k ih =>
    intro r h _
    have hnext : Scanned p (r.1, r.2.nextRand.2) := ⟨h.same.trans nextRand_same, h.found⟩
    have hleaf : r.2.nextRand.2.leafDense = p.leafDense := hnext.same.leafDense
    have hlt := Nat.mod_lt r.2.nextRand.1.toNat hpos
    unfold sampleScan
    simp only [hleaf, getElem?_eq_getElem hlt]
    obtain ⟨hscan, hne⟩ := hnext.consider (getElem_mem hlt) (hall _ (getElem_mem hlt))
    exact ih hscan (.inl hne)

end

theorem nextVictim_wf (hw : p.Wf nodes leaf) (hleaf : leaf ⊆ nodes) :
    SameOrder p p.nextVictim.2 ∧ (∀ i, p.nextVictim.1 = some i → i ∈ leaf) ∧
      (p.nextVictim.1 = none → leaf = ∅) := by
  unfold nextVictim
  cases hp : p.poisonDense.head? with
  | some idx =>
    refine ⟨⟨rfl, rfl, rfl⟩, fun i hi => ?_, fun hc => by cases hc⟩
    cases hi
    exact ((hw.poisons idx).mp (mem_of_head? hp)).1
  | none =>
    by_cases hn : p.leafDense.length = 0
    · simp only [hn, if_true]
      refine ⟨⟨rfl, rfl, rfl⟩, by simp, fun _ => ?_⟩
      ext i
      rw [← hw.leaves i, length_eq_zero_iff.mp hn]
      simp
    · simp only [hn, if_false]
      have hall : ∀ s ∈ p.leafDense, p.slots s ≠ none := fun s hs =>
        (hw.tracked s).mpr (hleaf ((hw.leaves s).mp hs))
      have hstart : Scanned p ((none, ⊤), p) := ⟨⟨rfl, rfl, rfl⟩, by simp, fun _ => rfl⟩
      have hfinish : ∀ {r : (Option Nat × WithTop ℚ) × ValuedPolicy},
          Scanned p r ∧ r.1.1 ≠ none → SameOrder p r.2 ∧ (∀ i, r.1.1 = some i → i ∈ leaf) ∧
            (r.1.1 = none → leaf = ∅) :=
        fun ⟨h, hne⟩ =>
          ⟨h.same, fun i hi => (hw.leaves i).mp (h.found.1 i hi), fun hc => absurd hc hne⟩
      by_cases hk : min (max p.params.kSample 1) p.leafDense.length = p.leafDense.length
      · simp only [hk, if_true]
        refine hfinish (exactScan_spec hall hstart (Subset.refl _) (.inr fun hc => hn ?_))
        rw [hc]
        rfl
      · simp only [hk, if_false]
        exact hfinish (sampleScan_spec hall (by omega) hstart (.inr (by omega)))

/-- A scan that has the slots `l` before it: the heap lists no slot twice, and no poisoned one. -/
structure Peeked (p : ValuedPolicy) (l : List Nat) (r : List (WithTop ℚ ×ₗ Nat) × ValuedPolicy) :
    Prop where
  same : SameOrder p r.2
  nodup : (r.1.map (fun e => (ofLex e).2) ++ l).Nodup
  clean : ∀ e ∈ r.1, place poisonField p.slots (ofLex e).2 = none

theorem Peeked.turn {r : List (WithTop ℚ ×ₗ Nat) × ValuedPolicy} {remaining : Nat}
    (h : Peeked p (idx :: l) r) : Peeked p l (peekLeaf remaining r idx) := by
  unfold peekLeaf
  split
  · exact { h with nodup := h.nodup.sublist ((sublist_cons_self idx l).append_left _) }
  rename_i hclean
  have hperm := perm_orderedInsert (· ≤ ·) (toLex ((r.2.scoreSlot idx).1, idx)) r.1
  dsimp only
  generalize r.1.orderedInsert (· ≤ ·) (toLex ((r.2.scoreSlot idx).1, idx)) = heap at hperm ⊢
  have hsub : (if heap.length > remaining then heap.dropLast else heap) <+ heap := by
    split
    · exact dropLast_sublist heap
    · exact .refl heap
  refine ⟨h.same.trans scoreSlot_same.1, ?_, fun e he => ?_⟩
  · refine Nodup.sublist ((hsub.map _).append_right l) ?_
    rw [((hperm.map _).append_right l).nodup_iff]
    exact perm_middle.nodup_iff.mp h.nodup
  · rcases mem_cons.mp (hperm.mem_iff.mp (hsub.subset he)) with rfl | he
    · rw [h.same.slots] at hclean
      exact not_isSome_iff_eq_none.mp hclean
    · exact h.clean e he

/-- **A peek lists no slot twice.** -/
theorem peekSlots_spec (hw : p.Wf nodes leaf) (max : Nat) :
    (p.peekSlots max).1.Nodup ∧ SameOrder p (p.peekSlots max).2 := by
  have hscan : ∀ remaining (l : List Nat) r, Peeked p l r →
      Peeked p [] (l.foldl (peekLeaf remaining) r) := by
    intro remaining l
    induction l with
    | nil => exact fun r h => h
    | cons idx l ih => exact fun r h => ih _ h.turn
  have hpoison : (p.poisonDense.take max).Nodup := hw.poison.nodup.sublist (take_sublist _ _)
  unfold peekSlots
  split_ifs
  · exact ⟨nodup_nil, ⟨rfl, rfl, rfl⟩⟩
  dsimp only
  split_ifs
  · exact ⟨hpoison, ⟨rfl, rfl, rfl⟩⟩
  have hdone := hscan (max - (p.poisonDense.take max).length) (p.leafDense.take maxPeekScan)
    ([], p) ⟨⟨rfl, rfl, rfl⟩, hw.dense.nodup.sublist (take_sublist _ _), nofun⟩
  refine ⟨nodup_append'.mpr ⟨hpoison, by simpa using hdone.nodup, ?_⟩, hdone.same⟩
  -- whoever is poisoned has a place among the poisoned
  intro i hi hmem
  obtain ⟨e, he, rfl⟩ := mem_map.mp hmem
  exact hw.poison.mem_iff.mp (mem_of_mem_take hi) (hdone.clean e he)

/-! ### Hooks in any order that the graph can produce -/

theorem Told.step_wf {s : Told} {hook : Hook} (hw : s.policy.Wf s.nodes s.leaves)
    (hsub : s.leaves ⊆ s.nodes) (ha : s.Admits hook) :
    ∃ s', s.step hook = some s' ∧ s'.policy.Wf s'.nodes s'.leaves ∧ s'.leaves ⊆ s'.nodes := by
  cases hook with
  | nodeInserted idx =>
    exact ⟨_, rfl, onNodeInserted_wf hw ha hsub, hsub.trans (Set.subset_insert _ _)⟩
  | leafAdded idx =>
    obtain ⟨q, hq, hwf⟩ := onLeafAdded_wf hw ha.1 ha.2
    exact ⟨_, by rw [step, hq]; rfl, hwf, Set.insert_subset ha.1 hsub⟩
  | leafDemoted idx =>
    obtain ⟨q, hq, hwf⟩ : ∃ q, s.policy.onLeafDemoted idx = some q ∧ _ := onLeafDemoted_wf hw
    exact ⟨_, by rw [step, hq]; rfl, hwf, Set.sdiff_subset.trans hsub⟩
  | nodeRemoved idx =>
    obtain ⟨q, hq, hwf⟩ : ∃ q, s.policy.onNodeRemoved idx = some q ∧ _ := onNodeRemoved_wf hw
    exact ⟨_, by rw [step, hq]; rfl, hwf, Set.sdiff_subset_sdiff_left hsub⟩
  | markPoisoned => exact ⟨_, rfl, markPoisoned_wf hw, hsub⟩
  | nextVictim => exact ⟨_, rfl, (nextVictim_wf hw hsub).1.wf hw, hsub⟩
  | peekSlots max => exact ⟨_, rfl, (peekSlots_spec hw max).2.wf hw, hsub⟩

/-- **The dense vectors and the back indices agree after all hooks**: they list the leaves, and
the leaves whose poison bit is set.  A poisoned leaf is the next victim, a peek lists no slot
twice, and no hook that the graph can call stops the program. -/
theorem Told.bookkeeping {s : Told} (h : ReachableWhile Admits
    (fun s => ∃ sketch oracle params, s = ⟨new sketch oracle params, ∅, ∅⟩) step s) :
    s.policy.Wf s.nodes s.leaves ∧
      (s.policy.poisonDense ≠ [] → ∃ i ∈ s.policy.poisonDense, s.policy.nextVictim.1 = some i) ∧
      (∀ max, (s.policy.peekSlots max).1.Nodup) ∧
      ∀ hook, s.Admits hook → ∃ s', s.step hook = some s' := by
  have hinv : s.policy.Wf s.nodes s.leaves ∧ s.leaves ⊆ s.nodes := by
    refine h.invariant (P := fun s => s.policy.Wf s.nodes s.leaves ∧ s.leaves ⊆ s.nodes) ?_ ?_
    · rintro _ ⟨sketch, oracle, params, rfl⟩
      exact ⟨new_wf, subset_rfl⟩
    · intro s hook s' hs ha hstep
      obtain ⟨t, ht, hwf⟩ := step_wf hs.1 hs.2 ha
      cases ht.symm.trans hstep
      exact hwf
  obtain ⟨hw, hsub⟩ := hinv
  refine ⟨hw, fun hne => ?_, fun max => (peekSlots_spec hw max).1, fun hook ha => ?_⟩
  · obtain ⟨i, rest, hl⟩ := exists_cons_of_ne_nil hne
    exact ⟨i, by simp [hl], by simp [nextVictim, hl]⟩
  · obtain ⟨t, ht, -⟩ := step_wf hw hsub ha
    exact ⟨t, ht⟩

/-- Node 3 is poisoned before it becomes a leaf, and leaf 4 after.  When 3 is demoted, 4 is moved to
its place in both vectors. -/
theorem Told.bookkeeping_poisoned :
    ∃ s : Told, s.policy.poisonDense = [4] ∧ s.policy.leafDense = [4] ∧
      s.policy.Wf s.nodes s.leaves := by
  refine ⟨_, rfl, rfl, (Told.bookkeeping (.step (a := .leafDemoted 3) (.step (a := .markPoisoned 4)
    (.step (a := .leafAdded 4) (.step (a := .leafAdded 3) (.step (a := .markPoisoned 3)
      (.step (a := .nodeInserted 4 ⟨1, 0, 0, 0⟩) (.step (a := .nodeInserted 3 ⟨0, 0, 0, 0⟩)
        (.init ⟨none, none, ⟨1, 1, fun _ _ _ _ => 0⟩, rfl⟩) ?_ rfl) ?_ rfl) trivial rfl) ?_ rfl)
      ?_ rfl) trivial rfl) trivial rfl)).1⟩ <;> simp [Admits]

end ValuedPolicy

/-! ### Any of the three -/

namespace LeafPolicy

/-- The policy's copy of the graph: `nodes` are the real nodes, `leaf` those without children. -/
structure Wf (p : LeafPolicy) (nodes leaf : Set Nat) : Prop where
  sub : leaf ⊆ nodes
  holds : match p with
    | .fifo p => p.Wf leaf
    | .tick p => p.Wf nodes leaf
    | .valued p => p.Wf nodes leaf

/-- A policy as the backend is built with it. -/
inductive Fresh : LeafPolicy → Prop
  | fifo : Fresh (.fifo .new)
  | tick : Fresh (.tick .new)
  | valued (sketch oracle params) : Fresh (.valued (.new sketch oracle params))

variable {p : LeafPolicy}

theorem Fresh.wf (h : Fresh p) : p.Wf ∅ ∅ := by
  refine ⟨Set.empty_subset _, ?_⟩
  cases h with
  | fifo => exact FifoPolicy.new_wf
  | tick => exact TickPolicy.new_wf
  | valued => exact new_wf

variable (hw : p.Wf nodes leaf)

include hw

theorem onNodeInserted_wf {h : SequenceHash} (hi : idx ∉ nodes) :
    (p.onNodeInserted idx h).Wf (insert idx nodes) leaf := by
  refine ⟨hw.sub.trans (Set.subset_insert _ _), ?_⟩
  have hholds := hw.holds
  cases p with
  | fifo => exact hholds
  | tick => exact TickPolicy.onNodeInserted_wf hholds hi hw.sub
  | valued => exact onNodeInserted_wf hholds hi hw.sub

theorem onLeafAdded_wf (hn : idx ∈ nodes) (hl : idx ∉ leaf) :
    ∃ q, p.onLeafAdded idx = some q ∧ q.Wf nodes (insert idx leaf) := by
  have hsub := Set.insert_subset hn hw.sub
  have hholds := hw.holds
  cases p with
  | fifo =>
    obtain ⟨q, hq, hwf⟩ := FifoPolicy.onLeafAdded_wf hholds hl
    exact ⟨.fifo q, by simp [onLeafAdded, hq], hsub, hwf⟩
  | tick =>
    obtain ⟨q, hq, hwf⟩ := TickPolicy.onLeafAdded_wf hholds hn
    exact ⟨.tick q, by simp [onLeafAdded, hq], hsub, hwf⟩
  | valued =>
    obtain ⟨q, hq, hwf⟩ := onLeafAdded_wf hholds hn hl
    exact ⟨.valued q, by simp [onLeafAdded, hq], hsub, hwf⟩

theorem onLeafDemoted_wf (idx : Nat) :
    ∃ q, p.onLeafDemoted idx = some q ∧ q.Wf nodes (leaf \ {idx}) := by
  have hsub : leaf \ {idx} ⊆ nodes := Set.sdiff_subset.trans hw.sub
  have hholds := hw.holds
  cases p with
  | fifo =>
    obtain ⟨q, hq, hwf⟩ := FifoPolicy.unlink_wf hholds
    exact ⟨.fifo q, by simp [onLeafDemoted, hq], hsub, hwf⟩
  | tick => exact ⟨_, rfl, hsub, TickPolicy.onLeafDemoted_wf hholds⟩
  | valued =>
    obtain ⟨q, hq, hwf⟩ := onLeafDemoted_wf hholds
    exact ⟨.valued q, by simp [onLeafDemoted, hq], hsub, hwf⟩

theorem onNodeRemoved_wf (idx : Nat) :
    ∃ q, p.onNodeRemoved idx = some q ∧ q.Wf (nodes \ {idx}) (leaf \ {idx}) := by
  have hsub : leaf \ {idx} ⊆ nodes \ {idx} := Set.sdiff_subset_sdiff_left hw.sub
  have hholds := hw.holds
  cases p with
  | fifo =>
    obtain ⟨q, hq, hwf⟩ := FifoPolicy.unlink_wf hholds
    exact ⟨.fifo q, by simp [onNodeRemoved, hq], hsub, hwf⟩
  | tick => exact ⟨_, rfl, hsub, TickPolicy.onNodeRemoved_wf hholds⟩
  | valued =>
    obtain ⟨q, hq, hwf⟩ := onNodeRemoved_wf hholds
    exact ⟨.valued q, by simp [onNodeRemoved, hq], hsub, hwf⟩

/-- **The next victim is a leaf, and there is one as long as there are leaves.** -/
theorem nextVictim_wf :
    p.nextVictim.2.Wf nodes leaf ∧ (∀ i, p.nextVictim.1 = some i → i ∈ leaf) ∧
      (p.nextVictim.1 = none → leaf = ∅) := by
  have hholds := hw.holds
  cases p with
  | fifo => exact ⟨hw, FifoPolicy.head_wf hholds⟩
  | tick => exact ⟨hw, TickPolicy.nextVictim_wf hholds hw.sub⟩
  | valued =>
    obtain ⟨hsame, hvictim⟩ := nextVictim_wf hholds hw.sub
    exact ⟨⟨hw.sub, hsame.wf hholds⟩, hvictim⟩

theorem markPoisoned_wf : (p.markPoisoned idx).Wf nodes leaf := by
  have hholds := hw.holds
  cases p with
  | fifo | tick => exact hw
  | valued => exact ⟨hw.sub, markPoisoned_wf hholds⟩

theorem maxFanoutOf_wf {h : SequenceHash} : (p.maxFanoutOf h).2.Wf nodes leaf := by
  have hholds := hw.holds
  cases p with
  | fifo | tick => exact hw
  | valued p => exact ⟨hw.sub, (maxFanoutOf_same h).wf hholds⟩

end LeafPolicy

end Kvbm
