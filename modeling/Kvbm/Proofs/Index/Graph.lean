/-
The graph of the lineage backend is well formed.

Insertion and removal are each a handful of writes, and between two writes the graph
is not quite in order: a new node has no parent yet, a parent made for it has no
child yet, a node just removed is a ghost without children.  `Graph` therefore names
the nodes that are excused: `bare` are the ghosts that may be childless and `loose`
the real nodes that may lack a parent.  Every write has one lemma that says how the
two sets change; outside an operation both are empty.

The children of each node and the free slots are lists (`kids`, `frees`) that are not
stored: they are what the sibling links and the free links mean.
-/
import Kvbm.Proofs.Index.Policy
import Kvbm.Lib.Chain

namespace Kvbm

namespace LineageBackend

open Lib Function List Option LineageSlot

/-- The link shared by the lists of children and the list of free slots. -/
def next (b : LineageBackend) (i : Nat) : Option Nat := (b.slots i).nextSibling

def keyAt (b : LineageBackend) (i : Nat) : Nat × Nat := ((b.slots i).position, (b.slots i).fragment)

/-- A slot of the arena that holds a node, real or ghost. -/
def Live (b : LineageBackend) (i : Nat) : Prop := i < b.size ∧ (b.slots i).data ≠ .free

/-- The graph is in order, up to the ghosts in `bare` and the real nodes in `loose`. -/
structure Graph (b : LineageBackend) (kids : Nat → List Nat) (frees : List Nat)
    (bare loose : Set Nat) : Prop where
  freeChain : Chain b.next b.freeHead frees
  freeNodup : frees.Nodup
  freeSlots : ∀ i, i ∈ frees ↔ i < b.size ∧ (b.slots i).data = .free
  indexed : ∀ k i, b.index k = some i ↔ b.Live i ∧ b.keyAt i = k
  kidChain : ∀ i, b.Live i → Chain b.next (b.slots i).firstChild (kids i)
  kidNodup : ∀ i, b.Live i → (kids i).Nodup
  kidIff : ∀ p c, b.Live p → (c ∈ kids p ↔ b.Live c ∧ (b.slots c).parent = some p)
  parentLive : ∀ c p, b.Live c → (b.slots c).parent = some p →
    b.Live p ∧ (b.slots c).position = (b.slots p).position + 1
  ghostKids : ∀ i, b.Live i → (b.slots i).data = .ghost → i ∉ bare → kids i ≠ []
  realKey : ∀ i id h, b.Live i → (b.slots i).data = .real id h → b.keyAt i = h.key
  realLinked : ∀ i id h, b.Live i → (b.slots i).data = .real id h → i ∉ loose →
    0 < h.position → (b.slots i).parent ≠ none

variable {b b' : LineageBackend} {kids : Nat → List Nat} {frees : List Nat}
  {bare loose : Set Nat} {i j idx p cur : Nat} {h : SequenceHash} {id : BlockId}

/-! ### Reading the slots after a write -/

@[simp] theorem modify_slots_self (f : LineageSlot → LineageSlot) :
    (b.modify i f).slots i = f (b.slots i) := by
  simp [modify]

theorem modify_slots_of_ne {f : LineageSlot → LineageSlot} (hj : j ≠ i) :
    (b.modify i f).slots j = b.slots j := by
  simp [modify, hj]

theorem modify_field {α : Type} (g : LineageSlot → α) {f : LineageSlot → LineageSlot}
    (hf : ∀ s, g (f s) = g s) (j : Nat) : g ((b.modify i f).slots j) = g (b.slots j) := by
  by_cases hj : j = i
  · rw [hj, modify_slots_self, hf]
  · rw [modify_slots_of_ne hj]

/-- Only links differ: the same nodes stand in the same slots, under the same keys. -/
structure Relinked (b b' : LineageBackend) : Prop where
  size : b'.size = b.size
  index : b'.index = b.index
  freeHead : b'.freeHead = b.freeHead
  leaves : b'.leaves = b.leaves
  count : b'.count = b.count
  data : ∀ i, (b'.slots i).data = (b.slots i).data
  keyAt : ∀ i, b'.keyAt i = b.keyAt i

theorem Relinked.refl (b : LineageBackend) : Relinked b b :=
  ⟨rfl, rfl, rfl, rfl, rfl, fun _ => rfl, fun _ => rfl⟩

theorem Relinked.modify {f : LineageSlot → LineageSlot} (hr : Relinked b b')
    (hd : ∀ s, (f s).data = s.data)
    (hk : ∀ s, ((f s).position, (f s).fragment) = (s.position, s.fragment)) :
    Relinked b (b'.modify i f) :=
  ⟨hr.size, hr.index, hr.freeHead, hr.leaves, hr.count,
    fun j => (modify_field LineageSlot.data hd j).trans (hr.data j),
    fun j => (modify_field (fun s => (s.position, s.fragment)) hk j).trans (hr.keyAt j)⟩

theorem Relinked.live (hr : Relinked b b') : b'.Live i ↔ b.Live i := by
  unfold Live
  rw [hr.size, hr.data]

theorem Relinked.position (hr : Relinked b b') (i : Nat) :
    (b'.slots i).position = (b.slots i).position := congrArg Prod.fst (hr.keyAt i)

/-! ### What the lists say -/

variable (hg : Graph b kids frees bare loose)

include hg

theorem Graph.key_unique (hi : b.Live i) (hj : b.Live j) (hk : b.keyAt i = b.keyAt j) : i = j := by
  have h1 := (hg.indexed (b.keyAt i) i).mpr ⟨hi, rfl⟩
  have h2 := (hg.indexed (b.keyAt i) j).mpr ⟨hj, hk.symm⟩
  exact some.inj (h1.symm.trans h2)

theorem Graph.not_free_of_live (hi : b.Live i) :
    i ∉ frees := fun hc => hi.2 ((hg.freeSlots i).mp hc).2

theorem Graph.kid_live (hp : b.Live p) (hi : i ∈ kids p) :
    b.Live i ∧ (b.slots i).parent = some p := (hg.kidIff p i hp).mp hi

/-- A node is a child of one node only. -/
theorem Graph.kid_unique (hp : b.Live p) (hj : b.Live j) (hi : i ∈ kids p) (hi' : i ∈ kids j) :
    p = j := by
  have h1 := (hg.kid_live hp hi).2
  have h2 := (hg.kid_live hj hi').2
  exact some.inj (h1.symm.trans h2)

theorem Graph.kid_position (hp : b.Live p) (hi : i ∈ kids p) :
    (b.slots i).position = (b.slots p).position + 1 := by
  obtain ⟨hl, hpar⟩ := hg.kid_live hp hi
  exact (hg.parentLive i p hl hpar).2

theorem Graph.leaf_iff (hi : b.Live i) : (b.slots i).isLeaf = true ↔ kids i = [] := by
  rw [(hg.kidChain i hi).nil_iff]
  exact isNone_iff_eq_none

theorem Graph.firstChild_iff (hi : b.Live i) :
    (b.slots i).firstChild.isSome = true ↔ kids i ≠ [] := by
  rw [ne_eq, (hg.kidChain i hi).nil_iff]
  exact isSome_iff_ne_none

variable {bare' loose' : Set Nat} {d : SlotData}

/-- Excusing more nodes keeps the graph in order. -/
theorem Graph.weaken
    (hb : ∀ i, b.Live i → (b.slots i).data = .ghost → i ∉ bare' → i ∈ bare → kids i ≠ [])
    (hl : ∀ i id h, b.Live i → (b.slots i).data = .real id h → i ∉ loose' → i ∈ loose →
      0 < h.position → (b.slots i).parent ≠ none) : Graph b kids frees bare' loose' :=
  { hg with
    ghostKids := fun i hi hd hn => by
      by_cases hc : i ∈ bare
      · exact hb i hi hd hn hc
      · exact hg.ghostKids i hi hd hc
    realLinked := fun i id h hi hd hn hpos => by
      by_cases hc : i ∈ loose
      · exact hl i id h hi hd hn hc hpos
      · exact hg.realLinked i id h hi hd hc hpos }

theorem Graph.weakenBare
    (hb : ∀ i, b.Live i → (b.slots i).data = .ghost → i ∉ bare' → i ∈ bare → kids i ≠ []) :
    Graph b kids frees bare' loose :=
  hg.weaken hb fun _ _ _ _ _ hn hm => absurd hm hn

/-! ### Changing what a node is -/

omit hg in
theorem modify_data (i : Nat) : ((b.modify idx fun s => { s with data := d }).slots i).data =
    if i = idx then d else (b.slots i).data := by
  by_cases hii : i = idx
  · simp [hii]
  · rw [modify_slots_of_ne hii, if_neg hii]

omit hg in
theorem live_modify (hi : b.Live idx) (hd : d ≠ .free) (i : Nat) :
    (b.modify idx fun s => { s with data := d }).Live i ↔ b.Live i := by
  unfold Live
  rw [modify_data]
  by_cases hii : i = idx
  · simp [hii, hd, hi.2, modify]
  · simp [hii, modify]

/-- A write to the payload of a live node keeps every link. -/
theorem Graph.setData (hi : b.Live idx) (hd : d ≠ .free) (hbare : bare ⊆ bare')
    (hloose : loose ⊆ loose') (hghost : d = .ghost → idx ∈ bare' ∨ kids idx ≠ [])
    (hkey : ∀ id h, d = .real id h → b.keyAt idx = h.key)
    (hlinked : ∀ id h, d = .real id h → 0 < h.position →
      idx ∈ loose' ∨ (b.slots idx).parent ≠ none) :
    Graph (b.modify idx fun s => { s with data := d }) kids frees bare' loose' := by
  generalize hc : b.modify idx (fun s => { s with data := d }) = c
  have hfield : ∀ {α : Type} (g : LineageSlot → α), (∀ s, g { s with data := d } = g s) →
      ∀ i, g (c.slots i) = g (b.slots i) := fun g hf i => hc ▸ modify_field g hf i
  have hnext : c.next = b.next := funext (hfield nextSibling fun _ => rfl)
  have hpos := hfield position fun _ => rfl
  have hkeyAt : c.keyAt = b.keyAt :=
    funext (hfield (fun s => (s.position, s.fragment)) fun _ => rfl)
  have hpar := hfield parent fun _ => rfl
  have hfirst := hfield firstChild fun _ => rfl
  have hdata : ∀ i, (c.slots i).data = if i = idx then d else (b.slots i).data := hc ▸ modify_data
  have hsize : c.size = b.size := by rw [← hc]; rfl
  have hlive : ∀ i, c.Live i ↔ b.Live i := hc ▸ live_modify hi hd
  refine ⟨?_, hg.freeNodup, ?_, ?_, ?_, ?_, ?_, ?_, ?_, ?_, ?_⟩
  · rw [hnext, ← hc]
    exact hg.freeChain
  · intro i
    rw [hg.freeSlots, hdata, hsize]
    by_cases hii : i = idx
    · simp [hii, hd, hi.2]
    · simp [hii]
  · intro k i
    rw [hlive, hkeyAt, ← hc]
    exact hg.indexed k i
  · intro i hli
    rw [hnext, hfirst]
    exact hg.kidChain i ((hlive i).mp hli)
  · exact fun i hli => hg.kidNodup i ((hlive i).mp hli)
  · intro p c hlp
    rw [hlive, hpar]
    exact hg.kidIff p c ((hlive p).mp hlp)
  · intro c p hlc hcp
    rw [hlive, hpos, hpos]
    exact hg.parentLive c p ((hlive c).mp hlc) (by rwa [hpar] at hcp)
  · intro i hli hgi hbi
    rw [hdata] at hgi
    by_cases hii : i = idx
    · subst hii
      rw [if_pos rfl] at hgi
      exact (hghost hgi).resolve_left hbi
    · rw [if_neg hii] at hgi
      exact hg.ghostKids i ((hlive i).mp hli) hgi fun hm => hbi (hbare hm)
  · intro i id h hli hri
    rw [hdata] at hri
    rw [hkeyAt]
    by_cases hii : i = idx
    · rw [if_pos hii] at hri
      rw [hii]
      exact hkey id h hri
    · rw [if_neg hii] at hri
      exact hg.realKey i id h ((hlive i).mp hli) hri
  · intro i id h hli hri hni hp
    rw [hdata] at hri
    rw [hpar]
    by_cases hii : i = idx
    · subst hii
      rw [if_pos rfl] at hri
      exact (hlinked id h hri hp).resolve_left hni
    · rw [if_neg hii] at hri
      exact hg.realLinked i id h ((hlive i).mp hli) hri (fun hm => hni (hloose hm)) hp

/-! ### A new node -/

/-- What a slot handed out by the arena looks like: it held no node, and the free list goes on
without it. -/
theorem Graph.allocSlot {slot : LineageSlot} (ha : b.allocSlot slot = (idx, b')) :
    ¬ b.Live idx ∧ b'.slots = update b.slots idx slot ∧ b'.index = b.index ∧
      b'.leaves = b.leaves ∧ b'.count = b.count ∧ (∀ i, i < b'.size ↔ i < b.size ∨ i = idx) ∧
      Chain b'.next b'.freeHead frees.tail ∧ ∀ i, i ∈ frees.tail ↔ i ∈ frees ∧ i ≠ idx := by
  unfold LineageBackend.allocSlot at ha
  have hchain := hg.freeChain
  cases hf : b.freeHead with
  | some f =>
    rw [hf] at ha hchain
    simp only [Prod.mk.injEq] at ha
    obtain ⟨rfl, rfl⟩ := ha
    obtain ⟨rest, rfl⟩ : ∃ rest, frees = f :: rest := by
      cases frees with
      | nil => cases hchain
      | cons g rest => exact ⟨rest, by rw [some.inj hchain.1]⟩
    have hmem := (hg.freeSlots f).mp (by simp)
    have hnd := nodup_cons.mp hg.freeNodup
    refine ⟨fun hc => hc.2 hmem.2, rfl, rfl, rfl, rfl, ?_, ?_, ?_⟩
    · intro i
      exact ⟨Or.inl, fun hc => hc.elim (fun hi => hi) fun he => by rw [he]; exact hmem.1⟩
    · refine hchain.2.congr fun i hi => ?_
      have hif : i ≠ f := fun hc => hnd.1 (hc ▸ hi)
      simp [next, hif]
    · intro i
      simp only [tail_cons, mem_cons]
      constructor
      · intro hi
        exact ⟨Or.inr hi, fun hc => hnd.1 (hc ▸ hi)⟩
      · rintro ⟨rfl | hi, hne⟩
        · exact absurd rfl hne
        · exact hi
  | none =>
    rw [hf] at ha hchain
    have hnil : frees = [] := by
      cases frees with
      | nil => rfl
      | cons => cases hchain.1
    simp only [Prod.mk.injEq] at ha
    obtain ⟨rfl, rfl⟩ := ha
    subst hnil
    refine ⟨fun hc => Nat.lt_irrefl _ hc.1, rfl, rfl, rfl, rfl, ?_, rfl, by simp⟩
    intro i
    show i < b.size + 1 ↔ i < b.size ∨ i = b.size
    omega

omit hg in
theorem live_of_update {slot : LineageSlot} (hslots : b'.slots = update b.slots idx slot)
    (hsize : ∀ i, i < b'.size ↔ i < b.size ∨ i = idx) (hd : slot.data ≠ .free) :
    b'.Live i ↔ i = idx ∨ b.Live i := by
  unfold Live
  rw [hsize, hslots]
  by_cases hi : i = idx
  · simp [hi, hd]
  · simp [hi]

/-- **Adding a node**: without parent and without children, under a key that was not taken. -/
theorem Graph.addNode {pos frag : Nat}
    (ha : b.allocSlot ⟨d, pos, frag, none, none, none⟩ = (idx, b'))
    (hk : b.index (pos, frag) = none) (hd : d ≠ .free)
    (hreal : ∀ id h, d = .real id h → (pos, frag) = h.key) :
    Graph { b' with index := update b'.index (pos, frag) (some idx) }
      (update kids idx []) frees.tail (insert idx bare) (insert idx loose) := by
  obtain ⟨hnew, hslots, hindex, -, -, hsize, hchain, hfrees⟩ := hg.allocSlot ha
  generalize hc : { b' with index := update b'.index (pos, frag) (some idx) } = c
  have hlive : ∀ i, c.Live i ↔ i = idx ∨ b.Live i := by
    rw [← hc]
    exact fun i => live_of_update hslots hsize hd
  have hself : c.slots idx = ⟨d, pos, frag, none, none, none⟩ := by rw [← hc]; simp [hslots]
  have hold : ∀ i, b.Live i → i ≠ idx ∧ c.slots i = b.slots i := by
    intro i hi
    have hne : i ≠ idx := fun he => hnew (he ▸ hi)
    rw [← hc]
    exact ⟨hne, by simp [hslots, hne]⟩
  refine ⟨by rw [← hc]; exact hchain, hg.freeNodup.tail, ?_, ?_, ?_, ?_, ?_, ?_, ?_, ?_, ?_⟩
  · intro i
    rw [hfrees, hg.freeSlots, ← hc]
    by_cases hi : i = idx
    · simp [hi, hslots, hd]
    · simp [hi, hslots, hsize]
  · intro k i
    have hix : c.index k = update b.index (pos, frag) (some idx) k := by rw [← hc, hindex]
    rw [hlive, hix]
    by_cases hkk : k = (pos, frag)
    · subst hkk
      rw [update_self]
      constructor
      · intro hi
        cases hi
        exact ⟨Or.inl rfl, by rw [keyAt, hself]⟩
      · rintro ⟨rfl | hli, hkey⟩
        · rfl
        · rw [keyAt, (hold i hli).2] at hkey
          rw [(hg.indexed (pos, frag) i).mpr ⟨hli, hkey⟩] at hk
          cases hk
    · rw [update_of_ne hkk, hg.indexed]
      constructor
      · rintro ⟨hli, hkey⟩
        refine ⟨Or.inr hli, ?_⟩
        rw [keyAt, (hold i hli).2]
        exact hkey
      · rintro ⟨rfl | hli, hkey⟩
        · rw [keyAt, hself] at hkey
          exact absurd hkey.symm hkk
        · rw [keyAt, (hold i hli).2] at hkey
          exact ⟨hli, hkey⟩
  · intro i hi
    rcases (hlive i).mp hi with rfl | hli
    · rw [hself, update_self]
      rfl
    obtain ⟨hne, hslot⟩ := hold i hli
    rw [hslot, update_of_ne hne]
    refine (hg.kidChain i hli).congr fun j hj => ?_
    unfold next
    rw [(hold j (hg.kid_live hli hj).1).2]
  · intro i hi
    rcases (hlive i).mp hi with rfl | hli
    · simp
    · rw [update_of_ne (hold i hli).1]
      exact hg.kidNodup i hli
  · intro p c' hp
    rw [hlive]
    rcases (hlive p).mp hp with rfl | hlp
    · rw [update_self]
      simp only [not_mem_nil, false_iff, not_and]
      rintro (rfl | hlc) hcp
      · rw [hself] at hcp
        cases hcp
      · rw [(hold c' hlc).2] at hcp
        exact hnew (hg.parentLive c' p hlc hcp).1
    · rw [update_of_ne (hold p hlp).1, hg.kidIff p c' hlp]
      constructor
      · rintro ⟨hlc, hcp⟩
        exact ⟨Or.inr hlc, by rw [(hold c' hlc).2]; exact hcp⟩
      · rintro ⟨rfl | hlc, hcp⟩
        · rw [hself] at hcp
          cases hcp
        · rw [(hold c' hlc).2] at hcp
          exact ⟨hlc, hcp⟩
  · intro c' p hlc hcp
    rcases (hlive c').mp hlc with rfl | hlc
    · rw [hself] at hcp
      cases hcp
    rw [(hold c' hlc).2] at hcp
    obtain ⟨hlp, hpos⟩ := hg.parentLive c' p hlc hcp
    rw [hlive, (hold c' hlc).2, (hold p hlp).2]
    exact ⟨Or.inr hlp, hpos⟩
  · intro i hi hgi hni
    rcases (hlive i).mp hi with rfl | hli
    · exact absurd (Set.mem_insert _ _) hni
    obtain ⟨hne, hslot⟩ := hold i hli
    rw [update_of_ne hne]
    rw [hslot] at hgi
    exact hg.ghostKids i hli hgi fun hc => hni (Set.mem_insert_of_mem _ hc)
  · intro i id h hi hri
    unfold keyAt
    rcases (hlive i).mp hi with rfl | hli
    · rw [hself] at hri ⊢
      exact hreal id h hri
    · rw [(hold i hli).2] at hri ⊢
      exact hg.realKey i id h hli hri
  · intro i id h hi hri hni hpos
    rcases (hlive i).mp hi with rfl | hli
    · exact absurd (Set.mem_insert _ _) hni
    · rw [(hold i hli).2] at hri ⊢
      exact hg.realLinked i id h hli hri (fun hc => hni (Set.mem_insert_of_mem _ hc)) hpos

/-! ### Hanging a node below its parent -/

omit hg in
theorem linkChild_slots (hne : p ≠ idx) (i : Nat) :
    (b.linkChild p idx).slots i =
      if i = p then { b.slots p with firstChild := some idx }
      else if i = idx then
        { b.slots idx with parent := some p, nextSibling := (b.slots p).firstChild }
      else b.slots i := by
  unfold linkChild
  by_cases hip : i = p
  · subst hip
    rw [modify_slots_self, modify_slots_of_ne hne, if_pos rfl]
  rw [modify_slots_of_ne hip, if_neg hip]
  by_cases hii : i = idx
  · subst hii
    rw [modify_slots_self, if_pos rfl]
  · rw [modify_slots_of_ne hii, if_neg hii]

omit hg in
theorem linkChild_relinked (b : LineageBackend) (p idx : Nat) : Relinked b (b.linkChild p idx) := by
  unfold linkChild
  refine ((Relinked.refl b).modify ?_ ?_).modify ?_ ?_ <;> intro <;> rfl

/-- **Linking**: a node without a parent becomes the first child of one a position above it. -/
theorem Graph.linkChild (hi : b.Live idx) (hp : b.Live p) (hpar : (b.slots idx).parent = none)
    (hpos : (b.slots idx).position = (b.slots p).position + 1) :
    Graph (b.linkChild p idx) (update kids p (idx :: kids p)) frees
      (bare \ {p}) (loose \ {idx}) := by
  have hne : p ≠ idx := by
    rintro rfl
    omega
  have hslots := linkChild_slots (b := b) hne
  have hr := linkChild_relinked b p idx
  have hparent : ∀ i, ((b.linkChild p idx).slots i).parent =
      if i = idx then some p else (b.slots i).parent := by
    intro i
    rw [hslots]
    by_cases hip : i = p
    · have hpi : ¬ i = idx := fun hc => hne (hip.symm.trans hc)
      rw [if_pos hip, if_neg hpi, hip]
    · rw [if_neg hip]
      split <;> rfl
  have hfirst : ∀ i, i ≠ p → ((b.linkChild p idx).slots i).firstChild = (b.slots i).firstChild := by
    intro i hip
    rw [hslots, if_neg hip]
    split
    · rename_i hii; rw [hii]
    · rfl
  have hnext : ∀ i, i ≠ idx → (b.linkChild p idx).next i = b.next i := by
    intro i hii
    unfold next
    rw [hslots]
    split
    · rename_i hip; rw [hip]
    · rfl
  have hnextSelf : (b.linkChild p idx).next idx = (b.slots p).firstChild := by
    unfold next
    rw [hslots, if_neg hne.symm, if_pos rfl]
  -- a node without a parent is in no list of children
  have hout : ∀ q, b.Live q → idx ∉ kids q := by
    intro q hq hc
    rw [(hg.kid_live hq hc).2] at hpar
    cases hpar
  have hkids : ∀ q, b.Live q → Chain (b.linkChild p idx).next (b.slots q).firstChild (kids q) :=
    fun q hq => (hg.kidChain q hq).congr fun i hik => hnext i fun hc => hout q hq (hc ▸ hik)
  refine ⟨?_, hg.freeNodup, ?_, ?_, ?_, ?_, ?_, ?_, ?_, ?_, ?_⟩
  · exact hg.freeChain.congr fun i hif => hnext i fun hc => hg.not_free_of_live hi (hc ▸ hif)
  · intro i
    rw [hr.size, hr.data]
    exact hg.freeSlots i
  · intro k i
    rw [hr.live, hr.keyAt, hr.index]
    exact hg.indexed k i
  · intro i hli
    by_cases hip : i = p
    · subst hip
      rw [update_self, hslots, if_pos rfl]
      refine ⟨rfl, ?_⟩
      rw [hnextSelf]
      exact hkids i hp
    · rw [update_of_ne hip, hfirst i hip]
      exact hkids i (hr.live.mp hli)
  · intro i hli
    by_cases hip : i = p
    · subst hip
      rw [update_self]
      exact nodup_cons.mpr ⟨hout i hp, hg.kidNodup i hp⟩
    · rw [update_of_ne hip]
      exact hg.kidNodup i (hr.live.mp hli)
  · intro q c hlq
    have hlq' := hr.live.mp hlq
    rw [hr.live, hparent]
    by_cases hc : c = idx
    · subst hc
      rw [if_pos rfl]
      by_cases hqp : q = p
      · simp [hqp, hi]
      · rw [update_of_ne hqp]
        simp [hout q hlq', Ne.symm hqp]
    · rw [if_neg hc]
      by_cases hqp : q = p
      · subst hqp
        simp [hc, hg.kidIff q c hlq']
      · rw [update_of_ne hqp]
        exact hg.kidIff q c hlq'
  · intro c q hlc hcq
    rw [hparent] at hcq
    rw [hr.live, hr.position, hr.position]
    by_cases hc : c = idx
    · subst hc
      rw [if_pos rfl] at hcq
      cases hcq
      exact ⟨hp, hpos⟩
    · rw [if_neg hc] at hcq
      exact hg.parentLive c q (hr.live.mp hlc) hcq
  · intro i hli hgi hni
    rw [hr.data] at hgi
    by_cases hip : i = p
    · rw [hip, update_self]
      simp
    · rw [update_of_ne hip]
      exact hg.ghostKids i (hr.live.mp hli) hgi fun hc => hni ⟨hc, hip⟩
  · intro i id h hli hri
    rw [hr.data] at hri
    rw [hr.keyAt]
    exact hg.realKey i id h (hr.live.mp hli) hri
  · intro i id h hli hri hni hpos'
    rw [hr.data] at hri
    rw [hparent]
    by_cases hii : i = idx
    · simp [hii]
    · rw [if_neg hii]
      exact hg.realLinked i id h (hr.live.mp hli) hri (fun hc => hni ⟨hc, hii⟩) hpos'

/-! ### Taking a childless node out -/

omit hg in
/-- What stands behind another cell is not the first one. -/
theorem head_ne {child q : Nat} {l1 l2 : List Nat} (hnd : (l1 ++ q :: child :: l2).Nodup) :
    (l1 ++ q :: child :: l2).head? ≠ some child := by
  intro hh
  cases l1 with
  | nil =>
    simp only [nil_append, head?_cons, some.injEq] at hh
    simp [hh] at hnd
  | cons =>
    simp only [cons_append, head?_cons, some.injEq] at hh
    simp [hh] at hnd

omit hg in
/-- The search for the cell before `child` finds it within the length of the list. -/
theorem findPred_eq {nxt : Nat → Option Nat} {child q : Nat} {l1 l2 : List Nat} :
    ∀ (fuel : Nat) (a : Option Nat), Chain nxt a (l1 ++ q :: child :: l2) →
      (l1 ++ q :: child :: l2).Nodup → l1.length < fuel →
      findPred nxt child fuel a = some (some q) := by
  induction l1 with
  | nil =>
    intro fuel a hc hnd hf
    obtain ⟨fuel, rfl⟩ : ∃ k, fuel = k + 1 := ⟨fuel - 1, by simp at hf; omega⟩
    obtain ⟨rfl, hq, -⟩ := hc
    simp [findPred, hq]
  | cons x l1 ih =>
    intro fuel a hc hnd hf
    obtain ⟨fuel, rfl⟩ : ∃ k, fuel = k + 1 := ⟨fuel - 1, by simp at hf; omega⟩
    obtain ⟨rfl, hx⟩ := hc
    have hx : Chain nxt (nxt x) (l1 ++ q :: child :: l2) := hx
    have hnd' : (l1 ++ q :: child :: l2).Nodup := (nodup_cons.mp hnd).2
    have hne : nxt x ≠ some child := hx.head_eq ▸ head_ne hnd'
    unfold findPred
    rw [if_neg hne]
    exact ih fuel (nxt x) hx hnd' (by simpa using hf)

omit hg in
theorem length_le_size {l : List Nat} {n : Nat} (hnd : l.Nodup) (hlt : ∀ i ∈ l, i < n) :
    l.length ≤ n := by
  have hsub : l ⊆ range n := fun i hi => mem_range.mpr (hlt i hi)
  simpa using (hnd.subperm hsub).length_le

/-- What detaching a child writes: the first child of its parent, or the link of one sibling. -/
theorem Graph.detachChild (hp : b.Live p) (hc : cur ∈ kids p) :
    ∃ b', b.detachChild p cur = some b' ∧ Relinked b b' ∧
      (∀ i, (b'.slots i).parent = (b.slots i).parent) ∧
      (∀ i, i ≠ p → (b'.slots i).firstChild = (b.slots i).firstChild) ∧
      (∀ i, i ∉ kids p → b'.next i = b.next i) ∧
      Chain b'.next (b'.slots p).firstChild ((kids p).erase cur) := by
  obtain ⟨l1, l2, hl⟩ := append_of_mem hc
  have hchain := hg.kidChain p hp
  have hnd := hg.kidNodup p hp
  have hpk : p ∉ kids p := by
    intro hc'
    have := hg.kid_position hp hc'
    omega
  have herase : (kids p).erase cur = l1 ++ l2 := by
    have hl1 : cur ∉ l1 := by
      rw [hl, nodup_middle, nodup_cons] at hnd
      exact fun hc' => hnd.1 (mem_append_left _ hc')
    rw [hl, erase_append_right _ hl1, erase_cons_head]
  rw [herase]
  rw [hl] at hchain hnd
  unfold LineageBackend.detachChild
  rcases eq_nil_or_concat l1 with rfl | ⟨l0, q, rfl⟩
  · -- the child is the first one
    have hhead : (b.slots p).firstChild = some cur := hchain.1
    refine ⟨b.modify p fun s => { s with firstChild := (b.slots cur).nextSibling },
      by simp [hhead], (Relinked.refl b).modify (fun _ => rfl) fun _ => rfl,
      modify_field parent fun _ => rfl, ?_, ?_, ?_⟩
    · intro i hi
      rw [modify_slots_of_ne hi]
    · intro i _
      exact modify_field nextSibling (by intro; rfl) i
    · rw [modify_slots_self]
      exact hchain.2.congr fun i _ => modify_field nextSibling (by intro; rfl) i
  · -- the child stands behind its sibling `q`
    have hassoc : l0 ++ [q] ++ cur :: l2 = l0 ++ q :: cur :: l2 := by simp
    rw [concat_eq_append] at hl hchain hnd
    rw [hassoc] at hl hchain hnd
    have hqk : q ∈ kids p := by rw [hl]; simp
    have hqp : q ≠ p := fun hc' => hpk (hc' ▸ hqk)
    have hhead : (b.slots p).firstChild ≠ some cur := hchain.head_eq ▸ head_ne hnd
    have hlen : l0.length < b.size := by
      have hall : ∀ i ∈ l0 ++ q :: cur :: l2, i < b.size := by
        intro i hi
        rw [← hl] at hi
        exact (hg.kid_live hp hi).1.1
      have := length_le_size hnd hall
      simp at this
      omega
    have hpred := findPred_eq b.size _ hchain hnd hlen
    refine ⟨b.modify q fun s => { s with nextSibling := (b.slots cur).nextSibling }, ?_,
      (Relinked.refl b).modify (fun _ => rfl) fun _ => rfl, modify_field parent fun _ => rfl,
      ?_, ?_, ?_⟩
    · rw [if_neg hhead]
      unfold next at hpred
      rw [hpred]
      rfl
    · intro i _
      exact modify_field firstChild (by intro; rfl) i
    · intro i hi
      have hiq : i ≠ q := fun hc' => hi (hc' ▸ hqk)
      unfold next
      rw [modify_slots_of_ne hiq]
    · rw [modify_slots_of_ne hqp.symm, concat_eq_append, append_assoc]
      refine hchain.unlink hnd ?_ ?_
      · show ((b.modify q _).slots q).nextSibling = _
        rw [modify_slots_self]
        rfl
      · intro i hi
        unfold next
        rw [modify_slots_of_ne hi]

/-- The lists of children once `cur` is detached from its parent, if it has one. -/
theorem Graph.detached (hcur : b.Live cur) :
    ∃ b', b.detachFromParent cur = some b' ∧ Relinked b b' ∧
      (∀ i, (b'.slots i).parent = (b.slots i).parent) ∧
      Chain b'.next b'.freeHead frees ∧
      ∀ i, b.Live i → Chain b'.next (b'.slots i).firstChild ((kids i).erase cur) := by
  unfold detachFromParent
  cases hpar : (b.slots cur).parent with
  | none =>
    refine ⟨b, rfl, Relinked.refl b, fun i => rfl, hg.freeChain, ?_⟩
    intro i hi
    rw [erase_of_not_mem fun hc => by
      rw [(hg.kid_live hi hc).2] at hpar
      cases hpar]
    exact hg.kidChain i hi
  | some p =>
    obtain ⟨hp, -⟩ := hg.parentLive cur p hcur hpar
    have hcp : cur ∈ kids p := (hg.kidIff p cur hp).mpr ⟨hcur, hpar⟩
    obtain ⟨b', hb', hr, hparent, hfirst, hnext, hchain⟩ := hg.detachChild hp hcp
    refine ⟨b', hb', hr, hparent, ?_, ?_⟩
    · rw [hr.freeHead]
      exact hg.freeChain.congr fun i hi => hnext i fun hc =>
        hg.not_free_of_live (hg.kid_live hp hc).1 hi
    · intro i hi
      by_cases hip : i = p
      · rw [hip]
        exact hchain
      -- another node's children are not those of `p`
      have hdis : ∀ j ∈ kids i, j ∉ kids p := fun j hj hjp =>
        hip (hg.kid_unique hi hp hj hjp)
      rw [erase_of_not_mem fun hc => hdis cur hc hcp, hfirst i hip]
      exact (hg.kidChain i hi).congr fun j hj => hnext j (hdis j hj)

/-- **Unhooking** a childless node: it is gone, its slot heads the free list, and its parent may
be left without children. -/
theorem Graph.unhook (hcur : b.Live cur) (hk : kids cur = []) :
    ∃ b', b.unhook cur = some b' ∧ b'.size = b.size ∧ b'.leaves = b.leaves ∧
      b'.count = b.count ∧ (∀ i, b'.Live i ↔ b.Live i ∧ i ≠ cur) ∧
      (∀ i, i ≠ cur → (b'.slots i).data = (b.slots i).data ∧
        (b'.slots i).parent = (b.slots i).parent ∧ b'.keyAt i = b.keyAt i) ∧
      Graph b' (fun i => (kids i).erase cur) (cur :: frees)
        { i | i ∈ bare ∨ (b.slots cur).parent = some i } loose := by
  obtain ⟨c, hc, hr, hparent, hfchain, hkchain⟩ := hg.detached hcur
  have hb' : b.unhook cur = some (freeSlot { c with
      index := update c.index (b.keyAt cur) none } cur) := by
    unfold LineageBackend.unhook
    rw [hc]
    rfl
  generalize hdef : freeSlot { c with
    index := update c.index (b.keyAt cur) none } cur = b' at hb'
  have hself : b'.slots cur = { c.slots cur with data := .free, nextSibling := c.freeHead } := by
    rw [← hdef]
    simp [freeSlot]
  have hold : ∀ i, i ≠ cur → b'.slots i = c.slots i := by
    intro i hi
    rw [← hdef]
    simp [freeSlot, modify_slots_of_ne hi]
  have hsz : b'.size = b.size := by rw [← hdef, ← hr.size]; rfl
  have hix : b'.index = update b.index (b.keyAt cur) none := by
    rw [← hdef, ← hr.index]; rfl
  have hhead : b'.freeHead = some cur := by rw [← hdef]; rfl
  have hdata : ∀ i, i ≠ cur → (b'.slots i).data = (b.slots i).data ∧
      (b'.slots i).parent = (b.slots i).parent ∧ b'.keyAt i = b.keyAt i := by
    intro i hi
    unfold keyAt
    rw [hold i hi]
    exact ⟨hr.data i, hparent i, hr.keyAt i⟩
  have hlive : ∀ i, b'.Live i ↔ b.Live i ∧ i ≠ cur := by
    intro i
    by_cases hi : i = cur
    · subst hi
      simp [Live, hself]
    unfold Live
    rw [hsz, (hdata i hi).1]
    simp [hi]
  have hnext : ∀ i, i ≠ cur → b'.next i = c.next i := by
    intro i hi
    unfold next
    rw [hold i hi]
  have hcf : cur ∉ frees := hg.not_free_of_live hcur
  refine ⟨b', hb', hsz, by rw [← hdef, ← hr.leaves]; rfl,
    by rw [← hdef, ← hr.count]; rfl, hlive, hdata, ?_, ?_, ?_, ?_, ?_, ?_, ?_, ?_, ?_, ?_, ?_⟩
  · rw [hhead]
    refine ⟨rfl, ?_⟩
    show Chain b'.next ((b'.slots cur).nextSibling) frees
    rw [hself]
    exact hfchain.congr fun i hi => hnext i fun hc' => hcf (hc' ▸ hi)
  · exact nodup_cons.mpr ⟨hcf, hg.freeNodup⟩
  · intro i
    rw [mem_cons, hg.freeSlots, hsz]
    by_cases hi : i = cur
    · subst hi
      simp [hself, hcur.1]
    · rw [(hdata i hi).1]
      simp [hi]
  · intro k i
    rw [hlive, hix]
    by_cases hkc : k = b.keyAt cur
    · subst hkc
      rw [update_self]
      simp only [reduceCtorEq, false_iff, not_and]
      rintro ⟨hli, hi⟩ hki
      rw [(hdata i hi).2.2] at hki
      exact hi (hg.key_unique hli hcur hki)
    · rw [update_of_ne hkc, hg.indexed]
      constructor
      · rintro ⟨hli, hki⟩
        have hi : i ≠ cur := by
          rintro rfl
          exact hkc hki.symm
        exact ⟨⟨hli, hi⟩, by rw [(hdata i hi).2.2]; exact hki⟩
      · rintro ⟨⟨hli, hi⟩, hki⟩
        rw [(hdata i hi).2.2] at hki
        exact ⟨hli, hki⟩
  · intro i hli
    obtain ⟨hli, hi⟩ := (hlive i).mp hli
    rw [hold i hi]
    refine (hkchain i hli).congr fun j hj => hnext j ?_
    rintro rfl
    exact ((hg.kidNodup i hli).mem_erase_iff.mp hj).1 rfl
  · intro i hli
    exact (hg.kidNodup i ((hlive i).mp hli).1).erase cur
  · intro p j hlp
    obtain ⟨hlp, hp⟩ := (hlive p).mp hlp
    rw [(hg.kidNodup p hlp).mem_erase_iff, hg.kidIff p j hlp, hlive]
    by_cases hj : j = cur
    · simp [hj]
    · rw [(hdata j hj).2.1]
      simp [hj]
  · intro j p hlj hjp
    obtain ⟨hlj, hj⟩ := (hlive j).mp hlj
    rw [(hdata j hj).2.1] at hjp
    obtain ⟨hlp, hpos⟩ := hg.parentLive j p hlj hjp
    have hp : p ≠ cur := by
      rintro rfl
      have := (hg.kidIff p j hcur).mpr ⟨hlj, hjp⟩
      rw [hk] at this
      cases this
    have h1 : (b'.slots j).position = (b.slots j).position := congrArg Prod.fst (hdata j hj).2.2
    have h2 : (b'.slots p).position = (b.slots p).position := congrArg Prod.fst (hdata p hp).2.2
    rw [h1, h2]
    exact ⟨(hlive p).mpr ⟨hlp, hp⟩, hpos⟩
  · intro i hli hgi hni
    obtain ⟨hli, hi⟩ := (hlive i).mp hli
    simp only [Set.mem_ofPred_eq, not_or] at hni
    rw [(hdata i hi).1] at hgi
    have hic : cur ∉ kids i := fun hc' => hni.2 (hg.kid_live hli hc').2
    show (kids i).erase cur ≠ []
    rw [erase_of_not_mem hic]
    exact hg.ghostKids i hli hgi hni.1
  · intro i id h hli hri
    obtain ⟨hli, hi⟩ := (hlive i).mp hli
    rw [(hdata i hi).1] at hri
    rw [(hdata i hi).2.2]
    exact hg.realKey i id h hli hri
  · intro i id h hli hri hni hpos
    obtain ⟨hli, hi⟩ := (hlive i).mp hli
    rw [(hdata i hi).1] at hri
    rw [(hdata i hi).2.1]
    exact hg.realLinked i id h hli hri hni hpos

end LineageBackend

end Kvbm
