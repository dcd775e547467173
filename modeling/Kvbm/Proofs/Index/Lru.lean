/-
The two backends on LRU caches are lawful indices.

One cache is a lawful index by what its documentation says.  Four caches are one if no
hash is in two of them, which is the invariant of `MultiLruBackend`: a lookup walks
the pools and changes only the one that has the hash.
-/
import Kvbm.Index.Lru
import Kvbm.Proofs.Index.Lawful
import Mathlib.Algebra.BigOperators.Fin

namespace Kvbm

variable {C : Type} [LruCache C]

/-! ### What is in a cache -/

namespace LruCache

variable {c : C} {h : SequenceHash} {id src dst : BlockId} {e : Entry} {n : Nat}

/-- The pairs of a cache, in no order. -/
def content (c : C) : Finset Entry := (entries c).toFinset

@[simp] theorem mem_content : e ∈ content c ↔ e ∈ entries c := List.mem_toFinset

theorem entries_nodup (c : C) : (entries c).Nodup := (keysNodup c).of_map _

theorem card_content : (content c).card = len c := by
  rw [len_eq]
  exact List.toFinset_card_of_nodup (entries_nodup c)

theorem peek_iff : peek c h = some id ↔ (h, id) ∈ content c := by
  rw [peek_eq, mem_content]

theorem content_unique {a b : BlockId} (ha : (h, a) ∈ content c) (hb : (h, b) ∈ content c) :
    a = b := by
  rw [← peek_iff] at ha hb
  exact Option.some.inj (ha.symm.trans hb)

theorem peek_eq_none : peek c h = none ↔ ∀ b, (h, b) ∉ content c := by
  rw [Option.eq_none_iff_forall_ne_some]
  simp only [ne_eq, peek_iff]

theorem content_put (id : BlockId) (hnew : ∀ b, (h, b) ∉ content c)
    (hroom : (content c).card < cap c) :
    content (put c h id) = insert (h, id) (content c) := by
  rw [card_content, len_eq] at hroom
  have := entries_put c h id (fun b hb => hnew b (mem_content.mpr hb)) hroom
  ext e
  simp [this, or_comm]

theorem content_pop (hp : peek c h = some id) :
    content (pop c h).2 = (content c).erase (h, id) := by
  have hmem := peek_iff.mp hp
  ext ⟨g, a⟩
  rw [Finset.mem_erase, mem_content, mem_content, entries_pop, List.mem_filter]
  have hiff : (h, a) ∈ entries c → a = id := fun ha => content_unique (mem_content.mpr ha) hmem
  by_cases hg : g = h
  · subst hg
    simp only [ne_eq, not_true, decide_false, Bool.false_eq_true, and_false, Prod.mk.injEq,
      true_and, false_iff, not_and]
    exact fun hne ha => hne (hiff ha)
  · simp [hg]

theorem content_pop_none (hp : peek c h = none) : content (pop c h).2 = content c := by
  ext ⟨g, a⟩
  rw [mem_content, mem_content, entries_pop, List.mem_filter]
  refine and_iff_left_of_imp fun ha => ?_
  have hg : g ≠ h := by
    rintro rfl
    exact peek_eq_none.mp hp a (mem_content.mpr ha)
  simpa using hg

theorem content_popLru (hp : (popLru c).1 = some e) :
    e ∈ content c ∧ content (popLru c).2 = (content c).erase e := by
  rw [popLru_fst] at hp
  have hnd := entries_nodup c
  have htail := entries_popLru c
  cases hl : entries c with
  | nil => simp [hl] at hp
  | cons x =>
    rw [hl] at hp hnd htail
    obtain rfl : x = e := Option.some.inj hp
    have hx := (List.nodup_cons.mp hnd).1
    refine ⟨mem_content.mpr (by simp [hl]), ?_⟩
    ext y
    rw [Finset.mem_erase, mem_content, mem_content, htail, hl, List.tail_cons, List.mem_cons]
    refine ⟨fun hy => ⟨fun he => hx (he ▸ hy), Or.inr hy⟩, fun hy => hy.2.resolve_left hy.1⟩

theorem content_popLru_none (hp : (popLru c).1 = none) :
    content c = ∅ ∧ content (popLru c).2 = ∅ := by
  rw [popLru_fst, List.head?_eq_none_iff] at hp
  have htail := entries_popLru c
  unfold content
  rw [htail, hp]
  exact ⟨rfl, rfl⟩

theorem content_setAt (dst : BlockId) (hp : peek c h = some src) :
    content (setAt c h dst) = insert (h, dst) ((content c).erase (h, src)) := by
  have hmem := peek_iff.mp hp
  ext ⟨g, a⟩
  rw [Finset.mem_insert, Finset.mem_erase, mem_content, mem_content, entries_setAt, List.mem_map]
  refine ⟨?_, ?_⟩
  · rintro ⟨x, hx, he⟩
    by_cases hxh : x.1 = h
    · rw [if_pos hxh] at he
      exact Or.inl he.symm
    rw [if_neg hxh] at he
    subst he
    exact Or.inr ⟨fun hc => hxh (Prod.mk.inj hc).1, hx⟩
  · rintro (he | ⟨hne, hm⟩)
    · exact ⟨(h, src), mem_content.mp hmem, by rw [if_pos rfl, he]⟩
    · refine ⟨(g, a), hm, if_neg fun hgh => hne ?_⟩
      have hgh : g = h := hgh
      subst hgh
      rw [content_unique (mem_content.mpr hm) hmem]

theorem content_resize (hn : (content c).card ≤ n) : content (resize c n) = content c := by
  rw [card_content, len_eq] at hn
  unfold content
  rw [entries_resize c n hn]

end LruCache

open LruCache Finset LruBackend IndexView Function MultiLruBackend

/-! ### One cache -/

namespace LruBackend

variable {s : LruBackend C} {h : SequenceHash} {id : BlockId}

/-- A cache is always in order. -/
def view : IndexView (LruBackend C) where
  Wf := fun _ => True
  entries := fun s => content s.cache
  Fits := fun s n => n ≤ cap s.cache
  Admits := fun _ _ _ => True

theorem pop_taken (hp : peek s.cache h = some id) : view.Taken s [(h, id)] ⟨(pop s.cache h).2⟩ := by
  refine IndexView.Taken.single trivial (peek_iff.mp hp) (content_pop hp) (fun n hn => ?_) rfl
  show n ≤ cap (pop s.cache h).2
  rw [cap_pop]
  exact hn

theorem take_taken (he : (h, id) ∈ content s.cache) :
    ∃ s', s.take h id = some (true, s') ∧ view.Taken s [(h, id)] s' := by
  rw [← peek_iff] at he
  refine ⟨⟨(pop s.cache h).2⟩, ?_, pop_taken he⟩
  unfold take
  rw [if_pos he]

theorem take_absent (he : (h, id) ∉ content s.cache) : s.take h id = some (false, s) := by
  unfold take
  rw [if_neg (mt peek_iff.mp he)]

theorem findMatch_pops : (view (C := C)).Pops findMatch := by
  intro s h _
  cases hp : peek s.cache h with
  | some id =>
    refine ⟨some (h, id), ⟨(pop s.cache h).2⟩, by simp [findMatch, pop_fst, hp], pop_taken hp, ?_,
      by simp⟩
    rintro e he
    cases he
    rfl
  | none =>
    refine ⟨none, ⟨(pop s.cache h).2⟩, by simp [findMatch, pop_fst, hp],
      .same trivial (content_pop_none hp) (fun n hn => ?_) rfl, by simp,
      fun _ => peek_eq_none.mp hp⟩
    show n ≤ cap (pop s.cache h).2
    rw [cap_pop]
    exact hn

theorem victim_evicts : (view (C := C)).Evicts victim := by
  intro s _
  have hfits : ∀ n, view.Fits s n → view.Fits ⟨(popLru s.cache).2⟩ n := by
    intro n hn
    show n ≤ cap (popLru s.cache).2
    rw [cap_popLru]
    exact hn
  cases hp : (popLru s.cache).1 with
  | some e =>
    obtain ⟨hmem, hrest⟩ := content_popLru hp
    exact ⟨some e, ⟨(popLru s.cache).2⟩, by simp [victim, hp],
      IndexView.Taken.single trivial hmem hrest hfits rfl, by simp⟩
  | none =>
    obtain ⟨hempty, hrest⟩ := content_popLru_none hp
    exact ⟨none, ⟨(popLru s.cache).2⟩, by simp [victim, hp],
      .same trivial (hrest.trans hempty.symm) hfits rfl, fun _ => hempty⟩

end LruBackend

open LruBackend in
instance : LawfulIndex (LruBackend C) where
  view := view
  hash_unique := fun _ ha hb => content_unique ha hb
  len_eq := fun _ => card_content.symm
  has_iff := by
    intro s h _
    show (peek s.cache h).isSome = true ↔ _
    rw [Option.isSome_iff_ne_none, ne_eq, peek_eq_none]
    simp [view]
  findMatch_spec := findMatch_pops
  findMatches_spec := fun hs hw => findLoop_taken findMatch_pops hs _ hw
  scanMatches_spec := fun hs hw => scanLoop_taken findMatch_pops hs _ hw
  allocate_spec := fun n hw => victimLoop_taken victim_evicts n _ hw
  allocateAll_spec := fun hw => victimLoop_all victim_evicts hw card_content.symm
  insert_spec := by
    intro s h id n _ hnew _ hfits hcard _
    have hroom : (content s.cache).card < cap s.cache := lt_of_lt_of_le hcard hfits
    refine ⟨⟨put s.cache h id⟩, ?_, trivial, content_put id hnew hroom, fun m hm => ?_, rfl⟩
    · show insert s h id = _
      unfold LruBackend.insert
      rw [if_pos (by rw [← card_content]; exact hroom)]
    · show m ≤ cap (put s.cache h id)
      rw [cap_put]
      exact hm
  insert_admits := fun _ _ _ _ => trivial
  rebind_spec := by
    intro s h src dst _ he _
    have hp : peek s.cache h = some src := peek_iff.mpr he
    refine ⟨⟨setAt s.cache h dst⟩, ?_, trivial, content_setAt dst hp, fun m hm => ?_, rfl⟩
    · show rebind s h src dst = _
      simp [LruBackend.rebind, hp]
    · show m ≤ cap (setAt s.cache h dst)
      rw [cap_setAt]
      exact hm
  take_spec := fun _ he => take_taken he
  take_absent := fun _ he => take_absent he
  takeWithDescendants_spec := fun _ _ hw => Taken.alone hw take_taken take_absent
  takeCompleteLineage_spec := fun _ _ _ => ⟨none, _, rfl, rfl, fun _ => rfl, by simp⟩
  poison_spec := fun _ hw => ⟨_, rfl, IndexView.Taken.refl hw⟩
  growCapacity_spec := by
    intro s n _ hn hcard
    show True ∧ content (growCapacity s n).cache = content s.cache ∧
      n ≤ cap (growCapacity s n).cache ∧ _
    unfold LruBackend.growCapacity
    rw [if_neg (by omega)]
    exact ⟨trivial, content_resize hcard, by rw [cap_resize], rfl⟩

/-! ### Four caches -/

namespace MultiLruBackend

variable {pools pools' : Fin 4 → C} {h : SequenceHash} {id src dst : BlockId} {e : Entry}
  {j k : Fin 4}

/-- The pairs of all pools. -/
def all (pools : Fin 4 → C) : Finset Entry := univ.biUnion fun k => content (pools k)

/-- No hash is in two pools. -/
def Apart (pools : Fin 4 → C) : Prop :=
  ∀ j k h a b, (h, a) ∈ content (pools j) → (h, b) ∈ content (pools k) → j = k

theorem mem_all : e ∈ all pools ↔ ∃ k, e ∈ content (pools k) := by
  simp only [all, mem_biUnion, mem_univ, true_and]

theorem content_subset_all (k : Fin 4) : content (pools k) ⊆ all pools :=
  fun _ he => mem_all.mpr ⟨k, he⟩

theorem mem_levels : k ∈ levels := by
  revert k
  decide

theorem card_all (ha : Apart pools) : (all pools).card = ∑ k, LruCache.len (pools k) := by
  unfold all
  rw [card_biUnion]
  · exact sum_congr rfl fun k _ => card_content
  · intro j _ k _ hjk
    refine disjoint_left.mpr ?_
    rintro ⟨h, a⟩ hj hk
    exact hjk (ha j k h a a hj hk)

/-- The pairs of the other pools. -/
def rest (pools : Fin 4 → C) (k : Fin 4) : Finset Entry :=
  (univ.erase k).biUnion fun j => content (pools j)

/-- The pool `k` now has the pairs `X`, and no other pool has changed. -/
def Puts (pools pools' : Fin 4 → C) (k : Fin 4) (X : Finset Entry) : Prop :=
  ∀ j, content (pools' j) = if j = k then X else content (pools j)

variable {c : C} {X : Finset Entry}

theorem puts_update (hc : content c = X) : Puts pools (update pools k c) k X := by
  intro j
  by_cases hjk : j = k
  · rw [hjk, update_self, if_pos rfl, hc]
  · rw [update_of_ne hjk, if_neg hjk]

theorem Puts.union (hp : Puts pools pools' k X) : all pools' = X ∪ rest pools k := by
  ext e
  simp only [mem_all, mem_union, rest, mem_biUnion, mem_erase, mem_univ, and_true, hp _]
  constructor
  · rintro ⟨j, hj⟩
    by_cases hjk : j = k
    · rw [if_pos hjk] at hj
      exact Or.inl hj
    · rw [if_neg hjk] at hj
      exact Or.inr ⟨j, hjk, hj⟩
  · rintro (he | ⟨j, hjk, hj⟩)
    · exact ⟨k, by rw [if_pos rfl]; exact he⟩
    · exact ⟨j, by rw [if_neg hjk]; exact hj⟩

theorem all_eq : all pools = content (pools k) ∪ rest pools k := by
  have hp : Puts pools (update pools k (pools k)) k _ := puts_update rfl
  rw [← hp.union, update_eq_self]

theorem Apart.notMem_rest (ha : Apart pools) (he : e ∈ content (pools k)) : e ∉ rest pools k := by
  intro hr
  obtain ⟨j, hj, hej⟩ := mem_biUnion.mp hr
  exact ne_of_mem_erase hj (ha j k e.1 e.2 e.2 hej he)

/-- The pools stay apart if the hashes of the one that changes were in it, or in none. -/
theorem Puts.apart (ha : Apart pools) (hp : Puts pools pools' k X)
    (hX : ∀ g a, (g, a) ∈ X → (∃ b, (g, b) ∈ content (pools k)) ∨ ∀ b, (g, b) ∉ all pools) :
    Apart pools' := by
  have hold : ∀ j g a, (g, a) ∈ content (pools' j) →
      (∃ b, (g, b) ∈ content (pools j)) ∨ j = k ∧ ∀ b, (g, b) ∉ all pools := by
    intro j g a hj
    rw [hp] at hj
    by_cases hjk : j = k
    · rw [if_pos hjk] at hj
      rw [hjk]
      exact (hX g a hj).imp_right fun hn => ⟨rfl, hn⟩
    · rw [if_neg hjk] at hj
      exact Or.inl ⟨a, hj⟩
  intro i j g a b hi hj
  rcases hold i g a hi with ⟨a', hi⟩ | ⟨rfl, hn⟩
  · rcases hold j g b hj with ⟨b', hj⟩ | ⟨-, hn⟩
    · exact ha i j g a' b' hi hj
    · exact absurd (mem_all.mpr ⟨i, hi⟩) (hn a')
  · rcases hold j g b hj with ⟨b', hj⟩ | ⟨rfl, -⟩
    · exact absurd (mem_all.mpr ⟨j, hj⟩) (hn b')
    · rfl

/-- One pair leaves one pool. -/
def Left (pools pools' : Fin 4 → C) (e : Entry) : Prop :=
  ∃ k, e ∈ content (pools k) ∧ Puts pools pools' k ((content (pools k)).erase e)

theorem Left.all (ha : Apart pools) (hl : Left pools pools' e) :
    e ∈ all pools ∧ all pools' = (all pools).erase e := by
  obtain ⟨k, hk, hp⟩ := hl
  refine ⟨mem_all.mpr ⟨k, hk⟩, ?_⟩
  rw [hp.union, all_eq, erase_union_distrib, erase_eq_of_notMem (ha.notMem_rest hk)]

theorem Apart.mono (ha : Apart pools) (hs : ∀ j, content (pools' j) ⊆ content (pools j)) :
    Apart pools' :=
  fun i k g a b hi hk => ha i k g a b (hs i hi) (hs k hk)

theorem Left.apart (ha : Apart pools) (hl : Left pools pools' e) : Apart pools' := by
  obtain ⟨k, -, hp⟩ := hl
  exact hp.apart ha fun g a hm => Or.inl ⟨a, mem_of_mem_erase hm⟩

variable {s : MultiLruBackend C}

/-- Taking a pair out of one cache. -/
theorem left_update (hk : e ∈ content (pools k))
    (hc : content c = (content (pools k)).erase e) : Left pools (update pools k c) e :=
  ⟨k, hk, puts_update hc⟩

omit [LruCache C] in
theorem same_update {β : Type} (f : C → β) (hc : f c = f (pools k)) (j : Fin 4) :
    f (update pools k c j) = f (pools j) := by
  by_cases hjk : j = k
  · rw [hjk, update_self, hc]
  · rw [update_of_ne hjk]

/-- What a walk over the pools `ks` comes to: it takes the pair of the first pool that has one, and
`P` holds of the pairs of the pools that have none. -/
structure Walked {α : Type} (P : Finset Entry → Prop) (entry : α → Entry) (pools : Fin 4 → C)
    (ks : List (Fin 4)) (r : Option α × (Fin 4 → C)) : Prop where
  cap : ∀ j, cap (r.2 j) = cap (pools j)
  nothing : r.1 = none → (∀ k ∈ ks, P (content (pools k))) ∧
    ∀ j, content (r.2 j) = content (pools j)
  found : ∀ a, r.1 = some a → Left pools r.2 (entry a)

section

variable {α : Type} {P : Finset Entry → Prop} {entry : α → Entry} {a : α} {ks : List (Fin 4)}
  {r : Option α × (Fin 4 → C)}

theorem Walked.nil : Walked P entry pools [] (none, pools) :=
  ⟨fun _ => rfl, fun _ => ⟨by simp, fun _ => rfl⟩, by simp⟩

theorem Walked.take (hcap : LruCache.cap c = LruCache.cap (pools k))
    (hl : entry a ∈ content (pools k) ∧ content c = (content (pools k)).erase (entry a)) :
    Walked P entry pools (k :: ks) (some a, update pools k c) := by
  refine ⟨same_update LruCache.cap hcap, nofun, ?_⟩
  rintro _ ⟨⟩
  exact left_update hl.1 hl.2

theorem Walked.skip (hcap : LruCache.cap c = LruCache.cap (pools k)) (hP : P (content (pools k)))
    (hc : content c = content (pools k)) (hw : Walked P entry (update pools k c) ks r) :
    Walked P entry pools (k :: ks) r := by
  have hsame := same_update content hc
  refine ⟨fun j => (hw.cap j).trans (same_update _ hcap j), fun hn => ?_, fun a ha => ?_⟩
  · obtain ⟨hall, hcont⟩ := hw.nothing hn
    refine ⟨List.forall_mem_cons.mpr ⟨hP, fun k' hk' => ?_⟩, fun j => (hcont j).trans (hsame j)⟩
    rw [← hsame]
    exact hall k' hk'
  · -- writing a cache with the same pairs changes nothing that can be seen
    obtain ⟨k', hk', hrest⟩ := hw.found a ha
    exact ⟨k', hsame k' ▸ hk', fun j => by rw [hrest, hsame, hsame]⟩

end

theorem popIn_walked (pools : Fin 4 → C) (ks : List (Fin 4)) :
    Walked (fun X => ∀ b, (h, b) ∉ X) (h, ·) pools ks (popIn pools h ks) := by
  induction ks generalizing pools with
  | nil => exact .nil
  | cons k ks ih =>
    unfold popIn
    simp only [pop_fst]
    cases hp : peek (pools k) h with
    | some => exact .take (cap_pop _ _) ⟨peek_iff.mp hp, content_pop hp⟩
    | none => exact .skip (cap_pop _ _) (peek_eq_none.mp hp) (content_pop_none hp) (ih _)

theorem popLruIn_walked (pools : Fin 4 → C) (ks : List (Fin 4)) :
    Walked (· = ∅) (·) pools ks (popLruIn pools ks) := by
  induction ks generalizing pools with
  | nil => exact .nil
  | cons k ks ih =>
    unfold popLruIn
    dsimp only
    cases hp : (popLru (pools k)).1 with
    | some => exact .take (cap_popLru _) (content_popLru hp)
    | none =>
      obtain ⟨hempty, hrest⟩ := content_popLru_none hp
      exact .skip (cap_popLru _) hempty (hrest.trans hempty.symm) (ih _)

theorem takeIn_spec (ha : Apart pools) (hk : (h, id) ∈ content (pools k)) :
    ∀ ks : List (Fin 4), k ∈ ks →
      takeIn pools h id ks = (true, update pools k (pop (pools k) h).2) := by
  intro ks
  induction ks with
  | nil => intro hm; cases hm
  | cons j ks ih =>
    intro hm
    unfold takeIn
    by_cases hj : peek (pools j) h = some id
    · obtain rfl : j = k := ha j k h id id (peek_iff.mp hj) hk
      rw [if_pos hj]
    rw [if_neg hj]
    refine ih ((List.mem_cons.mp hm).resolve_left ?_)
    rintro rfl
    exact hj (peek_iff.mpr hk)

theorem takeIn_absent (he : (h, id) ∉ all pools) :
    ∀ ks : List (Fin 4), takeIn pools h id ks = (false, pools) := by
  intro ks
  induction ks with
  | nil => rfl
  | cons j ks ih =>
    unfold takeIn
    rw [if_neg fun hj => he (mem_all.mpr ⟨j, peek_iff.mp hj⟩), ih]

theorem rebindIn_spec (ha : Apart pools) (hk : (h, src) ∈ content (pools k)) :
    ∀ ks : List (Fin 4), k ∈ ks →
      rebindIn pools h src dst ks = (true, update pools k (setAt (pools k) h dst)) := by
  intro ks
  induction ks with
  | nil => intro hm; cases hm
  | cons j ks ih =>
    intro hm
    unfold rebindIn
    cases hj : peek (pools j) h with
    | some id =>
      have hid := peek_iff.mp hj
      obtain rfl : j = k := ha j k h id src hid hk
      obtain rfl : id = src := content_unique hid hk
      simp
    | none =>
      refine ih ((List.mem_cons.mp hm).resolve_left ?_)
      rintro rfl
      exact peek_eq_none.mp hj src hk

/-- Four caches are in order when no hash is in two of them. -/
def view : IndexView (MultiLruBackend C) where
  Wf := fun s => Apart s.priorityPools
  entries := fun s => all s.priorityPools
  Fits := fun s n => ∀ k, n ≤ cap (s.priorityPools k)
  Admits := fun _ _ _ => True

variable (ha : Apart s.priorityPools)

include ha

theorem Left.taken (hl : Left s.priorityPools pools' e)
    (hcap : ∀ j, cap (pools' j) = cap (s.priorityPools j)) :
    view.Taken s [e] { s with priorityPools := pools' } := by
  obtain ⟨hmem, hrest⟩ := hl.all ha
  refine IndexView.Taken.single (hl.apart ha) hmem hrest (fun n hn k => ?_) rfl
  show n ≤ cap (pools' k)
  rw [hcap]
  exact hn k

/-- The pools after a walk that found nothing. -/
theorem taken_of_same (hsame : ∀ j, content (pools' j) = content (s.priorityPools j))
    (hcap : ∀ j, cap (pools' j) = cap (s.priorityPools j)) :
    view.Taken s [] { s with priorityPools := pools' } := by
  refine .same (ha.mono fun j => by rw [hsame]) (by simp [view, all, hsame]) (fun n hn k => ?_) rfl
  show n ≤ cap (pools' k)
  rw [hcap]
  exact hn k

omit ha in
theorem findMatch_pops : (view (C := C)).Pops findMatch := by
  intro s h ha
  obtain ⟨hcap, hnone, hsome⟩ := popIn_walked s.priorityPools levels
  cases hp : (popIn s.priorityPools h levels).1 with
  | some id =>
    refine ⟨some (h, id), _, by simp only [findMatch, hp, Option.map_some],
      (hsome id hp).taken ha hcap, ?_, by simp⟩
    rintro e he
    cases he
    rfl
  | none =>
    obtain ⟨hpeek, hsame⟩ := hnone hp
    refine ⟨none, _, by simp only [findMatch, hp, Option.map_none], taken_of_same ha hsame hcap,
      by simp, fun _ id he => ?_⟩
    obtain ⟨k, hk⟩ := mem_all.mp he
    exact hpeek k mem_levels id hk

omit ha in
theorem victim_evicts : (view (C := C)).Evicts victim := by
  intro s ha
  obtain ⟨hcap, hnone, hsome⟩ := popLruIn_walked s.priorityPools levels
  cases hp : (popLruIn s.priorityPools levels).1 with
  | some e =>
    exact ⟨some e, _, by simp only [victim, hp], (hsome e hp).taken ha hcap, by simp⟩
  | none =>
    obtain ⟨hempty, hsame⟩ := hnone hp
    refine ⟨none, _, by simp only [victim, hp], taken_of_same ha hsame hcap, fun _ => ?_⟩
    rw [eq_empty_iff_forall_notMem]
    intro e he
    obtain ⟨k, hk⟩ := mem_all.mp he
    rw [hempty k mem_levels] at hk
    exact notMem_empty e hk

theorem len_eq : s.len = (all s.priorityPools).card := by
  rw [card_all ha, Fin.sum_univ_four]
  simp [len, levels, add_assoc]

theorem take_taken (he : (h, id) ∈ all s.priorityPools) :
    ∃ s', s.take h id = some (true, s') ∧ view.Taken s [(h, id)] s' := by
  obtain ⟨k, hk⟩ := mem_all.mp he
  have hp : peek (s.priorityPools k) h = some id := peek_iff.mpr hk
  refine ⟨{ s with priorityPools :=
    Function.update s.priorityPools k (pop (s.priorityPools k) h).2 }, ?_,
    (left_update hk (content_pop hp)).taken ha (same_update _ (cap_pop _ _))⟩
  unfold take
  rw [takeIn_spec ha hk levels mem_levels]

omit ha in
theorem take_absent (he : (h, id) ∉ all s.priorityPools) : s.take h id = some (false, s) := by
  unfold take
  rw [takeIn_absent he]

end MultiLruBackend

open MultiLruBackend in
instance : LawfulIndex (MultiLruBackend C) where
  view := view
  hash_unique := by
    intro s h a b hw h1 h2
    obtain ⟨j, hj⟩ := mem_all.mp h1
    obtain ⟨k, hk⟩ := mem_all.mp h2
    obtain rfl : j = k := hw j k h a b hj hk
    exact content_unique hj hk
  len_eq := fun hw => len_eq hw
  has_iff := by
    intro s h _
    show (levels.any fun k => (peek (s.priorityPools k) h).isSome) = true ↔
      ∃ id, (h, id) ∈ all s.priorityPools
    simp only [List.any_eq_true, Option.isSome_iff_exists, peek_iff, mem_all]
    exact ⟨fun ⟨k, _, id, hk⟩ => ⟨id, k, hk⟩, fun ⟨id, k, hk⟩ => ⟨k, mem_levels, id, hk⟩⟩
  findMatch_spec := findMatch_pops
  findMatches_spec := fun hs hw => IndexView.findLoop_taken MultiLruBackend.findMatch_pops hs _ hw
  scanMatches_spec := fun hs hw => IndexView.scanLoop_taken MultiLruBackend.findMatch_pops hs _ hw
  allocate_spec := fun n hw => IndexView.victimLoop_taken MultiLruBackend.victim_evicts n _ hw
  allocateAll_spec := fun hw => victimLoop_all MultiLruBackend.victim_evicts hw (len_eq hw)
  insert_spec := by
    intro s h id n ha hnew _ hfits hcard _
    obtain ⟨level, t, hlevel, ht⟩ : ∃ level t, s.calculatePriorityLevel h = (level, t) ∧
        t.priorityPools = s.priorityPools := ⟨_, _, rfl, rfl⟩
    have hroom : (content (s.priorityPools level)).card < cap (s.priorityPools level) := by
      have := card_le_card (@content_subset_all _ _ s.priorityPools level)
      exact (this.trans_lt hcard).trans_le (hfits level)
    have hput := content_put id (fun b hb => hnew b (content_subset_all level hb)) hroom
    have hputs : Puts s.priorityPools _ level _ := puts_update hput
    refine ⟨⟨update t.priorityPools level (put (t.priorityPools level) h id), t.frequencyTracker,
      t.frequencyThresholds⟩, ?_, ?_, ?_, ?_, rfl⟩
    · show insert s h id = _
      unfold MultiLruBackend.insert
      rw [hlevel]
    · show Apart (update t.priorityPools level _)
      rw [ht]
      refine hputs.apart ha fun g a hm => ?_
      rcases mem_insert.mp hm with he | hm
      · cases he
        exact Or.inr hnew
      · exact Or.inl ⟨a, hm⟩
    · show all (update t.priorityPools level _) = _
      rw [ht, hputs.union, insert_union, ← all_eq]
      rfl
    · intro m hm k
      show m ≤ cap (update t.priorityPools level _ k)
      rw [ht, same_update _ (cap_put _ _ _)]
      exact hm k
  insert_admits := fun _ _ _ _ => trivial
  rebind_spec := by
    intro s h src dst ha he _
    obtain ⟨k, hk⟩ := mem_all.mp he
    have hputs : Puts s.priorityPools _ k _ := puts_update (content_setAt dst (peek_iff.mpr hk))
    refine ⟨⟨update s.priorityPools k (setAt (s.priorityPools k) h dst), s.frequencyTracker,
      s.frequencyThresholds⟩, ?_, ?_, ?_, ?_, rfl⟩
    · show rebind s h src dst = _
      unfold MultiLruBackend.rebind
      rw [rebindIn_spec ha hk levels mem_levels]
    · -- every hash stays in its pool
      refine hputs.apart ha fun g a hm => ?_
      rcases mem_insert.mp hm with he | hm
      · cases he
        exact Or.inl ⟨src, hk⟩
      · exact Or.inl ⟨a, mem_of_mem_erase hm⟩
    · show all (update s.priorityPools k _) = Insert.insert _ ((all s.priorityPools).erase _)
      rw [hputs.union, insert_union, all_eq, erase_union_distrib,
        erase_eq_of_notMem (ha.notMem_rest hk)]
    · intro m hm j
      show m ≤ cap (update s.priorityPools k _ j)
      rw [same_update _ (cap_setAt _ _ _)]
      exact hm j
  take_spec := fun hw he => take_taken hw he
  take_absent := fun _ he => take_absent he
  takeWithDescendants_spec := fun _ _ hw => Taken.alone hw (take_taken hw) take_absent
  takeCompleteLineage_spec := fun _ _ _ => ⟨none, _, rfl, rfl, fun _ => rfl, by simp⟩
  poison_spec := fun _ hw => ⟨_, rfl, IndexView.Taken.refl hw⟩
  growCapacity_spec := by
    intro s n ha hn hcard
    have hsame : ∀ k, content (resize (s.priorityPools k) n) = content (s.priorityPools k) := by
      exact fun k => content_resize ((card_le_card (content_subset_all k)).trans hcard)
    show Apart (growCapacity s n).priorityPools ∧ all (growCapacity s n).priorityPools = _ ∧
      (∀ k, n ≤ cap ((growCapacity s n).priorityPools k)) ∧ _
    unfold MultiLruBackend.growCapacity
    rw [if_neg (Nat.ne_of_gt hn)]
    refine ⟨ha.mono fun j => by rw [hsame], ?_, fun k => by rw [cap_resize], rfl⟩
    simp [MultiLruBackend.view, all, hsame]

end Kvbm
