/-
A cache that keeps its entries in a list.

What is assumed of the LRU cache can be met: a list with the most recently used entry
last does all of it.  Runs on concrete inputs use this cache.
-/
import Kvbm.Index.Lru
import Kvbm.Lib.Assoc

namespace Kvbm

open List Option

structure ListCache where
  cap : Nat
  entries : List Entry
  nodup : (entries.map Prod.fst).Nodup

namespace ListCache

variable {l : List Entry} {h : SequenceHash} {id : BlockId}

def lookup (l : List Entry) (h : SequenceHash) : Option BlockId :=
  (l.find? fun e => e.1 = h).map Prod.snd

theorem lookup_eq_some (hn : (l.map Prod.fst).Nodup) : lookup l h = some id ↔ (h, id) ∈ l :=
  Lib.assocGet_eq_some hn

/-- The key goes to the end. -/
def moved (l : List Entry) (h : SequenceHash) (id : BlockId) : List Entry :=
  (l.filter fun e => e.1 ≠ h) ++ [(h, id)]

theorem nodup_sublist {l' : List Entry} (hs : l'.Sublist l) (hn : (l.map Prod.fst).Nodup) :
    (l'.map Prod.fst).Nodup := hn.sublist (hs.map _)

theorem moved_nodup (hn : (l.map Prod.fst).Nodup) : ((moved l h id).map Prod.fst).Nodup := by
  have hfilter := nodup_sublist (filter_sublist (p := fun e => e.1 ≠ h)) hn
  unfold moved
  rw [map_append, nodup_append']
  refine ⟨hfilter, by simp, fun g hg hg' => ?_⟩
  obtain ⟨e, he, rfl⟩ := mem_map.mp hg
  have hne := (mem_filter.mp he).2
  simp only [map_cons, map_nil, mem_singleton] at hg'
  simp [hg'] at hne

theorem moved_new (hnew : ∀ b, (h, b) ∉ l) : moved l h id = l ++ [(h, id)] := by
  unfold moved
  rw [filter_eq_self.mpr]
  intro e he
  have hne : e.1 ≠ h := fun hc => hnew e.2 (hc ▸ he)
  simpa using hne

theorem setAt_fst : (l.map fun e => if e.1 = h then (h, id) else e).map Prod.fst =
    l.map Prod.fst := by
  rw [List.map_map]
  refine List.map_congr_left fun e _ => ?_
  by_cases he : e.1 = h <;> simp [he]

instance : LruCache ListCache where
  withCap n := ⟨n, [], nodup_nil⟩
  entries := entries
  cap := cap
  len c := c.entries.length
  peek c h := lookup c.entries h
  put c h id :=
    ⟨c.cap, (moved c.entries h id).drop ((moved c.entries h id).length - c.cap),
      nodup_sublist (drop_sublist _ _) (moved_nodup c.nodup)⟩
  pop c h := (lookup c.entries h,
    ⟨c.cap, c.entries.filter fun e => e.1 ≠ h, nodup_sublist filter_sublist c.nodup⟩)
  popLru c := (c.entries.head?, ⟨c.cap, c.entries.tail, nodup_sublist (tail_sublist _) c.nodup⟩)
  setAt c h id := ⟨c.cap, c.entries.map fun e => if e.1 = h then (h, id) else e,
    setAt_fst (l := c.entries) ▸ c.nodup⟩
  resize c n := ⟨n, c.entries.drop (c.entries.length - n), nodup_sublist (drop_sublist _ _) c.nodup⟩
  keysNodup := nodup
  entries_withCap _ := rfl
  cap_withCap _ := rfl
  len_eq _ := rfl
  peek_eq c _ _ := lookup_eq_some c.nodup
  entries_put c h id hnew hroom := by
    show (moved c.entries h id).drop ((moved c.entries h id).length - c.cap) = _
    have hzero : (moved c.entries h id).length - c.cap = 0 := by
      rw [moved_new hnew, length_append, length_singleton]
      omega
    rw [hzero, drop_zero, moved_new hnew]
  cap_put _ _ _ := rfl
  pop_fst _ _ := rfl
  entries_pop _ _ := rfl
  cap_pop _ _ := rfl
  popLru_fst _ := rfl
  entries_popLru _ := rfl
  cap_popLru _ := rfl
  entries_setAt _ _ _ := rfl
  cap_setAt _ _ _ := rfl
  entries_resize c n hn := by
    show c.entries.drop (c.entries.length - n) = c.entries
    rw [Nat.sub_eq_zero_of_le hn, drop_zero]
  cap_resize _ _ := rfl

end ListCache

end Kvbm
