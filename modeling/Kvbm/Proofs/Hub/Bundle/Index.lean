/-
The stored advertisements and what is kept beside them.

The agenda lists every record under the time at which it expires, the counters are the numbers of
the owners' records, and the length is the number of records.  Every change of the index keeps
that; the loop that takes expired records out leaves exactly those that have not expired.
-/
import Kvbm.Hub.Bundle.Advertisements

namespace Kvbm.Hub.Bundle

open Lib Function List Option Listed

namespace AdvertisementIndex

variable {H : Type} [DecidableEq H]

/-- When a record expires. -/
def due (s : AdvertisementIndex H) (i : Identity H) : Option Nat :=
  (s.byKey.lookup i).map BundleAdvertisementRecord.expiresAtUnixMs

/-- Records are filed under their own key and owner, and are counted right. -/
structure Filed (s : AdvertisementIndex H) : Prop where
  identity : ∀ i r, s.byKey.lookup i = some r → (r.key, r.owner) = i
  owners : Tallies s.ownerCounts (countBy Prod.snd (fun _ _ => true) s.byKey)
  total : s.len = s.byKey.entries.length

/-- **The agenda, the counters and the length say exactly what is stored.** -/
structure Exact (s : AdvertisementIndex H) : Prop extends Filed s where
  scheduled : s.expirations.Mirrors s.due

variable {s s' : AdvertisementIndex H} {a r : BundleAdvertisementRecord H} {i : Identity H}

theorem exact_new {m n : Nat} : (new m n : AdvertisementIndex H).Exact where
  identity _ _ h := by cases h
  owners := tallies_empty
  total := rfl
  scheduled := Agenda.mirrors_nil

/-! ### Filing and removing -/

theorem identity_insert (h : ∀ i r, s.byKey.lookup i = some r → (r.key, r.owner) = i)
    (hr : (s.byKey.insert (a.key, a.owner) a).lookup i = some r) : (r.key, r.owner) = i := by
  rw [lookup_insert] at hr
  split_ifs at hr with hi
  · rw [← some.inj hr, hi]
  · exact h i r hr

variable {exp : Agenda (Identity H)} {owner : InstanceId}

theorem Filed.erase (h : s.Filed) (hi : s.byKey.lookup i = some r) :
    ({ s with
      byKey := s.byKey.erase i
      expirations := exp
      ownerCounts := decrement s.ownerCounts i.2
      len := s.len - 1 } : AdvertisementIndex H).Filed := by
  refine ⟨?_, h.owners.erase hi, ?_⟩
  · intro j u hu
    rw [lookup_erase] at hu
    split_ifs at hu
    exact h.identity j u hu
  · have hlen := length_erase hi
    show s.len - 1 = (s.byKey.erase i).entries.length
    rw [h.total, ← hlen, Nat.add_sub_cancel]

variable {m : AdvertisementIndex H} {t : List (BundleKey H) × AdvertisementIndex H} {now : Nat}

theorem due_insert (hm : m.byKey = s.byKey.insert (a.key, a.owner) a) :
    m.due = update s.due (a.key, a.owner) (some a.expiresAtUnixMs) := by
  funext j
  rw [due, hm, lookup_insert, update_apply]
  split_ifs <;> rfl

theorem due_erase (hm : m.byKey = s.byKey.erase i) : m.due = update s.due i none := by
  funext j
  rw [due, hm, lookup_erase, update_apply]
  split_ifs <;> rfl

/-- **Storing a record** keeps the index exact, and changes no other record. -/
theorem Exact.insert (h : s.Exact) (hs : s.insert a = .ok s') :
    s'.Exact ∧
      ∀ j, s'.byKey.lookup j = if j = (a.key, a.owner) then some a else s.byKey.lookup j := by
  simp only [AdvertisementIndex.insert] at hs
  split at hs
  · rename_i previous hprevious
    obtain rfl := Except.ok.inj hs
    refine ⟨⟨⟨fun i r hr => identity_insert h.identity hr, h.owners.replace hprevious id, ?_⟩, ?_⟩,
      fun j => lookup_insert⟩
    · exact h.total.trans (length_replace hprevious).symm
    have hdue : s.due (a.key, a.owner) = some previous.expiresAtUnixMs :=
      congrArg (Option.map _) hprevious
    have hstruck := h.scheduled.strike _ (a.key, a.owner) (.inl hdue)
    have hput := hstruck.put a.expiresAtUnixMs (a.key, a.owner) (update_self ..)
    rw [update_idem] at hput
    rw [due_insert rfl]
    exact hput
  · rename_i hnew
    obtain ⟨-, -, rfl⟩ := map_eq_ok.mp hs
    refine ⟨⟨⟨fun i r hr => identity_insert h.identity hr, h.owners.insertNew hnew, ?_⟩, ?_⟩,
      fun j => lookup_insert⟩
    · rw [h.total]
      exact (congrArg length (AList.entries_insert_of_notMem (notMem hnew))).symm
    have hdue : s.due (a.key, a.owner) = none := congrArg (Option.map _) hnew
    rw [due_insert rfl]
    exact h.scheduled.put _ _ hdue

theorem discard_of_none (hi : s.byKey.lookup i = none) : s.discard i = s := by
  simp only [discard, remove, get, hi, map_none, getD_none]

theorem discard_of_some (hi : s.byKey.lookup i = some r) :
    s.discard i = { s with
      byKey := s.byKey.erase i
      expirations := s.expirations.strike r.expiresAtUnixMs i
      len := s.len - 1
      ownerCounts := decrement s.ownerCounts i.2 } := by
  simp only [discard, remove, get, hi, map_some, getD_some, unschedule]

theorem lookup_discard (j : Identity H) :
    (s.discard i).byKey.lookup j = if j = i then none else s.byKey.lookup j := by
  cases hi : s.byKey.lookup i with
  | none =>
    rw [discard_of_none hi]
    split_ifs with hj
    · rw [hj, hi]
    · rfl
  | some =>
    rw [discard_of_some hi]
    exact lookup_erase

/-- **Removing a record** keeps the index exact. -/
theorem Exact.discard (h : s.Exact) : (s.discard i).Exact := by
  cases hi : s.byKey.lookup i with
  | none => rwa [discard_of_none hi]
  | some r =>
    have hdue : s.due i = some r.expiresAtUnixMs := congrArg (Option.map _) hi
    rw [discard_of_some hi]
    refine ⟨h.toFiled.erase hi, ?_⟩
    rw [due_erase rfl]
    exact h.scheduled.strike _ _ (.inl hdue)

/-! ### All records of an owner -/

theorem mem_recordsForOwner (h : s.Filed) :
    r ∈ s.recordsForOwner owner ↔ r.owner = owner ∧ s.byKey.lookup (r.key, owner) = some r := by
  simp only [recordsForOwner, List.mem_map, List.mem_filter, decide_eq_true_eq]
  constructor
  · intro ⟨e, ⟨hmem, howner⟩, he⟩
    have hlook : s.byKey.lookup e.1 = some r := mem_entries.mp (he ▸ hmem)
    have hid := h.identity _ _ hlook
    have hrowner : r.owner = owner := (congrArg Prod.snd hid).trans howner
    rw [← hrowner, hid]
    exact ⟨rfl, hlook⟩
  · intro ⟨howner, hlook⟩
    exact ⟨⟨(r.key, owner), r⟩, ⟨mem_entries.mpr hlook, rfl⟩, rfl⟩

theorem nodup_recordsForOwner (h : s.Filed) :
    ((s.recordsForOwner owner).map fun r => (r.key, owner)).Nodup := by
  have hnodup : (s.byKey.entries.map Sigma.fst).Nodup := s.byKey.nodupKeys
  have hsub := (filter_sublist (l := s.byKey.entries)
    (p := fun e => decide (e.1.2 = owner))).map Sigma.fst
  have hkeys : (s.recordsForOwner owner).map (fun r => (r.key, owner)) =
      (s.byKey.entries.filter fun e => decide (e.1.2 = owner)).map Sigma.fst := by
    rw [recordsForOwner, List.map_map]
    apply List.map_congr_left
    intro e he
    obtain ⟨hmem, howner⟩ := mem_filter.mp he
    have hid := h.identity e.1 e.2 (mem_entries.mp hmem)
    have hkey : e.2.key = e.1.1 := congrArg Prod.fst hid
    exact Prod.ext hkey (of_decide_eq_true howner).symm
  rw [hkeys]
  exact hnodup.sublist hsub

/-- **Removing an owner** leaves the other owners' records. -/
theorem Exact.removeOwner (h : s.Exact) (owner : InstanceId) :
    (s.removeOwner owner).2.Exact ∧
      ∀ j, (s.removeOwner owner).2.byKey.lookup j =
        if j.2 = owner then none else s.byKey.lookup j := by
  have hdrops : Drops (fun t : List (BundleAdvertisementRecord H) × AdvertisementIndex H =>
      t.2.byKey.lookup) (fun r => (r.key, owner)) (fun _ _ => True) (takeOne owner)
      (fun t => t.2.Exact) := by
    intro t r u ht _ _
    have htake : (takeOne owner t r).2 = t.2.discard (r.key, owner) := by
      unfold takeOne AdvertisementIndex.discard
      cases t.2.remove r.key owner <;> rfl
    simp only [htake]
    exact ⟨ht.discard, lookup_discard⟩
  obtain ⟨hexact, hlook⟩ := hdrops.foldl (s := ([], s)) h (nodup_recordsForOwner h.toFiled)
    fun r hr => ⟨r, ((mem_recordsForOwner h.toFiled).mp hr).2, trivial⟩
  refine ⟨hexact, fun j => (hlook j).trans ?_⟩
  by_cases hj : j.2 = owner
  · rw [if_pos hj]
    cases hr : s.byKey.lookup j with
    | none => exact ite_self _
    | some r =>
      have hid := h.identity j r hr
      apply if_pos
      refine mem_map.mpr ⟨r, (mem_recordsForOwner h.toFiled).mpr ?_, ?_⟩
      · rw [← hj, ← hid]
        exact ⟨rfl, hid ▸ hr⟩
      · rw [← hj, ← hid]
  · rw [if_neg hj, if_neg]
    intro hmem
    obtain ⟨r, -, hr⟩ := mem_map.mp hmem
    exact hj (hr ▸ rfl)

/-! ### Taking out what has expired -/

/-- A bucket that has been taken off the agenda: its records go. -/
theorem expire_bucket {ids : List (Identity H)} (hfiled : t.2.Filed) (hnodup : ids.Nodup)
    (hagenda : t.2.expirations.Mirrors fun i => if i ∈ ids then none else t.2.due i)
    (hids : ∀ i ∈ ids, ∃ r, t.2.byKey.lookup i = some r ∧ r.expiresAtUnixMs ≤ now) :
    (ids.foldl (expireOne now) t).2.Exact ∧
      (∀ j, (ids.foldl (expireOne now) t).2.byKey.lookup j =
        if j ∈ ids then none else t.2.byKey.lookup j) ∧
      (ids.foldl (expireOne now) t).2.expirations.length ≤ t.2.expirations.length := by
  induction ids generalizing t with
  | nil => exact ⟨⟨hfiled, hagenda.congr fun i => by simp⟩, fun j => by simp, le_rfl⟩
  | cons i ids ih =>
    obtain ⟨hnotin, hnodup⟩ := nodup_cons.mp hnodup
    obtain ⟨r, hr, hexpired⟩ := hids i (by simp)
    have hone : expireOne now t i = (t.1.insert i.1, t.2.discard i) := by
      have hget : t.2.get i.1 i.2 = some r := hr
      simp only [expireOne, hget, if_pos hexpired]
    have hstruck := hagenda.strike r.expiresAtUnixMs i (.inr (by simp))
    have hlook := fun j => lookup_discard (s := t.2) (i := i) j
    have hrest : ∀ j ∈ ids, ∃ u, (t.2.discard i).byKey.lookup j = some u ∧
        u.expiresAtUnixMs ≤ now := by
      intro j hj
      have hne : j ≠ i := fun h => hnotin (h ▸ hj)
      rw [hlook, if_neg hne]
      exact hids j (by simp [hj])
    have hafter : (t.2.discard i).expirations.Mirrors
        fun j => if j ∈ ids then none else (t.2.discard i).due j := by
      rw [discard_of_some hr]
      refine hstruck.congr fun j => ?_
      rw [due_erase rfl, update_apply, update_apply]
      by_cases hj : j = i
      · simp [hj]
      · simp [hj]
    have hfiled' : (t.2.discard i).Filed := by
      rw [discard_of_some hr]
      exact hfiled.erase hr
    rw [foldl_cons, hone]
    obtain ⟨hexact, hkept, hlen⟩ :=
      ih (t := (t.1.insert i.1, t.2.discard i)) hfiled' hnodup hafter hrest
    refine ⟨hexact, ?_, hlen.trans ?_⟩
    · intro j
      rw [hkept, hlook]
      by_cases hj : j = i
      · simp [hj]
      · simp [hj]
    · rw [discard_of_some hr]
      exact Agenda.length_strike_le

/-- With nothing due by `now`, nothing has expired. -/
theorem filter_live (h : ∀ i t, s.due i = some t → now < t) (j : Identity H) :
    s.byKey.lookup j = (s.byKey.lookup j).filter fun r => decide (now < r.expiresAtUnixMs) := by
  cases hj : s.byKey.lookup j with
  | none => rfl
  | some r =>
    have hlive : now < r.expiresAtUnixMs := h j _ (congrArg (Option.map _) hj)
    rw [Option.filter_some, if_pos (decide_eq_true hlive)]

theorem Exact.none_due (h : s.Exact) (hnil : s.expirations = []) (i : Identity H)
    (u : Nat) (hu : s.due i = some u) : now < u := by
  obtain ⟨l, hl, -⟩ := (h.scheduled.listed u i).mpr hu
  rw [hnil] at hl
  cases hl

theorem pruneLoop_spec {now fuel : Nat} (h : t.2.Exact) (hfuel : t.2.expirations.length ≤ fuel) :
    (pruneLoop now fuel t).2.Exact ∧
      ∀ j, (pruneLoop now fuel t).2.byKey.lookup j =
        (t.2.byKey.lookup j).filter fun r => decide (now < r.expiresAtUnixMs) := by
  induction fuel generalizing t with
  | zero => exact ⟨h, filter_live (h.none_due (length_eq_zero_iff.mp (by omega)))⟩
  | succ fuel ih =>
    unfold pruneLoop
    cases hexp : t.2.expirations with
    | nil => exact ⟨h, filter_live (h.none_due hexp)⟩
    | cons first rest =>
      obtain ⟨expiration, ids⟩ := first
      have hagenda := hexp ▸ h.scheduled
      have hfirst : ordGet expiration ((expiration, ids) :: rest) = some ids := by
        rw [ordGet_cons, if_pos rfl]
      by_cases hready : expiration ≤ now
      · have hids : ∀ i ∈ ids, ∃ r, t.2.byKey.lookup i = some r ∧ r.expiresAtUnixMs ≤ now := by
          intro i hi
          obtain ⟨r, hr, hdue⟩ :=
            map_eq_some_iff.mp ((hagenda.listed expiration i).mp ⟨ids, hfirst, hi⟩)
          exact ⟨r, hr, hdue ▸ hready⟩
        obtain ⟨hexact, hlook, hlen⟩ :=
          expire_bucket (t := (t.1, { t.2 with expirations := rest }))
            ⟨h.identity, h.owners, h.total⟩ (hagenda.distinct expiration ids hfirst).2
            (hagenda.pop.congr fun i => by split_ifs <;> rfl) hids
        have hfuel' : rest.length ≤ fuel := by
          rw [hexp, length_cons] at hfuel
          omega
        obtain ⟨hfinal, hkept⟩ := ih hexact (hlen.trans hfuel')
        simp only [if_pos hready]
        refine ⟨hfinal, fun j => (hkept j).trans ?_⟩
        rw [hlook]
        by_cases hj : j ∈ ids
        · obtain ⟨r, hr, hexpired⟩ := hids j hj
          rw [if_pos hj, hr, filter_some, if_neg (by simpa using hexpired)]
          rfl
        · rw [if_neg hj]
      · simp only [if_neg hready]
        exact ⟨h, filter_live fun i u hu => hagenda.lt_of_first (not_le.mp hready) hu⟩

/-- **Pruning** leaves exactly the records that have not expired. -/
theorem Exact.pruneExpired (h : s.Exact) (now : Nat) :
    (s.pruneExpired now).2.Exact ∧
      ∀ j, (s.pruneExpired now).2.byKey.lookup j =
        (s.byKey.lookup j).filter fun r => decide (now < r.expiresAtUnixMs) :=
  pruneLoop_spec (t := ([], s)) h le_rfl

end AdvertisementIndex

end Kvbm.Hub.Bundle
