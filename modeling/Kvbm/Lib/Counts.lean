/-
Counters kept beside a map.

For every owner the number of its entries is kept; the number is dropped when it is zero.  The
counters agree with the map when each is the number of entries there are.
-/
import Kvbm.Lib.Listed

namespace Kvbm.Lib

open Function

variable {ω κ β : Type*} [DecidableEq ω] {c : ω → Option Nat} {f g : ω → Nat} {o : ω}

def bump (c : ω → Option Nat) (o : ω) : ω → Option Nat := update c o (some ((c o).getD 0 + 1))

def decrement (c : ω → Option Nat) (o : ω) : ω → Option Nat :=
  match c o with
  | none => c
  | some n => update c o (if n - 1 = 0 then none else some (n - 1))

/-- How a number is kept: not at all if it is zero. -/
def stored (n : Nat) : Option Nat := if n = 0 then none else some n

/-- The counters are the numbers `f`. -/
def Tallies (c : ω → Option Nat) (f : ω → Nat) : Prop := ∀ o, c o = stored (f o)

omit [DecidableEq ω] in
theorem Tallies.getD (h : Tallies c f) : (c o).getD 0 = f o := by
  rw [h o, stored]
  split_ifs with hz
  · simp [hz]
  · rfl

theorem Tallies.bump (h : Tallies c f) (ho : g o = f o + 1) (hne : ∀ p, p ≠ o → g p = f p) :
    Tallies (bump c o) g := by
  intro p
  by_cases hp : p = o
  · subst hp
    rw [Lib.bump, update_self, h.getD, ho, stored, if_neg (Nat.succ_ne_zero _)]
  · rw [Lib.bump, update_of_ne hp, h p, hne p hp]

/-- One entry less is counted, if it counted. -/
theorem Tallies.less {b : Bool} (h : Tallies c f)
    (hg : ∀ p, g p + Listed.one (decide (o = p) && b) = f p) :
    Tallies (if b then decrement c o else c) g := by
  intro p
  cases b with
  | false => simpa [Listed.one, ← hg p] using h p
  | true =>
    have ho : g o + 1 = f o := by simpa [Listed.one] using hg o
    have hc : c o = some (f o) := by rw [h o, stored, if_neg (by omega)]
    simp only [if_true, decrement, hc]
    by_cases hp : p = o
    · subst hp
      rw [update_self, stored, ← ho, Nat.add_sub_cancel]
    · rw [update_of_ne hp, h p, ← hg p]
      simp [Listed.one, Ne.symm hp]

/-! ### Counters of the entries of a map -/

variable [DecidableEq κ]

/-- How many entries of `o` satisfy `q`. -/
def countBy (owner : κ → ω) (q : κ → β → Bool) (m : Listed κ β) (o : ω) : Nat :=
  m.count fun k v => decide (owner k = o) && q k v

variable {owner : κ → ω} {q : κ → β → Bool} {m : Listed κ β} {k : κ} {v u : β}

omit [DecidableEq κ] in
theorem tallies_empty : Tallies (fun _ => none) (countBy owner q (∅ : Listed κ β)) := by
  intro o
  rfl

variable (h : Tallies c (countBy owner q m))

include h

theorem Tallies.erase (hk : m.lookup k = some v) :
    Tallies (if q k v then decrement c (owner k) else c) (countBy owner q (m.erase k)) :=
  h.less fun _ => Listed.count_erase hk

theorem Tallies.insertNew (hk : m.lookup k = none) :
    Tallies (if q k v then Lib.bump c (owner k) else c) (countBy owner q (m.insert k v)) := by
  have hinsert : ∀ o, countBy owner q (m.insert k v) o =
      countBy owner q m o + Listed.one (decide (owner k = o) && q k v) :=
    fun o => Listed.count_insert_new hk
  cases hq : q k v with
  | false =>
    intro o
    rw [hinsert o, hq, Bool.and_false]
    exact h o
  | true =>
    refine h.bump ?_ fun o ho => ?_
    · simpa [hq, Listed.one] using hinsert (owner k)
    · simpa [hq, Listed.one, Ne.symm ho] using hinsert o

/-- A value gives way to one that counts as it did, or not at all. -/
theorem Tallies.replace (hk : m.lookup k = some u) (hv : q k v = true → q k u = true) :
    Tallies (if q k u && !q k v then decrement c (owner k) else c)
      (countBy owner q (m.insert k v)) := by
  refine h.less fun o => ?_
  have hreplace : countBy owner q (m.insert k v) o + Listed.one (decide (owner k = o) && q k u) =
      countBy owner q m o + Listed.one (decide (owner k = o) && q k v) := Listed.count_replace hk
  cases hqv : q k v with
  | false => simpa [hqv, Listed.one] using hreplace
  | true => simpa [hqv, hv hqv, Listed.one] using hreplace

end Kvbm.Lib
