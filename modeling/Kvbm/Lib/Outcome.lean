/-
Computations that may fail.

A check that succeeds says that what it checks holds, and a sequence succeeds if each of its parts
does; the first failure ends it.
-/
import Mathlib.Data.List.Basic

namespace Kvbm.Lib

variable {ε α β : Type*} {x : Except ε α} {l : List α} {b : β} {f : α → Except ε (List β)}
  {out : List β}

theorem bind_eq_ok {f : α → Except ε β} : x.bind f = .ok b ↔ ∃ a, x = .ok a ∧ f a = .ok b := by
  cases x <;> simp [Except.bind]

theorem map_eq_ok {f : α → β} : x.map f = .ok b ↔ ∃ a, x = .ok a ∧ f a = b := by
  cases x <;> simp [Except.map]

theorem mapError_eq_ok {ε' : Type*} {f : ε → ε'} {a : α} : x.mapError f = .ok a ↔ x = .ok a := by
  cases x <;> simp [Except.mapError]

theorem ite_error_eq_ok {p : Prop} [Decidable p] {e : ε} {a : α} :
    (if p then .error e else x) = .ok a ↔ ¬p ∧ x = .ok a := by
  split <;> simp [*]

/-- Fail with `e` unless `p` holds. -/
def ensure (p : Prop) [Decidable p] (e : ε) : Except ε Unit := if p then .ok () else .error e

theorem ensure_eq_ok {p : Prop} [Decidable p] {e : ε} {u : Unit} : ensure p e = .ok u ↔ p := by
  unfold ensure
  split <;> simp [*]

/-- If every single run gives something, the whole gives all of it. -/
theorem mapM_eq_filterMap {α β : Type} {f : α → Option β} {l : List α}
    (h : ∀ x ∈ l, (f x).isSome) : l.mapM f = some (l.filterMap f) := by
  induction l with
  | nil => rfl
  | cons x l ih =>
    obtain ⟨y, hy⟩ := Option.isSome_iff_exists.mp (h x List.mem_cons_self)
    rw [List.mapM_cons, ih fun z hz => h z (List.mem_cons_of_mem x hz)]
    simp [hy]

/-- Run `f` on every element, in order. -/
def forEach (f : α → Except ε Unit) : List α → Except ε Unit
  | [] => .ok ()
  | a :: l => (f a).bind fun _ => forEach f l

/-- Run `f` on every element, in order, and put the results one after the other. -/
def collect (f : α → Except ε (List β)) : List α → Except ε (List β)
  | [] => .ok []
  | a :: l => (f a).bind fun x => (collect f l).map (x ++ ·)

/-- What every single run gives, the whole gives. -/
theorem collect_eq_ok {P : α → Prop} {g : α → List β}
    (hf : ∀ a ∈ l, ∀ x, f a = .ok x → P a ∧ x = g a) (h : collect f l = .ok out) :
    (∀ a ∈ l, P a) ∧ out = l.flatMap g := by
  induction l generalizing out with
  | nil =>
    cases h
    simp
  | cons a l ih =>
    obtain ⟨x, hx, hrest⟩ := bind_eq_ok.mp h
    obtain ⟨y, hy, rfl⟩ := map_eq_ok.mp hrest
    obtain ⟨hP, rfl⟩ := hf a (by simp) x hx
    obtain ⟨hall, rfl⟩ := ih (fun b hb => hf b (by simp [hb])) hy
    exact ⟨by simpa using ⟨hP, hall⟩, by simp⟩

/-- What every single run produces, read through `h`, the whole produces. -/
theorem collect_flatMap {γ : Type*} {h : β → List γ} {g : α → List γ}
    (hf : ∀ a ∈ l, ∀ x, f a = .ok x → x.flatMap h = g a)
    (hout : collect f l = .ok out) : out.flatMap h = l.flatMap g := by
  induction l generalizing out with
  | nil =>
    cases hout
    rfl
  | cons a l ih =>
    obtain ⟨x, hx, hrest⟩ := bind_eq_ok.mp hout
    obtain ⟨y, hy, rfl⟩ := map_eq_ok.mp hrest
    rw [List.flatMap_append, hf a (by simp) x hx, ih (fun b hb => hf b (by simp [hb])) hy,
      List.flatMap_cons]

end Kvbm.Lib
