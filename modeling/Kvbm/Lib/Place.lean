/-
Places in row-major order.

An index into a tensor is a list of axes, outermost first, each with its size and its coordinate.
Its place counts the elements before it.  Coordinates in range and places below the number of
elements determine each other.
-/
import Mathlib.Algebra.BigOperators.Group.List.Basic
import Mathlib.Data.List.Nodup

namespace Kvbm.Lib

open Function List

variable {axes axes' rest : List (Nat × Nat)} {x : Nat}

/-- The number of elements that the axes span. -/
def span (axes : List (Nat × Nat)) : Nat := (axes.map Prod.fst).prod

def place : List (Nat × Nat) → Nat
  | [] => 0
  | a :: rest => a.2 * span rest + place rest

/-- Every coordinate is in range. -/
def Within (axes : List (Nat × Nat)) : Prop := ∀ a ∈ axes, a.2 < a.1

@[simp] theorem span_nil : span [] = 1 := rfl

@[simp] theorem span_cons (a : Nat × Nat) : span (a :: rest) = a.1 * span rest := prod_cons

theorem span_append : span (axes ++ rest) = span axes * span rest := by
  simp [span]

@[simp] theorem within_nil : Within [] := by
  simp [Within]

@[simp] theorem within_cons {a : Nat × Nat} : Within (a :: rest) ↔ a.2 < a.1 ∧ Within rest := by
  simp [Within]

theorem Within.append (h : Within axes) (h' : Within rest) : Within (axes ++ rest) := by
  intro a ha
  cases mem_append.mp ha with
  | inl ha => exact h a ha
  | inr ha => exact h' a ha

/-- The inner axes count within a row of the outer ones. -/
theorem place_append : place (axes ++ rest) = place axes * span rest + place rest := by
  induction axes with
  | nil => simp [place]
  | cons a axes ih =>
    rw [cons_append, place, place, ih, span_append, Nat.add_mul, Nat.mul_assoc, Nat.add_assoc]

theorem place_lt (h : Within axes) : place axes < span axes := by
  induction axes with
  | nil => simp [place]
  | cons a axes ih =>
    obtain ⟨ha, hrest⟩ := within_cons.mp h
    have hrow : (a.2 + 1) * span axes ≤ a.1 * span axes := Nat.mul_le_mul_right _ ha
    have := ih hrest
    rw [place, span_cons]
    rw [Nat.add_mul] at hrow
    omega

/-- A place determines the coordinates. -/
theorem place_inj (hsizes : axes.map Prod.fst = axes'.map Prod.fst) (h : Within axes)
    (h' : Within axes') (he : place axes = place axes') : axes = axes' := by
  induction axes generalizing axes' with
  | nil => exact (map_eq_nil_iff.mp hsizes.symm).symm
  | cons a axes ih =>
    cases axes' with
    | nil => simp at hsizes
    | cons a' axes' =>
      obtain ⟨-, hrest⟩ := within_cons.mp h
      obtain ⟨-, hrest'⟩ := within_cons.mp h'
      rw [map_cons, map_cons, cons.injEq] at hsizes
      have hspan : span axes = span axes' := congrArg prod hsizes.2
      have hlt := place_lt hrest
      have hlt' := place_lt hrest'
      rw [place, place, hspan] at he
      rw [hspan] at hlt
      -- quotient and remainder by the size of a row
      have hquot : a.2 = a'.2 := by
        have := congrArg (· / span axes') he
        simpa [Nat.add_comm, Nat.add_mul_div_right, Nat.div_eq_of_lt, hlt, hlt',
          Nat.lt_of_le_of_lt (Nat.zero_le _) hlt] using this
      have hrem : place axes = place axes' := by
        rw [hquot] at he
        omega
      rw [ih hsizes.2 hrest hrest' hrem, Prod.ext hsizes.1 hquot]

/-- Every place below the number of elements is taken.  The axes carry distinct labels, so that
the coordinates are a function of the label. -/
theorem exists_place {κ : Type*} [DecidableEq κ] {dims : List (κ × Nat)}
    (hnd : (dims.map Prod.fst).Nodup) (hx : x < (dims.map Prod.snd).prod) :
    ∃ f : κ → Nat, (∀ d ∈ dims, f d.1 < d.2) ∧ place (dims.map fun d => (d.2, f d.1)) = x := by
  induction dims generalizing x with
  | nil =>
    have : x = 0 := by simpa using hx
    exact ⟨fun _ => 0, by simp, this.symm⟩
  | cons d dims ih =>
    rw [map_cons, nodup_cons] at hnd
    rw [map_cons, prod_cons] at hx
    have hpos : 0 < (dims.map Prod.snd).prod :=
      Nat.pos_of_mul_pos_left (Nat.lt_of_le_of_lt (Nat.zero_le _) hx)
    obtain ⟨f, hf, hplace⟩ := ih hnd.2 (Nat.mod_lt x hpos)
    -- the label of the outermost axis does not occur again
    have hother : ∀ e ∈ dims, e.1 ≠ d.1 := fun e he h =>
      hnd.1 (h ▸ mem_map_of_mem he)
    refine ⟨update f d.1 (x / (dims.map Prod.snd).prod), ?_, ?_⟩
    · rw [forall_mem_cons]
      refine ⟨?_, fun e he => ?_⟩
      · rw [update_self]
        exact Nat.div_lt_of_lt_mul (by rwa [Nat.mul_comm])
      · rw [update_of_ne (hother e he)]
        exact hf e he
    · have hmap : (dims.map fun e => (e.2, update f d.1
          (x / (dims.map Prod.snd).prod) e.1)) = dims.map fun e => (e.2, f e.1) :=
        map_congr_left fun e he => by rw [update_of_ne (hother e he)]
      have hspan : span (dims.map fun e => (e.2, f e.1)) = (dims.map Prod.snd).prod := by
        simp [span, map_map, Function.comp_def]
      rw [map_cons, place, hmap, hplace, hspan, update_self]
      exact Nat.div_add_mod' x _

end Kvbm.Lib
