/-
Sequences that are right at every step.

A sequence of actions is stepwise right if each action is, in view of those before it.  Two such
conditions agree on all sequences if they agree on one action after actions that were right.
-/
import Mathlib.Data.List.Induction

namespace Kvbm.Lib

variable {α : Type*} {P Q : List α → α → Prop} {l : List α} {a : α}

/-- Every item of the list is right, in view of the items before it. -/
def Stepwise (P : List α → α → Prop) (l : List α) : Prop :=
  ∀ before a after, l = before ++ a :: after → P before a

theorem stepwise_nil : Stepwise P [] := by
  intro before a after h
  simp at h

theorem stepwise_concat : Stepwise P (l ++ [a]) ↔ Stepwise P l ∧ P l a := by
  constructor
  · intro h
    refine ⟨fun before b after hl => h before b (after ++ [a]) (by simp [hl]), h l a [] rfl⟩
  · intro ⟨hl, ha⟩ before b after heq
    induction after using List.reverseRecOn with
    | nil =>
      obtain ⟨rfl, hlast⟩ := List.append_inj' heq rfl
      obtain rfl : a = b := by simpa using hlast
      exact ha
    | append_singleton after last _ =>
      rw [← List.cons_append, ← List.append_assoc] at heq
      obtain ⟨rfl, -⟩ := List.append_inj' heq rfl
      exact hl before b after rfl

/-- What holds at the start and is kept by every right action holds after right actions. -/
theorem Stepwise.invariant {I : List α → Prop} (h : Stepwise P l) (hnil : I [])
    (hkeep : ∀ l a, I l → P l a → I (l ++ [a])) : I l := by
  induction l using List.reverseRecOn with
  | nil => exact hnil
  | append_singleton l a ih =>
    obtain ⟨hl, ha⟩ := stepwise_concat.mp h
    exact hkeep l a (ih hl) ha

/-- Conditions that agree on the next action agree on sequences. -/
theorem stepwise_congr {I : List α → Prop} (hnil : I []) (hkeep : ∀ l a, I l → P l a → I (l ++ [a]))
    (hiff : ∀ l a, I l → (P l a ↔ Q l a)) : Stepwise P l ↔ Stepwise Q l := by
  induction l using List.reverseRecOn with
  | nil => exact iff_of_true stepwise_nil stepwise_nil
  | append_singleton l a ih =>
    rw [stepwise_concat, stepwise_concat, ← ih]
    exact and_congr_right fun h => hiff l a (h.invariant hnil hkeep)

end Kvbm.Lib
