/-
Runs of a partial step function.

A component is a state, a set of actions and a function that takes one action in
one state, and returns nothing where the action cannot be taken or does not come
back.  What is proved of such a component is almost always of one kind: something
holds at the start, every action keeps it, so it holds wherever a run can get to.
The induction behind that is done here, once, for any state and any action.
-/
import Mathlib.Data.Option.Basic

namespace Kvbm.Lib

variable {σ α : Type*}

/-- States a run from a start state gets to, when each action taken meets `ok`. -/
inductive ReachableWhile (ok : σ → α → Prop) (init : σ → Prop) (step : σ → α → Option σ) :
    σ → Prop
  | init {s : σ} : init s → ReachableWhile ok init step s
  | step {s s' : σ} {a : α} :
      ReachableWhile ok init step s → ok s a → step s a = some s' → ReachableWhile ok init step s'

/-- States any run from a start state gets to. -/
abbrev Reachable (init : σ → Prop) (step : σ → α → Option σ) : σ → Prop :=
  ReachableWhile (fun _ _ => True) init step

variable {step : σ → α → Option σ} {init : σ → Prop} {ok : σ → α → Prop} {P : σ → Prop}
  {acts : List α} {s s' : σ}

/-- **What holds at the start and is kept by every permitted action holds throughout.** -/
theorem ReachableWhile.invariant {s : σ} (h : ReachableWhile ok init step s)
    (hinit : ∀ s, init s → P s)
    (hstep : ∀ s a s', P s → ok s a → step s a = some s' → P s') : P s := by
  induction h with
  | init hi => exact hinit _ hi
  | step _ hok hs ih => exact hstep _ _ _ ih hok hs

theorem Reachable.invariant {s : σ} (h : Reachable init step s) (hinit : ∀ s, init s → P s)
    (hstep : ∀ s a s', P s → step s a = some s' → P s') : P s :=
  ReachableWhile.invariant h hinit fun s a s' hp _ hs => hstep s a s' hp hs

theorem ReachableWhile.mono {ok ok' : σ → α → Prop} {s : σ} (h : ReachableWhile ok init step s)
    (hle : ∀ s a, ok s a → ok' s a) : ReachableWhile ok' init step s := by
  induction h with
  | init hi => exact .init hi
  | step _ hok hs ih => exact .step ih (hle _ _ hok) hs

theorem ReachableWhile.toReachable {s : σ} (h : ReachableWhile ok init step s) :
    Reachable init step s :=
  h.mono fun _ _ _ => trivial

/-- Take the actions of a list in order. -/
def runList (step : σ → α → Option σ) : σ → List α → Option σ
  | s, [] => some s
  | s, a :: rest => (step s a).bind fun s' => runList step s' rest

/-- Take the actions of a list in order, as long as they meet `ok`. -/
def runListWhile (ok : σ → α → Prop) [∀ s a, Decidable (ok s a)] (step : σ → α → Option σ) :
    σ → List α → Option σ
  | s, [] => some s
  | s, a :: rest =>
    if ok s a then (step s a).bind fun s' => runListWhile ok step s' rest else none

theorem ReachableWhile.runListWhile [∀ s a, Decidable (ok s a)]
    (h : ReachableWhile ok init step s) :
    ∀ {acts : List α}, runListWhile ok step s acts = some s' → ReachableWhile ok init step s' := by
  intro acts
  induction acts generalizing s with
  | nil =>
    intro hr
    cases hr
    exact h
  | cons a rest ih =>
    intro hr
    rw [Lib.runListWhile] at hr
    split at hr
    · rename_i hok
      obtain ⟨t, hst, hrt⟩ := Option.bind_eq_some_iff.mp hr
      exact ih (.step h hok hst) hrt
    · cases hr

/-- Go on with actions that are permitted in every state. -/
theorem ReachableWhile.runList (h : ReachableWhile ok init step s) :
    ∀ {acts : List α}, (∀ a ∈ acts, ∀ s, ok s a) → Lib.runList step s acts = some s' →
      ReachableWhile ok init step s' := by
  intro acts
  induction acts generalizing s with
  | nil =>
    intro _ hr
    cases hr
    exact h
  | cons a rest ih =>
    intro hok hr
    obtain ⟨t, hst, hrt⟩ := Option.bind_eq_some_iff.mp hr
    exact ih (.step h (hok a List.mem_cons_self s) hst)
      (fun b hb => hok b (List.mem_cons_of_mem a hb)) hrt

theorem Reachable.runList (h : Reachable init step s) (hr : runList step s acts = some s') :
    Reachable init step s' :=
  ReachableWhile.runList h (fun _ _ _ => trivial) hr

/-- A run that is evaluated gets somewhere. -/
theorem exists_of_map {β : Type*} {r : Option σ} {f : σ → β} {b : β} (h : r.map f = some b)
    (hP : ∀ s, r = some s → f s = b → P s) : ∃ s, r = some s ∧ P s := by
  obtain ⟨s, hs, hb⟩ := Option.map_eq_some_iff.mp h
  exact ⟨s, hs, hP s hs hb⟩

/-- What every action keeps holds at the end of a list of them. -/
theorem runList_invariant (hr : runList step s acts = some s') (hs : P s)
    (hstep : ∀ s a s', P s → step s a = some s' → P s') : P s' := by
  have hreach : Reachable (· = s) step s' := Reachable.runList (.init rfl) hr
  refine hreach.invariant ?_ hstep
  rintro t rfl
  exact hs

end Kvbm.Lib
