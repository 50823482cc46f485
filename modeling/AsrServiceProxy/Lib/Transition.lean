import Mathlib.Data.Nat.Init
import Mathlib.Logic.Function.Basic

namespace Transition

-- An action that is not enabled in a state has no successor there.
structure System (σ α : Type*) where
  init : σ → Prop
  step : σ → α → Option σ

namespace System

variable {σ α : Type*} (S : System σ α)

def run : σ → List α → Option σ
  | s, [] => some s
  | s, a :: rest => (S.step s a).bind fun t => run t rest

-- The states reached by runs whose steps all meet `cond`, a condition on the
-- state before the step and the action taken there.
inductive ReachableWhen (cond : σ → α → Prop) : σ → Prop
  | init {s : σ} : S.init s → ReachableWhen cond s
  | step {s t : σ} {a : α} : ReachableWhen cond s → cond s a → S.step s a = some t →
      ReachableWhen cond t

def Reachable (s : σ) : Prop := S.ReachableWhen (fun _ _ => True) s

-- The run along the actions, as long as its steps meet `cond`.
def runWhen (cond : σ → α → Prop) [∀ s a, Decidable (cond s a)] : σ → List α → Option σ
  | s, [] => some s
  | s, a :: rest => if cond s a then (S.step s a).bind fun t => runWhen cond t rest else none

-- Every step of the run along the actions meets `cond`, which need not be decidable.
def Meets (cond : σ → α → Prop) : σ → List α → Prop
  | _, [] => True
  | s, a :: rest =>
      cond s a ∧
        match S.step s a with
        | some t => Meets cond t rest
        | none => True

variable {S} {cond : σ → α → Prop}

-- The rule by which every safety result is proved: the invariant holds at the
-- start and one step keeps it.
theorem ReachableWhen.invariant {I : σ → Prop} (hinit : ∀ s, S.init s → I s)
    (hstep : ∀ s a t, I s → cond s a → S.step s a = some t → I t)
    {s : σ} (h : S.ReachableWhen cond s) : I s := by
  induction h with
  | init h => exact hinit _ h
  | step _ hc hs ih => exact hstep _ _ _ ih hc hs

theorem Reachable.invariant {I : σ → Prop} (hinit : ∀ s, S.init s → I s)
    (hstep : ∀ s a t, I s → S.step s a = some t → I t)
    {s : σ} (h : S.Reachable s) : I s :=
  ReachableWhen.invariant hinit (fun s a t hi _ hs => hstep s a t hi hs) h

theorem ReachableWhen.runWhen [∀ s a, Decidable (cond s a)] {s t : σ} {actions : List α}
    (h : S.ReachableWhen cond s) (hr : S.runWhen cond s actions = some t) :
    S.ReachableWhen cond t := by
  induction actions generalizing s with
  | nil =>
      cases hr
      exact h
  | cons a rest ih =>
      rw [System.runWhen] at hr
      split at hr
      next hc =>
        obtain ⟨u, hu, hr⟩ := Option.bind_eq_some_iff.mp hr
        exact ih (h.step hc hu) hr
      next => cases hr

theorem ReachableWhen.run {s t : σ} {actions : List α} (h : S.ReachableWhen cond s)
    (hm : S.Meets cond s actions) (hr : S.run s actions = some t) : S.ReachableWhen cond t := by
  induction actions generalizing s with
  | nil =>
      cases hr
      exact h
  | cons a rest ih =>
      obtain ⟨u, hu, hr⟩ := Option.bind_eq_some_iff.mp hr
      obtain ⟨hc, hm⟩ := hm
      rw [hu] at hm
      exact ih (h.step hc hu) hm hr

theorem Meets.of_forall (h : ∀ s a, cond s a) (s : σ) (actions : List α) :
    S.Meets cond s actions := by
  induction actions generalizing s with
  | nil => trivial
  | cons a rest ih =>
      refine ⟨h s a, ?_⟩
      cases S.step s a with
      | none => trivial
      | some t => exact ih t

theorem Reachable.run {s t : σ} {actions : List α} (h : S.Reachable s)
    (hr : S.run s actions = some t) : S.Reachable t := by
  induction actions generalizing s with
  | nil =>
      cases hr
      exact h
  | cons a rest ih =>
      obtain ⟨u, hu, hr⟩ := Option.bind_eq_some_iff.mp hr
      exact ih (h.step trivial hu) hr

-- A state that is never stuck before `Done` and always has a step down in rank
-- that keeps the invariant can be run to `Done`.
theorem exists_run_of_rank {I Done : σ → Prop} (rank : σ → ℕ)
    (hstep : ∀ s, I s → Done s ∨ ∃ a t, S.step s a = some t ∧ I t ∧ rank t < rank s)
    {s : σ} (h : I s) : ∃ actions t, S.run s actions = some t ∧ I t ∧ Done t := by
  induction hn : rank s using Nat.strong_induction_on generalizing s with
  | h n ih =>
      rcases hstep s h with hd | ⟨a, t, hs, hi, hlt⟩
      · exact ⟨[], s, rfl, h, hd⟩
      · obtain ⟨actions, u, hr, hi, hd⟩ := ih (rank t) (by omega) hi rfl
        refine ⟨a :: actions, u, ?_, hi, hd⟩
        rw [System.run, hs]
        exact hr

-- A relation between the state before and after, kept by one step, is kept
-- by a whole run.
theorem run_relation {R : σ → σ → Prop} (hrefl : ∀ s, R s s)
    (htrans : ∀ s t u, R s t → R t u → R s u)
    (hstep : ∀ s a t, S.step s a = some t → R s t)
    {s t : σ} {actions : List α} (hr : S.run s actions = some t) : R s t := by
  induction actions generalizing s with
  | nil =>
      cases hr
      exact hrefl _
  | cons a rest ih =>
      obtain ⟨u, hu, hr⟩ := Option.bind_eq_some_iff.mp hr
      exact htrans s u t (hstep s a u hu) (ih hr)

end System

end Transition
