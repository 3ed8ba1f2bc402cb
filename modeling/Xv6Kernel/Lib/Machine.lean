import Mathlib.Logic.Relation

/-!
# Deterministic machines that can stop

A machine is a step function `step : σ → α → Except ε σ`: from a state, a label (the action
taken, with its arguments) either leads to one next state or stops the machine with an error
`ε` (a kernel panic, or behaviour the model leaves undefined).  Nothing else is assumed, so the
notions here serve any system modelled by a step function.

* `Machine.Reach step s₀ s` : `s` is reached from `s₀` by steps that do not stop.
* `Machine.run` : the result of performing a list of labels in order.
* `Machine.Reach.invariant` : a predicate that holds at `s₀` and that every step keeps holds
  at every reachable state.
* `Machine.ReachWhile step P s₀ s` : reachability by steps each taken from a state satisfying
  `P`, with its own `invariant` rule, for a guarantee that needs a guard at every step.
* `Machine.ReachAllowed step P s₀ s` : the same, with a guard `P s a` on the label of each step
  and the state it is taken from: what the environment of a component promises it.
* `Machine.reach_iff_run` : reachability is the same as running some trace; a concrete trace
  evaluated by the kernel is how a reachable state with a given property is exhibited
  (`Machine.exists_reach_of_run`).
-/

namespace Xv6Kernel

namespace Machine

variable {σ α ε : Type*} (step : σ → α → Except ε σ)

/-- `Reach step s₀ s` : `s` is reached from `s₀` by zero or more steps, none of which stops. -/
inductive Reach (s₀ : σ) : σ → Prop
  | refl : Reach s₀ s₀
  | tail {s s' : σ} (a : α) : Reach s₀ s → step s a = .ok s' → Reach s₀ s'

/-- Perform the labels of a list in order; the first step that stops stops the run. -/
def run : σ → List α → Except ε σ
  | s, [] => .ok s
  | s, a :: as => (step s a).bind fun s' => run s' as

variable {step}

@[simp] theorem run_nil (s : σ) : run step s [] = .ok s := rfl

theorem run_cons (s : σ) (a : α) (as : List α) :
    run step s (a :: as) = (step s a).bind fun s' => run step s' as := rfl

theorem run_append (s : σ) (as bs : List α) :
    run step s (as ++ bs) = (run step s as).bind fun s' => run step s' bs := by
  induction as generalizing s with
  | nil => rfl
  | cons a as ih =>
    simp only [List.cons_append, run_cons]
    cases step s a with
    | error e => rfl
    | ok s' => exact ih s'

namespace Reach

theorem single {s₀ s : σ} (a : α) (h : step s₀ a = .ok s) : Reach step s₀ s :=
  .tail a .refl h

theorem trans {s₀ s₁ s₂ : σ} (h₁ : Reach step s₀ s₁) (h₂ : Reach step s₁ s₂) :
    Reach step s₀ s₂ := by
  induction h₂ with
  | refl => exact h₁
  | tail a _ hst ih => exact .tail a ih hst

theorem head {s₀ s₁ s : σ} (a : α) (h : step s₀ a = .ok s₁) (h' : Reach step s₁ s) :
    Reach step s₀ s :=
  (single a h).trans h'

/-- **Inductive invariants.**  A predicate true at `s₀` and kept by every step that does not
stop holds at every reachable state. -/
theorem invariant {I : σ → Prop} {s₀ s : σ} (h : Reach step s₀ s) (h₀ : I s₀)
    (hstep : ∀ s a s', I s → step s a = .ok s' → I s') : I s := by
  induction h with
  | refl => exact h₀
  | tail a _ hst ih => exact hstep _ a _ ih hst

/-- A state that every step leaves as it is is never left. -/
theorem eq_of_fixed {s₀ s : σ} (hfix : ∀ a s', step s₀ a = .ok s' → s' = s₀)
    (h : Reach step s₀ s) : s = s₀ := by
  induction h with
  | refl => rfl
  | tail a _ hst ih =>
    subst ih
    exact hfix a _ hst

end Reach

theorem reach_of_run {s₀ s : σ} : ∀ {as : List α}, run step s₀ as = .ok s → Reach step s₀ s
  | [], h => by cases h; exact .refl
  | a :: as, h => by
    rw [run_cons] at h
    cases hs : step s₀ a with
    | error e => rw [hs] at h; cases h
    | ok s₁ =>
      rw [hs] at h
      exact Reach.head a hs (reach_of_run h)

/-- When every step that stops stops with an error that satisfies `P`, so does every run. -/
theorem run_error_of {P : ε → Prop} (hP : ∀ s a e, step s a = .error e → P e) :
    ∀ {s : σ} {as : List α} {e : ε}, run step s as = .error e → P e
  | _, [], _, h => by cases h
  | s, a :: as, e, h => by
    rw [run_cons] at h
    cases hs : step s a with
    | error e' =>
      rw [hs] at h
      cases h
      exact hP s a _ hs
    | ok s' =>
      rw [hs] at h
      exact run_error_of hP h

theorem exists_run_of_reach {s₀ s : σ} (h : Reach step s₀ s) : ∃ as, run step s₀ as = .ok s := by
  induction h with
  | refl => exact ⟨[], rfl⟩
  | tail a _ hst ih =>
    obtain ⟨as, has⟩ := ih
    refine ⟨as ++ [a], ?_⟩
    rw [run_append, has]
    show (step _ a).bind (fun s' => run step s' []) = _
    rw [hst]
    rfl

theorem reach_iff_run {s₀ s : σ} : Reach step s₀ s ↔ ∃ as, run step s₀ as = .ok s :=
  ⟨exists_run_of_reach, fun ⟨_, h⟩ => reach_of_run h⟩

variable (step) in
/-- `ReachWhile step P s₀ s` : `s` is reached from `s₀` by steps that do not stop, each taken
from a state that satisfies `P`. -/
inductive ReachWhile (P : σ → Prop) (s₀ : σ) : σ → Prop
  | refl : ReachWhile P s₀ s₀
  | tail {s s' : σ} (a : α) : ReachWhile P s₀ s → P s → step s a = .ok s' → ReachWhile P s₀ s'

namespace ReachWhile

/-- A predicate true at `s₀` and kept by every step from a state that satisfies `P` holds at
every state reached so. -/
theorem invariant {P I : σ → Prop} {s₀ s : σ} (h : ReachWhile step P s₀ s) (h₀ : I s₀)
    (hstep : ∀ s a s', I s → P s → step s a = .ok s' → I s') : I s := by
  induction h with
  | refl => exact h₀
  | tail a _ hP hst ih => exact hstep _ a _ ih hP hst

end ReachWhile

variable (step) in
/-- `ReachAllowed step P s₀ s` : `s` is reached from `s₀` by steps that do not stop, each with a
label that `P` allows in the state it is taken from. -/
inductive ReachAllowed (P : σ → α → Prop) (s₀ : σ) : σ → Prop
  | refl : ReachAllowed P s₀ s₀
  | tail {s s' : σ} (a : α) : ReachAllowed P s₀ s → P s a → step s a = .ok s' →
      ReachAllowed P s₀ s'

namespace ReachAllowed

/-- A predicate true at `s₀` and kept by every allowed step holds at every state reached so. -/
theorem invariant {P : σ → α → Prop} {I : σ → Prop} {s₀ s : σ} (h : ReachAllowed step P s₀ s)
    (h₀ : I s₀) (hstep : ∀ s a s', I s → P s a → step s a = .ok s' → I s') : I s := by
  induction h with
  | refl => exact h₀
  | tail a _ hP hst ih => exact hstep _ a _ ih hP hst

end ReachAllowed

/-- A trace whose run from `s₀` ends in a state where the boolean test `p` holds exhibits a
reachable state with that property. -/
theorem exists_reach_of_run {s₀ : σ} {as : List α} {p : σ → Bool}
    (h : (run step s₀ as).toOption.map p = some true) : ∃ s, Reach step s₀ s ∧ p s = true := by
  cases hr : run step s₀ as with
  | error e => rw [hr] at h; cases h
  | ok s =>
    rw [hr] at h
    exact ⟨s, reach_of_run hr, Option.some.inj h⟩

end Machine

end Xv6Kernel
