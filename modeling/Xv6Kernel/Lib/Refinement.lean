import Xv6Kernel.Lib.Machine

/-!
# Refinement of machines that can stop

A concrete machine `step₁` refines an abstract one `step₂` through an abstraction `abs` when,
from every state where an invariant `I` holds, a step of `step₁` and the step of `step₂` on the
same label from the abstract state agree: a next state is matched by the abstraction of it,
and an error by the same error.  The concrete machine may also stop with errors the abstract
one does not have, those of resources the abstraction leaves out (a disk that is full); these
are the `spare` errors, and an abstract step may do anything against them.

* `Machine.Tracks abs spare r₁ r₂` : the result `r₁` of a concrete step or run is matched by the
  result `r₂` of the abstract one.
* `Machine.Refines step₁ step₂ I abs spare` : `I` is kept by every step, and every step from a
  state where `I` holds is matched.
* `Machine.Refines.run` : whole runs are matched, label by label, from any state where `I`
  holds; `Machine.Refines.reach` : so are the reachable states.
* `Machine.Refines.run_error` : every error of a run of the concrete machine is spare or is an
  error that the abstract machine can stop with.
-/

namespace Xv6Kernel

namespace Machine

variable {σ τ α ε : Type*}

/-- The result `r₁` of the concrete machine is matched by the result `r₂` of the abstract one:
a state by its abstraction, an error by the same error, unless the error is spare. -/
def Tracks (abs : σ → τ) (spare : ε → Prop) : Except ε σ → Except ε τ → Prop
  | .ok s, r => r = .ok (abs s)
  | .error e, r => spare e ∨ r = .error e

section Tracks

variable {abs : σ → τ} {spare : ε → Prop}

@[simp] theorem tracks_ok {s : σ} {r : Except ε τ} :
    Tracks abs spare (.ok s) r ↔ r = .ok (abs s) := Iff.rfl

@[simp] theorem tracks_error {e : ε} {r : Except ε τ} :
    Tracks abs spare (.error e) r ↔ spare e ∨ r = .error e := Iff.rfl

/-- The same error on both sides is matched. -/
theorem Tracks.of_error {e : ε} : Tracks abs spare (.error e) (.error e : Except ε τ) :=
  .inr rfl

/-- A spare error is matched by anything. -/
theorem Tracks.of_spare {e : ε} (h : spare e) (r : Except ε τ) : Tracks abs spare (.error e) r :=
  .inl h

end Tracks

/-- `step₁` refines `step₂` through `abs`, from the states where `I` holds, up to the errors
`spare`. -/
structure Refines (step₁ : σ → α → Except ε σ) (step₂ : τ → α → Except ε τ) (I : σ → Prop)
    (abs : σ → τ) (spare : ε → Prop) : Prop where
  /-- Every step keeps the invariant. -/
  inv : ∀ {s s' : σ} (a : α), I s → step₁ s a = .ok s' → I s'
  /-- Every step from a state where the invariant holds is matched. -/
  tracks : ∀ {s : σ} (a : α), I s → Tracks abs spare (step₁ s a) (step₂ (abs s) a)

namespace Refines

variable {step₁ : σ → α → Except ε σ} {step₂ : τ → α → Except ε τ} {I : σ → Prop}
  {abs : σ → τ} {spare : ε → Prop}

/-- **Runs are matched.**  The induction is on the labels; after a step that stops, both runs
have stopped with the error of that step. -/
theorem run (h : Refines step₁ step₂ I abs spare) :
    ∀ (as : List α) {s : σ}, I s → Tracks abs spare (Machine.run step₁ s as) (Machine.run step₂ (abs s) as)
  | [], _, _ => rfl
  | a :: as, s, hs => by
    have ht := h.tracks a hs
    rw [run_cons, run_cons]
    cases h₁ : step₁ s a with
    | error e =>
      rw [h₁] at ht
      rcases ht with hsp | he
      · exact .of_spare hsp _
      · rw [he]
        exact .of_error
    | ok s' =>
      rw [h₁, tracks_ok] at ht
      rw [ht]
      exact h.run as (h.inv a hs h₁)

/-- The abstraction of a state reached from `s₀` is reached from the abstraction of `s₀`. -/
theorem reach (h : Refines step₁ step₂ I abs spare) {s₀ s : σ} (h₀ : I s₀)
    (hr : Reach step₁ s₀ s) : Reach step₂ (abs s₀) (abs s) := by
  obtain ⟨as, has⟩ := exists_run_of_reach hr
  have ht := h.run as h₀
  rw [has, tracks_ok] at ht
  exact reach_of_run ht

/-- When every error of the abstract machine satisfies `P`, every error of a concrete run is
spare or satisfies `P`. -/
theorem run_error (h : Refines step₁ step₂ I abs spare) {P : ε → Prop}
    (hP : ∀ t a e, step₂ t a = .error e → P e) {s : σ} (hs : I s) {as : List α} {e : ε}
    (he : Machine.run step₁ s as = .error e) : spare e ∨ P e := by
  have ht := h.run as hs
  rw [he, tracks_error] at ht
  rcases ht with hsp | he₂
  · exact .inl hsp
  · exact .inr (run_error_of hP he₂)

end Refines

end Machine

end Xv6Kernel
