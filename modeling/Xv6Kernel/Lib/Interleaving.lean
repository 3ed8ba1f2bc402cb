import Mathlib.Algebra.BigOperators.Group.Finset.Basic
import Xv6Kernel.Lib.Machine

/-!
# Threads interleaved over a shared state

A system of threads `θ`, each at a program point of `π`, over a state `σ` they share.  The
program of a thread says what one atomic step of it does from its point: the next point and
the new shared state, or a stop with an error `ε`.  The system is the machine whose labels are
the threads (`Interleaving.step`): at each step any one thread takes its next atomic step, so
`Machine.Reach` over it ranges over every interleaving of the threads.  A thread that waits
(spins on a lock, sleeps, has finished) takes a step that changes nothing.

* `Interleaving.step_eq_ok` : a step moves only the thread that takes it.
* `Interleaving.sum_pc_step` : how a sum over the threads' points changes in a step, for
  invariants that count the threads at some points.
-/

namespace Xv6Kernel

namespace Interleaving

/-- The program points of the threads and the state they share. -/
structure Config (θ π σ : Type*) where
  pc : θ → π
  shared : σ

variable {θ π σ ε : Type*} [DecidableEq θ]

/-- Thread `t` takes one atomic step of its program `prog t` from its point. -/
def step (prog : θ → π → σ → Except ε (π × σ)) (s : Config θ π σ) (t : θ) :
    Except ε (Config θ π σ) :=
  match prog t (s.pc t) s.shared with
  | .ok (p, g) => .ok ⟨Function.update s.pc t p, g⟩
  | .error e => .error e

variable {prog : θ → π → σ → Except ε (π × σ)} {s s' : Config θ π σ} {t : θ}

theorem step_of_prog {p : π} {g : σ} (h : prog t (s.pc t) s.shared = .ok (p, g)) :
    step prog s t = .ok ⟨Function.update s.pc t p, g⟩ := by
  rw [step, h]

/-- A thread whose program leaves it where it is, and the shared state as it is (a spin, a wait),
leaves the configuration as it is. -/
theorem step_of_stay (h : prog t (s.pc t) s.shared = .ok (s.pc t, s.shared)) :
    step prog s t = .ok s := by
  rw [step_of_prog h, Function.update_eq_self]

/-- **A step moves only the thread that takes it.** -/
theorem step_eq_ok : step prog s t = .ok s' ↔
    prog t (s.pc t) s.shared = .ok (s'.pc t, s'.shared) ∧ ∀ u ≠ t, s'.pc u = s.pc u := by
  unfold step
  constructor
  · intro h
    split at h
    · cases h
      exact ⟨by simp_all, fun u hu => Function.update_of_ne hu _ _⟩
    · cases h
  · rintro ⟨h, hother⟩
    obtain ⟨pc', g'⟩ := s'
    rw [h]
    simp only [Except.ok.injEq, Config.mk.injEq, and_true]
    funext u
    by_cases hu : u = t
    · subst hu
      simp
    · rw [Function.update_of_ne hu]
      exact (hother u hu).symm

/-- A step stops exactly when the thread's program stops. -/
theorem step_eq_error {e : ε} : step prog s t = .error e ↔ prog t (s.pc t) s.shared = .error e := by
  unfold step
  rcases prog t (s.pc t) s.shared with e' | ⟨p, g⟩ <;> simp

theorem step_pc_other (h : step prog s t = .ok s') {u : θ} (hu : u ≠ t) : s'.pc u = s.pc u :=
  (step_eq_ok.1 h).2 u hu

/-- The sum of a weight over the threads' points after thread `t` moves to `p`: the weight of
its old point leaves the sum and that of `p` enters it. -/
theorem sum_pc_update [Fintype θ] {M : Type*} [AddCommGroup M] (w : π → M) (f : θ → π) (t : θ)
    (p : π) : ∑ u, w (Function.update f t p u) = ∑ u, w (f u) - w (f t) + w p := by
  have hrest : ∑ u ∈ Finset.univ.erase t, w (Function.update f t p u) =
      ∑ u ∈ Finset.univ.erase t, w (f u) :=
    Finset.sum_congr rfl fun u hu => by rw [Function.update_of_ne (Finset.ne_of_mem_erase hu)]
  rw [← Finset.add_sum_erase _ _ (Finset.mem_univ t), ← Finset.add_sum_erase _ _ (Finset.mem_univ t),
    Function.update_self, hrest, add_sub_cancel_left, add_comm]

/-- How a sum over the threads' points changes in a step of thread `t`. -/
theorem sum_pc_step [Fintype θ] {M : Type*} [AddCommGroup M] (w : π → M)
    (h : step prog s t = .ok s') : ∑ u, w (s'.pc u) = ∑ u, w (s.pc u) - w (s.pc t) + w (s'.pc t) := by
  have hpc : s'.pc = Function.update s.pc t (s'.pc t) := by
    funext u
    by_cases hu : u = t
    · subst hu
      simp
    · rw [Function.update_of_ne hu, step_pc_other h hu]
  conv_lhs => rw [hpc]
  exact sum_pc_update w s.pc t (s'.pc t)

end Interleaving

end Xv6Kernel
