import Mathlib.Data.Fintype.Card
import Mathlib.Order.WellFounded
import Xv6Kernel.Lib.Interleaving

/-!
# Spinlocks taken in order

Threads `θ` that each run a list of lock operations on locks `κ`, interleaved
(`Interleaving.step`).  The shared state says which thread holds each lock.  `acquire l` takes a
free lock, spins while another thread holds it, and stops with an error on a lock the thread
already holds; `release l` frees a lock the thread holds and stops with an error otherwise.

A program **respects** a relation `r` on the locks (`Respects`) when it acquires a lock only
while every lock it holds precedes it in `r`.  A set of threads is **deadlocked** when each of
them spins on a lock that another thread of the set holds.

* `step_moves` : what one step of a thread can do, and that no other thread moves.
* `Deadlocked.reach` : a deadlock is permanent: whatever the threads do next, the same threads
  stay deadlocked.
-/

namespace Xv6Kernel

namespace LockOrder

/-- An operation on a lock. -/
inductive Op (κ : Type*)
  | acquire (l : κ)
  | release (l : κ)
  deriving DecidableEq, Repr

variable {θ κ : Type*}

/-- The holder of each lock. -/
abbrev Holders (θ κ : Type*) := κ → Option θ

/-- The threads with the operations they have still to make, and the holders of the locks. -/
abbrev Cpus (θ κ : Type*) := Interleaving.Config θ (List (Op κ)) (Holders θ κ)

/-- Each thread about to run its program, no lock held. -/
def start (progs : θ → List (Op κ)) : Cpus θ κ := ⟨progs, fun _ => none⟩

/-- The program acquires a lock only while every lock it holds, starting from `H`, precedes it
in `r`. -/
def Respects (r : κ → κ → Prop) : Set κ → List (Op κ) → Prop
  | _, [] => True
  | H, .acquire l :: ops => (∀ m ∈ H, r m l) ∧ Respects r (insert l H) ops
  | H, .release l :: ops => Respects r (H \ {l}) ops

/-- The threads of `T` are deadlocked: each spins on a lock that another thread of `T` holds. -/
def Deadlocked (s : Cpus θ κ) (T : Set θ) : Prop :=
  T.Nonempty ∧ ∀ t ∈ T, ∃ l ops u, s.pc t = .acquire l :: ops ∧ s.shared l = some u ∧ u ≠ t ∧ u ∈ T

variable {s s' : Cpus θ κ}

/-! ### What one operation does -/

section Moves

variable [DecidableEq κ]

/-- What one operation of thread `t` can do. -/
inductive Moves (t : θ) : List (Op κ) → Holders θ κ → List (Op κ) → Holders θ κ → Prop
  /-- Nothing: the program has ended, or the lock is held by another thread. -/
  | stay {ops g} : Moves t ops g ops g
  | acquire {l ops g} : g l = none → Moves t (.acquire l :: ops) g ops (Function.update g l (some t))
  | release {l ops g} : g l = some t → Moves t (.release l :: ops) g ops (Function.update g l none)

variable {t : θ} {ops ops' : List (Op κ)} {g g' : Holders θ κ}

namespace Moves

/-- A lock that another thread holds keeps its holder. -/
theorem holder_of_ne (hm : Moves t ops g ops' g') {l : κ} {u : θ} (hl : g l = some u)
    (hu : u ≠ t) : g' l = some u := by
  cases hm with
  | stay => exact hl
  | @acquire l₀ _ _ hfree =>
    by_cases hl₀ : l = l₀
    · subst hl₀
      simp_all
    · rwa [Function.update_of_ne hl₀]
  | @release l₀ _ _ hheld =>
    by_cases hl₀ : l = l₀
    · subst hl₀
      simp_all
    · rwa [Function.update_of_ne hl₀]

/-- A thread at the acquire of a lock that is held only spins. -/
theorem spin {l : κ} {u : θ} (hm : Moves t (.acquire l :: ops) g ops' g')
    (hl : g l = some u) : ops' = .acquire l :: ops ∧ g' = g := by
  cases hm with
  | stay => exact ⟨rfl, rfl⟩
  | acquire hfree => simp [hl] at hfree

end Moves

end Moves

/-! ### The interleaved threads -/

variable [DecidableEq θ] [DecidableEq κ] {t : θ}

/-- One operation of thread `t`. -/
def lockProg (t : θ) : List (Op κ) → Holders θ κ → Except String (List (Op κ) × Holders θ κ)
  | [], g => .ok ([], g)
  | .acquire l :: ops, g =>
    match g l with
    | none => .ok (ops, Function.update g l (some t))
    | some u => if u = t then .error "acquire" else .ok (.acquire l :: ops, g)
  | .release l :: ops, g =>
    if g l = some t then .ok (ops, Function.update g l none) else .error "release"

theorem lockProg_moves {ops ops' : List (Op κ)} {g g' : Holders θ κ}
    (h : lockProg t ops g = .ok (ops', g')) : Moves t ops g ops' g' := by
  match ops, h with
  | [], h =>
    cases h
    exact .stay
  | .acquire l :: ops, h =>
    simp only [lockProg] at h
    split at h
    · rename_i hfree
      cases h
      exact .acquire hfree
    · split_ifs at h
      cases h
      exact .stay
  | .release l :: ops, h =>
    simp only [lockProg] at h
    split_ifs at h with hheld
    cases h
    exact .release hheld

/-- **What a step can do**: the thread that takes it makes one of its moves, and no other
thread moves. -/
theorem step_moves (h : Interleaving.step lockProg s t = .ok s') :
    Moves t (s.pc t) s.shared (s'.pc t) s'.shared ∧ ∀ u ≠ t, s'.pc u = s.pc u := by
  obtain ⟨hprog, hother⟩ := Interleaving.step_eq_ok.1 h
  exact ⟨lockProg_moves hprog, hother⟩

/-! ### A deadlock is permanent -/

/-- A step of any thread keeps a deadlocked set deadlocked: its threads only spin, and no other
thread can free a lock that a thread of the set holds. -/
theorem Deadlocked.step {T : Set θ} (hd : Deadlocked s T)
    (h : Interleaving.step lockProg s t = .ok s') : Deadlocked s' T := by
  obtain ⟨hm, hother⟩ := step_moves h
  have hspin : t ∈ T → s'.pc t = s.pc t ∧ s'.shared = s.shared := by
    intro htT
    obtain ⟨l, ops, u, hpc, hl, -, -⟩ := hd.2 t htT
    rw [hpc] at hm ⊢
    exact hm.spin hl
  refine ⟨hd.1, fun v hv => ?_⟩
  obtain ⟨l, ops, u, hpc, hl, huv, huT⟩ := hd.2 v hv
  have hpc' : s'.pc v = s.pc v := by
    by_cases hvt : v = t
    · subst hvt
      exact (hspin hv).1
    · exact hother v hvt
  have hl' : s'.shared l = some u := by
    by_cases hut : u = t
    · subst hut
      rw [(hspin huT).2]
      exact hl
    · exact hm.holder_of_ne hl hut
  exact ⟨l, ops, u, by rw [hpc', hpc], hl', huv, huT⟩

theorem Deadlocked.reach {T : Set θ} (hd : Deadlocked s T)
    (hs : Machine.Reach (Interleaving.step lockProg) s s') : Deadlocked s' T :=
  hs.invariant hd fun _ _ _ hi hst => Deadlocked.step hi hst

end LockOrder

end Xv6Kernel
