import Xv6Kernel.Lib.LockOrder
import Xv6Kernel.Proc.State

/-!
# The order in which kernel paths take spinlocks (`proc.c`, `trap.c`, `sysproc.c`,
`semaphore.c`)

The spinlock operations of the kernel paths the scheduler changed, in the order each path makes
them, on the branch named in its docstring, with the lock operations of the functions it calls
(`wakeup`, `sleep`, `mlfqrm`'s and `priboost`'s callers) inlined.  Each CPU runs one path from no
lock held, and the CPUs are interleaved (`LockOrder`).

* `yield` takes `ptable.lock`, then `tickslock` for the priority boost.
* The clock interrupt on CPU 0 takes `tickslock` to count the tick, then `ptable.lock` in
  `wakeup(&ticks)`; `sys_sleep` takes `tickslock`, then `ptable.lock` in `sleep`.
* `spinlock_deadlock` : no strict order on the locks is respected by both `yield` and the clock
  interrupt, and CPU 1 in `yield` with CPU 0 taking its clock interrupt reach a state where each
  spins on the lock the other holds, and stay there whatever happens next.
-/

namespace Xv6Kernel

open LockOrder

/-- The spinlocks the modelled paths take. -/
inductive Lock
  /-- `ptable.lock`. -/
  | ptable
  /-- `tickslock`. -/
  | tickslock
  /-- `mlfqstr.lock`. -/
  | mlfqstr
  /-- `semaphore->lock` of one semaphore. -/
  | xem
  deriving DecidableEq, Repr

/-- `yield()`, by a process with at most one thread that has not used up its time quantum nor
its allotment: no context switch. -/
def yieldPath : List (Op Lock) :=
  [.acquire .ptable, .acquire .tickslock, .acquire .mlfqstr, .release .tickslock,
   .release .mlfqstr, .release .ptable]

/-- The clock interrupt in `trap()` on CPU 0: `ticks++` and `wakeup(&ticks)`, with no process
sleeping on `&ticks`. -/
def timerPath : List (Op Lock) :=
  [.acquire .tickslock, .acquire .ptable, .release .ptable, .release .tickslock]

/-- `sys_sleep(n)` with `n > 0`, up to the context switch in `sleep`: the process leaves the
MLFQ, and `ptable.lock` passes to the scheduler. -/
def sysSleepPath : List (Op Lock) :=
  [.acquire .tickslock, .acquire .ptable, .release .tickslock, .acquire .mlfqstr,
   .release .mlfqstr]

/-- `xem_wait` on a semaphore whose value is not positive, up to the context switch in
`sleep`. -/
def xemWaitPath : List (Op Lock) :=
  [.acquire .xem, .acquire .ptable, .release .xem, .acquire .mlfqstr, .release .mlfqstr]

/-- `xem_post`: `wakeup_one` takes no lock. -/
def xemPostPath : List (Op Lock) :=
  [.acquire .xem, .release .xem]

/-- The modelled kernel paths. -/
def kernelPaths : List (List (Op Lock)) :=
  [yieldPath, timerPath, sysSleepPath, xemWaitPath, xemPostPath]

section Order

variable {r : Lock → Lock → Prop}

/-- `yield` holds `ptable.lock` when it takes `tickslock`. -/
theorem ptable_before_tickslock (h : Respects r ∅ yieldPath) : r .ptable .tickslock :=
  h.2.1 .ptable (by simp)

/-- The clock interrupt holds `tickslock` when it takes `ptable.lock`. -/
theorem tickslock_before_ptable (h : Respects r ∅ timerPath) : r .tickslock .ptable :=
  h.2.1 .tickslock (by simp)

/-- No strict order is respected by both `yield` and the clock interrupt. -/
theorem no_lock_order [IsStrictOrder Lock r] :
    ¬ (Respects r ∅ yieldPath ∧ Respects r ∅ timerPath) := by
  rintro ⟨hyield, htimer⟩
  have hcycle : r .ptable .ptable :=
    trans_of r (ptable_before_tickslock hyield) (tickslock_before_ptable htimer)
  exact irrefl _ hcycle

end Order

/-- CPU 0 takes its clock interrupt, CPU 1 yields, the other CPUs take no lock. -/
def timerAndYield (c : CpuId) : List (Op Lock) :=
  if c = 0 then timerPath else if c = 1 then yieldPath else []

/-- CPU 1 takes `ptable.lock`, then CPU 0 takes `tickslock`. -/
theorem timerAndYield_run :
    ∃ s, Machine.run (Interleaving.step lockProg) (LockOrder.start timerAndYield) [1, 0] = .ok s ∧
      s.pc 0 = timerPath.tail ∧ s.pc 1 = yieldPath.tail ∧
      s.shared .ptable = some 1 ∧ s.shared .tickslock = some 0 := by
  refine ⟨_, rfl, ?_⟩
  decide

/-- **The spinlocks can deadlock.**  No strict order on the locks is respected by every kernel
path; and from CPU 1 in `yield` and CPU 0 taking its clock interrupt, a state is reached where
CPU 0 spins on `ptable.lock`, which CPU 1 holds, and CPU 1 spins on `tickslock`, which CPU 0
holds, and they stay so whatever any CPU does next. -/
theorem spinlock_deadlock :
    (∀ r : Lock → Lock → Prop, IsStrictOrder Lock r → ¬ ∀ p ∈ kernelPaths, Respects r ∅ p) ∧
    ∃ s, Machine.Reach (Interleaving.step lockProg) (LockOrder.start timerAndYield) s ∧
      ∀ s', Machine.Reach (Interleaving.step lockProg) s s' →
        Deadlocked s' {(0 : CpuId), 1} := by
  constructor
  · intro r _ hall
    exact no_lock_order ⟨hall yieldPath (by simp [kernelPaths]), hall timerPath (by simp [kernelPaths])⟩
  · obtain ⟨s, hrun, hpc0, hpc1, hptable, hticks⟩ := timerAndYield_run
    have hdead : Deadlocked s {(0 : CpuId), 1} := by
      refine ⟨⟨0, by simp⟩, fun c hc => ?_⟩
      rcases hc with rfl | rfl
      · -- CPU 0 waits for `ptable.lock`
        exact ⟨.ptable, _, 1, hpc0, hptable, by decide, by simp⟩
      · -- CPU 1 waits for `tickslock`
        exact ⟨.tickslock, _, 0, hpc1, hticks, by decide, by simp⟩
    exact ⟨s, Machine.reach_of_run hrun, fun s' hs' => hdead.reach hs'⟩

end Xv6Kernel
