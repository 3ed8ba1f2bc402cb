import Mathlib.Data.Fintype.Basic
import Xv6Kernel.Lib.Interleaving
import Xv6Kernel.Proc.State

/-!
# The kernel semaphore, statement by statement (`semaphore.c`, `sleep`, `wakeup_one`)

`xem_wait` and `xem_post` on one `xem_t`, by threads on their own CPUs, interleaved at the
granularity of single statements.  Each thread is at a statement (`XemPc`) and has a list of
calls still to make.  The shared state is the semaphore (its value and the holder of its
spinlock), `ptable.lock`, and for each thread's proc its state and whether its `chan` is the
semaphore's.

`xem_wait` holds the semaphore's lock while it tests the value; to sleep it calls
`sleep(&s->chan, &s->lock)`, which takes `ptable.lock`, releases the semaphore's lock, and only
then sets `p->chan` and `p->state = SLEEPING`.  `xem_post` increments the value and calls
`wakeup_one`, which scans the procs for a sleeper on the channel **without** `ptable.lock`.
A post can therefore run entirely between the release of the semaphore's lock and the state
change of a waiter: its scan finds no sleeper, and the waiter goes to sleep with the unit of
the post left in the value.

`wakeup_one`'s scan is one step here; a scan in one step is one schedule of the slot-by-slot
scan, so every run here is a run of the finer program.

* `xemProg` : one statement of a thread.
* `post_lost` : from a semaphore just initialised (value `1`), a thread that waits twice and a
  thread that posts once reach a state where the first sleeps on the channel with the value at
  `1` and no woken waiter, and from which nothing ever moves again.
-/

namespace Xv6Kernel

namespace Xem

/-- A call on the semaphore. -/
inductive Call
  | wait
  | post
  deriving DecidableEq, Repr

/-- The statement a thread is at. -/
inductive XemPc
  /-- Between calls. -/
  | idle
  /-- `xem_wait`: `while(semaphore->value <= 0)`, with the semaphore's lock held. -/
  | check
  /-- `sleep`: `acquire(&ptable.lock)`. -/
  | sleepPtable
  /-- `sleep`: `release(lk)`. -/
  | sleepRelease
  /-- `sleep`: `p->chan = chan`. -/
  | sleepChan
  /-- `sleep`: `p->state = SLEEPING`, then `sched()`. -/
  | sleepState
  /-- Switched out in `sched()` until the scheduler runs the proc again. -/
  | switchedOut
  /-- `sleep`: `p->chan = 0`. -/
  | tidy
  /-- `sleep`: `release(&ptable.lock)`. -/
  | releasePtable
  /-- `sleep`: `acquire(lk)`, then back to the test. -/
  | reacquire
  /-- `xem_wait`: `semaphore->value--`. -/
  | take
  /-- `xem_wait`: `release(&semaphore->lock)`. -/
  | waitRelease
  /-- `xem_post`: `semaphore->value++`. -/
  | inc
  /-- `xem_post`: `wakeup_one(&semaphore->chan)`. -/
  | wake
  /-- `xem_post`: `release(&semaphore->lock)`. -/
  | postRelease
  deriving DecidableEq, Repr

/-- A thread: its statement and the calls it has still to make. -/
structure Thread where
  pc : XemPc
  calls : List Call
  deriving DecidableEq, Repr

variable {n : ℕ}

/-- The state the threads share. -/
structure Shared (n : ℕ) where
  /-- `semaphore->value`. -/
  value : ℤ
  /-- The holder of `semaphore->lock`. -/
  lock : Option (Fin n)
  /-- The holder of `ptable.lock`. -/
  ptable : Option (Fin n)
  /-- The state of each thread's proc. -/
  state : Fin n → ProcState
  /-- Whether each thread's `p->chan` is `&semaphore->chan`. -/
  onChan : Fin n → Bool

/-- `wakeup_one(&semaphore->chan)`: the first proc sleeping on the channel becomes runnable. -/
def wakeupOne (g : Shared n) : Shared n :=
  match (List.finRange n).find? (fun u => g.state u = .sleeping ∧ g.onChan u) with
  | none => g
  | some u => { g with state := Function.update g.state u .runnable }

/-- One statement of thread `t`.  A spinlock that is held makes `acquire` spin: the thread
stays where it is.  A proc switched out in `sched()` runs again once it is runnable and the
scheduler can take `ptable.lock`, which the proc then holds. -/
def xemProg (t : Fin n) : Thread → Shared n → Except String (Thread × Shared n)
  | ⟨.idle, []⟩, g => .ok (⟨.idle, []⟩, g)
  | ⟨.idle, .wait :: cs⟩, g =>
    if g.lock = none then .ok (⟨.check, cs⟩, { g with lock := some t }) else .ok (⟨.idle, .wait :: cs⟩, g)
  | ⟨.idle, .post :: cs⟩, g =>
    if g.lock = none then .ok (⟨.inc, cs⟩, { g with lock := some t }) else .ok (⟨.idle, .post :: cs⟩, g)
  | ⟨.check, cs⟩, g => .ok (⟨if g.value ≤ 0 then .sleepPtable else .take, cs⟩, g)
  | ⟨.sleepPtable, cs⟩, g =>
    if g.ptable = none then .ok (⟨.sleepRelease, cs⟩, { g with ptable := some t })
    else .ok (⟨.sleepPtable, cs⟩, g)
  | ⟨.sleepRelease, cs⟩, g => .ok (⟨.sleepChan, cs⟩, { g with lock := none })
  | ⟨.sleepChan, cs⟩, g =>
    .ok (⟨.sleepState, cs⟩, { g with onChan := Function.update g.onChan t true })
  | ⟨.sleepState, cs⟩, g =>
    -- `sched()` hands `ptable.lock` to the scheduler, which releases it
    .ok (⟨.switchedOut, cs⟩,
      { g with state := Function.update g.state t .sleeping, ptable := none })
  | ⟨.switchedOut, cs⟩, g =>
    if g.state t = .runnable ∧ g.ptable = none then
      .ok (⟨.tidy, cs⟩, { g with state := Function.update g.state t .running, ptable := some t })
    else .ok (⟨.switchedOut, cs⟩, g)
  | ⟨.tidy, cs⟩, g =>
    .ok (⟨.releasePtable, cs⟩, { g with onChan := Function.update g.onChan t false })
  | ⟨.releasePtable, cs⟩, g => .ok (⟨.reacquire, cs⟩, { g with ptable := none })
  | ⟨.reacquire, cs⟩, g =>
    if g.lock = none then .ok (⟨.check, cs⟩, { g with lock := some t }) else .ok (⟨.reacquire, cs⟩, g)
  | ⟨.take, cs⟩, g => .ok (⟨.waitRelease, cs⟩, { g with value := g.value - 1 })
  | ⟨.waitRelease, cs⟩, g => .ok (⟨.idle, cs⟩, { g with lock := none })
  | ⟨.inc, cs⟩, g => .ok (⟨.wake, cs⟩, { g with value := g.value + 1 })
  | ⟨.wake, cs⟩, g => .ok (⟨.postRelease, cs⟩, wakeupOne g)
  | ⟨.postRelease, cs⟩, g => .ok (⟨.idle, cs⟩, { g with lock := none })

/-- The threads making their calls on the semaphore. -/
abbrev Xems (n : ℕ) := Interleaving.Config (Fin n) Thread (Shared n)

/-- Whether thread `t` is a waiter that has been woken and has not yet tested the value again:
runnable or running between its wakeup and the test. -/
def woken (s : Xems n) (t : Fin n) : Bool :=
  match (s.pc t).pc with
  | .switchedOut => s.shared.state t != .sleeping
  | .tidy | .releasePtable | .reacquire => true
  | _ => false

/-- The number of woken waiters that have not tested the value again. -/
def wokenWaiters (s : Xems n) : ℕ :=
  (Finset.univ.filter fun t => woken s t).card

/-- A thread sleeps on the semaphore's channel. -/
def Sleeping (s : Xems n) (t : Fin n) : Prop :=
  s.shared.state t = .sleeping ∧ s.shared.onChan t = true

instance (s : Xems n) (t : Fin n) : Decidable (Sleeping s t) :=
  inferInstanceAs (Decidable (_ ∧ _))

/-- Threads with their calls on a semaphore that `xem_init` has just set to `1`, all running,
no lock held. -/
def start (calls : Fin n → List Call) : Xems n :=
  ⟨fun t => ⟨.idle, calls t⟩, ⟨1, none, none, fun _ => .running, fun _ => false⟩⟩

/-! ### A lost post -/

/-- Thread 0 waits twice, thread 1 posts once. -/
def waitTwicePostOnce : Fin 2 → List Call
  | 0 => [.wait, .wait]
  | 1 => [.post]

/-- Thread 0 takes the unit, tests again and starts to sleep; it has released the semaphore's
lock when thread 1 posts, and sets its state after the post's scan. -/
def lostPostOrder : List (Fin 2) :=
  [0, 0, 0, 0, 0, 0, 0, 0, 1, 1, 1, 1, 0, 0]

/-- The configuration after `lostPostOrder`. -/
theorem lostPostOrder_run :
    ∃ s, Machine.run (Interleaving.step xemProg) (start waitTwicePostOnce) lostPostOrder = .ok s ∧
      s.pc 0 = ⟨.switchedOut, []⟩ ∧ s.pc 1 = ⟨.idle, []⟩ ∧ Sleeping s 0 ∧ s.shared.value = 1 ∧
      s.shared.state 1 = .running := by
  refine ⟨_, rfl, ?_⟩
  decide +kernel

/-- **A post is lost.**  Thread 0 sleeps on the semaphore's channel while the value is `1` and
no woken waiter is on its way back to the test; the poster has finished, so thread 0 sleeps
for ever. -/
theorem post_lost :
    ∃ s, Machine.Reach (Interleaving.step xemProg) (start waitTwicePostOnce) s ∧
      Sleeping s 0 ∧ (wokenWaiters s : ℤ) < s.shared.value ∧
      ∀ s', Machine.Reach (Interleaving.step xemProg) s s' → s' = s := by
  obtain ⟨s, hrun, hpc0, hpc1, hsleep, hval, -⟩ := lostPostOrder_run
  refine ⟨s, Machine.reach_of_run hrun, hsleep, ?_, fun s' hs' => ?_⟩
  · -- neither thread is a woken waiter: one sleeps, the other has finished
    have hnone : wokenWaiters s = 0 := by
      unfold wokenWaiters
      rw [Finset.card_eq_zero, Finset.filter_eq_empty_iff]
      intro t _
      match t with
      | 0 => simp [woken, hpc0, hsleep.1]
      | 1 => simp [woken, hpc1]
    rw [hnone, hval]
    decide
  · -- the sleeper waits to be made runnable and the poster has no call left
    refine Machine.Reach.eq_of_fixed (fun t s'' h => ?_) hs'
    have hstay : Interleaving.step xemProg s t = .ok s := by
      apply Interleaving.step_of_stay
      match t with
      | 0 => simp [hpc0, xemProg, hsleep.1]
      | 1 => simp [hpc1, xemProg]
    rw [hstay] at h
    exact (Except.ok.inj h).symm

end Xem

end Xv6Kernel
