import Xv6Kernel.Lib.Interleaving

/-!
# The semaphore's spinlock in user memory (`semaphore.c`, `spinlock.c`, `user.h`)

`sys_xem_init`, `sys_xem_wait` and `sys_xem_post` cast an `int` argument to an `xem_t *` and
work on it in place: the `xem_t` and the `struct spinlock` inside it are in the caller's user
memory, where every thread of the group can write them.  `acquire` runs with interrupts off
(`pushcli`), panics with the lock's name if `holding(lk)` (`lk->locked` set and `lk->cpu` the
calling CPU's `struct cpu`), and spins on `xchg(&lk->locked, 1)` until it reads `0`.

Each CPU runs a list of operations (`Op`): user code writing the `xem_t`, and semaphore calls,
whose kernel side runs statement by statement (`Stmt`) with the CPU's `pushcli` depth.  A CPU in
the kernel runs no user code, and with its interrupts off nothing else runs on it.  The CPUs are
interleaved (`Interleaving`); CPU `c`'s `struct cpu` is at `me c`.

* `spinning_step` : a CPU spinning on a set `locked` word stays spinning, with interrupts off,
  whatever it does next.
* `xem_lock_never_returns` : on one CPU, for every contents of the `xem_t` with `locked` set,
  `xem_wait` or `xem_post` either panics in `acquire` (when `cpu` names the CPU) or spins with
  interrupts off in every state reachable afterwards: it never returns and never sleeps.

What this does not model: the value test and `sleep` of `xem_wait` are one statement (a waiter
that finds the value `≤ 0` releases the lock and sleeps for good, since `wakeup_one` is not
modelled); `Sync/Semaphore` has that part statement by statement.
-/

namespace Xv6Kernel

namespace UserLock

/-- The words of an `xem_t` in user memory that the kernel reads and writes: `value`, `chan`,
and of its `struct spinlock` the `locked` word and the `cpu` pointer (`name` is only printed and
`pcs` only written). -/
structure XemWords where
  value : ℤ
  chan : ℤ
  locked : UInt32
  cpu : ℕ
  deriving DecidableEq, Repr

/-- A semaphore system call. -/
inductive Call
  | init
  | wait
  | post
  deriving DecidableEq, Repr

/-- What a CPU does next: user code of the group writes the whole `xem_t`, or makes a call. -/
inductive Op
  | write (w : XemWords)
  | call (c : Call)
  deriving DecidableEq, Repr

/-- The statement of a semaphore call the CPU is at. -/
inductive Stmt
  /-- In user space, between calls. -/
  | user
  /-- `acquire`: after `pushcli()`, the test `if(holding(lk)) panic(lk->name)`. -/
  | holding
  /-- `acquire`: `while(xchg(&lk->locked, 1) != 0)`. -/
  | spin
  /-- The body of the call, with the lock held. -/
  | body
  /-- `release(&semaphore->lock)`. -/
  | release
  /-- `xem_wait` asleep in `sleep(&semaphore->chan, &semaphore->lock)`. -/
  | asleep
  deriving DecidableEq, Repr

/-- A CPU: its statement, its `pushcli` depth (`ncli`; interrupts are off while it is
positive) and its operations still to do, the one in progress first. -/
structure Cpu where
  stmt : Stmt
  ncli : ℕ
  ops : List Op
  deriving DecidableEq, Repr

/-- `holding(lk)` on the CPU whose `struct cpu` is at `me`. -/
def holding (me : ℕ) (w : XemWords) : Bool := w.locked ≠ 0 && w.cpu = me

/-- `release(lk)` with the lock words `w`: `lk->cpu = 0`, then `lk->locked = 0`. -/
def releaseWords (w : XemWords) : XemWords := { w with cpu := 0, locked := 0 }

/-- One statement of the CPU whose `struct cpu` is at `me`. -/
def cpuProg (me : ℕ) : Cpu → XemWords → Except String (Cpu × XemWords)
  | ⟨.user, n, []⟩, w => .ok (⟨.user, n, []⟩, w)
  | ⟨.user, n, .write w' :: ops⟩, _ => .ok (⟨.user, n, ops⟩, w')
  -- `xem_init`: `value = 1`, `chan = 0`, `initlock` (no lock is taken)
  | ⟨.user, n, .call .init :: ops⟩, w =>
    .ok (⟨.user, n, ops⟩, { w with value := 1, chan := 0, locked := 0, cpu := 0 })
  -- `xem_wait` and `xem_post` start with `acquire`, whose `pushcli` turns interrupts off
  | ⟨.user, n, .call c :: ops⟩, w => .ok (⟨.holding, n + 1, .call c :: ops⟩, w)
  | ⟨.holding, n, ops⟩, w =>
    if holding me w then .error "acquire: panic(lk->name)" else .ok (⟨.spin, n, ops⟩, w)
  -- the `xchg` stores `1` and returns the old word
  | ⟨.spin, n, ops⟩, w =>
    if w.locked ≠ 0 then .ok (⟨.spin, n, ops⟩, { w with locked := 1 })
    else .ok (⟨.body, n, ops⟩, { w with locked := 1, cpu := me })
  | ⟨.body, n, .call .wait :: ops⟩, w =>
    if w.value ≤ 0 then
      -- `sleep` releases the lock (with `release`'s own test) and the CPU leaves the proc
      if holding me w then .ok (⟨.asleep, n - 1, .call .wait :: ops⟩, releaseWords w)
      else .error "release"
    else .ok (⟨.release, n, .call .wait :: ops⟩, { w with value := w.value - 1 })
  | ⟨.body, n, .call .post :: ops⟩, w =>
    .ok (⟨.release, n, .call .post :: ops⟩, { w with value := w.value + 1 })
  | ⟨.body, n, ops⟩, w => .ok (⟨.release, n, ops⟩, w)
  | ⟨.release, n, ops⟩, w =>
    if holding me w then .ok (⟨.user, n - 1, ops.tail⟩, releaseWords w) else .error "release"
  | ⟨.asleep, n, ops⟩, w => .ok (⟨.asleep, n, ops⟩, w)

variable {n : ℕ}

/-- The CPUs and the `xem_t` they share. -/
abbrev Machine (n : ℕ) := Interleaving.Config (Fin n) Cpu XemWords

/-- The CPUs in user space with their operations to do, and the `xem_t` as user memory holds it. -/
def start (ops : Fin n → List Op) (w : XemWords) : Machine n :=
  ⟨fun c => ⟨.user, 0, ops c⟩, w⟩

/-- CPU `c` spins in `acquire` on a set `locked` word, with interrupts off. -/
def Spinning (s : Machine n) (c : Fin n) : Prop :=
  (s.pc c).stmt = .spin ∧ 0 < (s.pc c).ncli ∧ s.shared.locked ≠ 0

/-! ### The spin -/

variable {me : Fin n → ℕ} {s s' : Machine n} {c : Fin n}

/-- **A CPU spinning on a set word stays spinning.**  Its own step stores `1` and reads the old
word, which is not `0`; the step of another CPU changes nothing of it but may write the word. -/
theorem spinning_step (h : Spinning s c)
    (hstep : Interleaving.step (fun d => cpuProg (me d)) s c = .ok s') : Spinning s' c := by
  obtain ⟨hspin, hcli, hl⟩ := h
  obtain ⟨hprog, -⟩ := Interleaving.step_eq_ok.1 hstep
  have hpc : s.pc c = ⟨.spin, (s.pc c).ncli, (s.pc c).ops⟩ := by
    rw [← hspin]
  rw [hpc] at hprog
  simp only [cpuProg, hl, ne_eq, not_false_eq_true, if_true, Except.ok.injEq, Prod.mk.injEq]
    at hprog
  obtain ⟨hc', hw⟩ := hprog
  refine ⟨by rw [← hc'], by rw [← hc']; exact hcli, ?_⟩
  rw [← hw]
  simp

/-- On one CPU, every state reachable from a spinning CPU has it spinning. -/
theorem spinning_reach {m : Fin 1 → ℕ} {s₀ s₁ : Machine 1} (h : Spinning s₀ 0)
    (hr : Machine.Reach (Interleaving.step (fun d => cpuProg (m d))) s₀ s₁) : Spinning s₁ 0 :=
  Machine.Reach.invariant (I := fun s => Spinning s 0) hr h fun t a t' ht hstep => by
    rw [Subsingleton.elim a 0] at hstep
    exact spinning_step ht hstep

/-! ### Entering `acquire` -/

/-- `xem_wait` and `xem_post` enter `acquire` with one more `pushcli`. -/
theorem enter_acquire {call : Call} {ops : List Op} {ncli : ℕ} {w : XemWords} {me : ℕ}
    (hcall : call ≠ .init) :
    cpuProg me ⟨.user, ncli, .call call :: ops⟩ w = .ok (⟨.holding, ncli + 1, .call call :: ops⟩, w) := by
  cases call with
  | init => exact absurd rfl hcall
  | wait => rfl
  | post => rfl

/-- The test of `acquire`: a panic when the words say that this CPU holds the lock, else the
spin. -/
theorem holding_test {ncli : ℕ} {ops : List Op} {w : XemWords} {me : ℕ} :
    cpuProg me ⟨.holding, ncli, ops⟩ w =
      if holding me w then .error "acquire: panic(lk->name)" else .ok (⟨.spin, ncli, ops⟩, w) :=
  rfl

/-- **A semaphore call on a set lock word never returns.**  On one CPU, for every contents of
the `xem_t` whose `locked` word is set (by user code, or left set), `xem_wait` and `xem_post`
panic in `acquire` when its `cpu` word is the CPU's `struct cpu`, and otherwise spin with
interrupts off in every state reachable afterwards. -/
theorem xem_lock_never_returns {m : Fin 1 → ℕ} {w : XemWords} {call : Call} {ops : List Op}
    (hl : w.locked ≠ 0) (hcall : call ≠ .init) :
    (w.cpu = m 0 → Machine.run (Interleaving.step fun d => cpuProg (m d))
        (start (fun _ => .call call :: ops) w) [0, 0] = .error "acquire: panic(lk->name)") ∧
    (w.cpu ≠ m 0 → ∃ s, Machine.run (Interleaving.step fun d => cpuProg (m d))
        (start (fun _ => .call call :: ops) w) [0, 0] = .ok s ∧
      ∀ s', Machine.Reach (Interleaving.step fun d => cpuProg (m d)) s s' → Spinning s' 0) := by
  -- the first step enters `acquire`
  have h₁ : Interleaving.step (fun d => cpuProg (m d)) (start (fun _ => .call call :: ops) w) 0 =
      .ok ⟨Function.update (fun _ => ⟨.user, 0, .call call :: ops⟩) 0
        ⟨.holding, 1, .call call :: ops⟩, w⟩ :=
    Interleaving.step_of_prog (enter_acquire hcall)
  -- the second step is the test of `acquire`
  have h₂ : Machine.run (Interleaving.step fun d => cpuProg (m d))
      (start (fun _ => .call call :: ops) w) [0, 0] =
      if holding (m 0) w then .error "acquire: panic(lk->name)"
      else .ok ⟨Function.update (fun _ => ⟨.user, 0, .call call :: ops⟩) 0
        ⟨.spin, 1, .call call :: ops⟩, w⟩ := by
    rw [Machine.run_cons, h₁]
    by_cases hh : holding (m 0) w <;>
      simp [Machine.run_cons, Except.bind, Interleaving.step, holding_test, hh]
  constructor
  · intro hc
    have hh : holding (m 0) w = true := by simp [holding, hl, hc]
    rw [h₂, if_pos hh]
  · intro hc
    have hh : holding (m 0) w = false := by simp [holding, hc]
    refine ⟨_, by rw [h₂, if_neg (by simp [hh])], ?_⟩
    intro s' hs'
    exact spinning_reach ⟨by simp, by simp, hl⟩ hs'

/-- A waiter on one CPU whose `xem_t` user code has left locked, by another CPU's pointer. -/
theorem xem_lock_never_returns_locked :
    (⟨0, 0, 1, 2⟩ : XemWords).locked ≠ 0 ∧ Call.wait ≠ .init ∧
      ((⟨0, 0, 1, 2⟩ : XemWords).cpu ≠ (fun _ => 1 : Fin 1 → ℕ) 0 →
        ∃ s, Machine.run (Interleaving.step fun d => cpuProg ((fun _ => 1 : Fin 1 → ℕ) d))
          (start (fun _ => [.call .wait]) ⟨0, 0, 1, 2⟩) [0, 0] = .ok s ∧
        ∀ s', Machine.Reach (Interleaving.step fun d => cpuProg ((fun _ => 1 : Fin 1 → ℕ) d)) s s' →
          Spinning s' 0) :=
  ⟨by decide, by decide,
    (xem_lock_never_returns (m := fun _ => 1) (by decide) (by decide)).2⟩

end UserLock

end Xv6Kernel
