import Xv6Kernel.Proc.Switch

/-!
# Process system calls (`proc.c`, `sysproc.c`, `semaphore.c`, `exec.c`)

`allocproc`, `fork`, `exit`, `wait`, `sleep`, `wakeup1`, `wakeup_one`, `kill`, `sys_sleep`,
`growproc`/`sys_sbrk`, the semaphores `xem_init`/`xem_wait`/`xem_post`, and `exec`.

A call that can block is split at its `sleep`: `sleep` saves the loop the caller re-enters
(`Sleeper`), and the re-entry is `waitLoop`, `xemWaitLoop` or `sysSleepLoop`, called once by
the system call and again each time the sleeper is switched back in.  A call returns an
`Outcome`: the proc either goes on in user space on its CPU or has been switched out.
-/

namespace Xv6Kernel

/-! ### Wakeups and kill -/

/-- One iteration of `wakeup1(chan)`: a proc sleeping on `chan` becomes runnable and, unless
it is in the stride queue, enters the MLFQ counts. -/
def wakeupOneSlot (ch : Chan) (k : Kernel) (i : Slot) : Kernel :=
  if (k.proc i).state = .sleeping ∧ (k.proc i).chan = ch then
    let k := k.setProc i { k.proc i with state := .runnable }
    if (k.proc i).level ≠ STRIDE_LEVEL then k.modMlfq fun m => mlfqadd m (k.proc i) else k
  else k

/-- `wakeup1(chan)`, and `wakeup(chan)`, which only takes the lock around it. -/
def wakeup1 (k : Kernel) (ch : Chan) : Kernel :=
  (List.finRange NPROC).foldl (wakeupOneSlot ch) k

/-- `wakeup_one(chan)`: the first proc sleeping on `chan` becomes runnable.  Unlike `wakeup1`
it does not call `mlfqadd`. -/
def wakeupOne (k : Kernel) (ch : Chan) : Kernel :=
  match (List.finRange NPROC).find? (fun i => (k.proc i).state = .sleeping ∧ (k.proc i).chan = ch)
  with
  | none => k
  | some i => k.setProc i { k.proc i with state := .runnable }

/-- `kill(pid)`: the first proc with that pid is marked killed and woken from sleep. -/
def kill (k : Kernel) (pid : ℤ) : ℤ × Kernel :=
  match (List.finRange NPROC).find? (fun i => (k.proc i).pid = pid) with
  | none => (-1, k)
  | some i =>
    let k := k.setProc i { k.proc i with killed := true }
    if (k.proc i).state = .sleeping then
      let k := k.setProc i { k.proc i with state := .runnable }
      (0, if (k.proc i).level ≠ STRIDE_LEVEL then k.modMlfq fun m => mlfqadd m (k.proc i) else k)
    else (0, k)

/-! ### Sleeping -/

/-- `sleep(chan, lk)` by the proc running on CPU `c`, which re-enters `s` when woken: it leaves
the MLFQ counts (unless in the stride queue) and gives the CPU back. -/
def sleep (k : Kernel) (c : CpuId) (ch : Chan) (s : Sleeper) : Except String Kernel := do
  let some i := (k.cpus c).proc | throw "sleep"
  let k := k.setProc i { k.proc i with chan := ch, state := .sleeping }
  let k := if (k.proc i).level ≠ STRIDE_LEVEL then k.modMlfq fun m => mlfqrm m (k.proc i) else k
  sched k c (.sleep s)

/-- What `sleep` does: the proc on CPU `c` sleeps on `ch`, leaves the MLFQ counts unless it is
in the stride queue, and is switched out to re-enter `s`. -/
theorem sleep_eq_ok {k k' : Kernel} {c : CpuId} {ch : Chan} {s : Sleeper}
    (h : sleep k c ch s = .ok k') : ∃ i, (k.cpus c).proc = some i ∧
      k'.mlfqstr = (if (k.proc i).level ≠ STRIDE_LEVEL then mlfqrm k.mlfqstr (k.proc i)
        else k.mlfqstr) ∧
      ∀ j, k'.proc j = if j = i then
        { k.proc i with chan := ch, state := .sleeping, context := .sleep s } else k.proc j := by
  unfold sleep at h
  cases hc : (k.cpus c).proc with
  | none => simp [hc] at h
  | some i =>
    simp only [hc] at h
    obtain ⟨i', hi', -, rfl⟩ := sched_eq_ok h
    have hii : i' = i := by
      split at hi' <;> simp_all
    subst hii
    refine ⟨i', rfl, ?_, fun j => ?_⟩
    · split <;> simp_all [mlfqrm]
    · by_cases hj : j = i' <;> split <;> simp_all

/-- How a system call ends for its caller: it goes on in user space on its CPU, or it has been
switched out and resumes at its saved context. -/
inductive Outcome
  | user
  | switched
  deriving DecidableEq, Repr

/-! ### Creating, exiting and reaping processes -/

/-- `allocproc()`: the first unused slot becomes an embryo with the next pid, at MLFQ level 2,
alone in its LWP group; its kernel stack is set up to start in `forkret`.  Its `t_link`,
`parent` and `killed` keep what the slot held. -/
def allocproc (k : Kernel) : Option (Slot × Kernel) :=
  match (List.finRange NPROC).find? (fun i => (k.proc i).state = .unused) with
  | none => none
  | some i =>
    let p := { k.proc i with
      state := .embryo, pid := k.nextpid, level := 2, timequant := 5, timeallot := 20,
      tickcount := 0, sLink := none, share := 0, stride := -1, pass := 0, threadCount := 1,
      threadId := 0, nextTid := 1, lwpgroup := some i, waitingTid := -1, kstack := true,
      context := .forkret }
    some (i, { k.setProc i p with nextpid := k.nextpid + 1 })

/-- `fork()` by the proc in slot `cur`: the child's pid, or `-1` when no slot is free. -/
def fork (k : Kernel) (cur : Slot) : Except String (ℤ × Kernel) := do
  let some (np, k) := allocproc k | return (-1, k)
  let (_, pd) ← k.pgdirOf (k.proc cur).pgdir
  let npd ← copyuvm pd (k.proc cur).sz
  let (d, k) := k.setupkvm
  let k := k.setPgdir d (some npd)
  let k := k.setProc np { k.proc np with
    pgdir := some d, sz := (k.proc cur).sz, ustack := (k.proc cur).sz, parent := some cur,
    state := .runnable }
  let k := if (k.proc np).level ≠ STRIDE_LEVEL then k.modMlfq fun m => mlfqadd m (k.proc np) else k
  return ((k.proc np).pid, k)

/-- The channel `wakeup1(curproc->parent)` uses. -/
def parentChan : Option Slot → Chan
  | none => .null
  | some p => .proc p

/-- One iteration of the loop of `exit` that passes the children of `cur` to init. -/
def reparentOne (cur : Slot) (k : Kernel) (j : Slot) : Kernel :=
  if (k.proc j).parent = some cur then
    let k := k.setProc j { k.proc j with parent := some k.initproc }
    if (k.proc j).state = .zombie then wakeup1 k (.proc k.initproc) else k
  else k

/-- `exit()` by the proc running on CPU `c`.  Open files and the current directory are not
modelled. -/
def exit (k : Kernel) (c : CpuId) : Except String Kernel := do
  let some cur := (k.cpus c).proc | throw "exit: no proc"
  if cur = k.initproc then throw "init exiting"
  let k := wakeup1 k (parentChan (k.proc cur).parent)
  let k := (List.finRange NPROC).foldl (reparentOne cur) k
  let k := k.setProc cur { k.proc cur with state := .zombie }
  let k ← if (k.proc cur).level ≠ STRIDE_LEVEL then pure (k.modMlfq fun m => mlfqrm m (k.proc cur))
    else striderm k cur
  sched k c .exit

/-- The return to user space at the end of a system call or trap:
`if(myproc()->killed) exit();`. -/
def toUser (k : Kernel) (c : CpuId) : Except String (Outcome × Kernel) := do
  let some i := (k.cpus c).proc | throw "trap: no proc"
  if (k.proc i).killed then return (.switched, ← exit k c)
  return (.user, k)

/-- A return to user space that stays in user space changes nothing. -/
theorem toUser_user {k k' : Kernel} {c : CpuId} (h : toUser k c = .ok (.user, k')) : k' = k := by
  unfold toUser at h
  cases hi : (k.cpus c).proc with
  | none => simp [hi] at h
  | some i =>
    by_cases hk : (k.proc i).killed
    · simp only [hi, hk, if_true] at h
      obtain ⟨_, -, h⟩ := Except.bind_eq_ok.1 h
      cases h
    · simp only [hi, hk] at h
      exact (Prod.mk.inj (Except.ok.inj h)).2.symm

/-- A proc that is not killed goes back to user space unchanged. -/
theorem toUser_alive {k : Kernel} {c : CpuId} {i : Slot} (hi : (k.cpus c).proc = some i)
    (hk : (k.proc i).killed = false) : toUser k c = .ok (.user, k) := by
  simp [toUser, hi, hk]

/-- Free the zombie child in slot `j` (the body of the scan of `wait` that found it). -/
def reap (k : Kernel) (j : Slot) : Except String Kernel := do
  if !(k.proc j).kstack then throw "kfree"
  let k ← k.freevm (k.proc j).pgdir
  return k.setProc j { k.proc j with
    kstack := false, pid := 0, parent := none, killed := false, state := .unused }

/-- One pass of the loop of `wait()` by the proc on CPU `c`: reap the first zombie child (in
table order), return `-1` without children or when killed, else sleep on itself. -/
def waitLoop (k : Kernel) (c : CpuId) : Except String (Outcome × Kernel) := do
  let some cur := (k.cpus c).proc | throw "wait: no proc"
  let kids := (List.finRange NPROC).filter fun j => (k.proc j).parent = some cur
  match kids.find? fun j => (k.proc j).state = .zombie with
  | some j => toUser (← reap k j) c
  | none =>
    if kids.isEmpty || (k.proc cur).killed then toUser k c
    else return (.switched, ← sleep k c (.proc cur) .wait)

/-! ### User memory and semaphores -/

/-- The user word at `a` in the address space of the proc in slot `i`, as the kernel reads it
through the current page table; an absent page is a page fault in the kernel. -/
def readUser (k : Kernel) (i : Slot) (a : ℕ) : Except String ℤ := do
  let (_, pd) ← k.pgdirOf (k.proc i).pgdir
  if pd.walkpgdir a = some true then return pd.mem a else throw "trap"

/-- Write the user word at `a` in the address space of the proc in slot `i`. -/
def writeUser (k : Kernel) (i : Slot) (a : ℕ) (v : ℤ) : Except String Kernel := do
  let (d, pd) ← k.pgdirOf (k.proc i).pgdir
  if pd.walkpgdir a = some true then
    return k.setPgdir d (some { pd with mem := Function.update pd.mem a v })
  else throw "trap"

/-- `xem_init(semaphore)` for the semaphore at user address `a`: `value = 1`. -/
def xemInit (k : Kernel) (i : Slot) (a : ℕ) : Except String Kernel :=
  writeUser k i a 1

/-- The loop of `xem_wait` at the semaphore at `a`: take a unit, or sleep on `&semaphore->chan`
(the word after `value`). -/
def xemWaitLoop (k : Kernel) (c : CpuId) (a : ℕ) : Except String (Outcome × Kernel) := do
  let some i := (k.cpus c).proc | throw "xem_wait: no proc"
  let v ← readUser k i a
  if v ≤ 0 then return (.switched, ← sleep k c (Chan.ofUser (a + 4)) (.xem a))
  toUser (← writeUser k i a (v - 1)) c

/-- `xem_post(semaphore)`: give a unit back and wake one sleeper. -/
def xemPost (k : Kernel) (i : Slot) (a : ℕ) : Except String Kernel := do
  let v ← readUser k i a
  let k ← writeUser k i a (v + 1)
  return wakeupOne k (Chan.ofUser (a + 4))

/-! ### `sys_sleep`, `sbrk`, `exec` -/

/-- The loop of `sys_sleep(n)` started at tick `ticks0` (the `int` `n` compared as a `uint`). -/
def sysSleepLoop (k : Kernel) (c : CpuId) (ticks0 n : UInt32) :
    Except String (Outcome × Kernel) := do
  let some i := (k.cpus c).proc | throw "sleep: no proc"
  if k.ticks - ticks0 < n then
    if (k.proc i).killed then toUser k c
    else return (.switched, ← sleep k c .ticks (.ticks ticks0 n))
  else toUser k c

/-- `uint` addition of an `int`. -/
def addInt (sz : ℕ) (n : ℤ) : ℕ := (((sz : ℤ) + n) % 2 ^ 32).toNat

/-- `sys_sbrk(n)` by the proc in slot `cur`: `growproc(n)` on its own `sz`; the old size, or
`-1` on failure. -/
def sbrk (k : Kernel) (cur : Slot) (n : ℤ) : Except String (ℤ × Kernel) := do
  let addr := (k.proc cur).sz
  let (d, pd) ← k.pgdirOf (k.proc cur).pgdir
  let sz := (k.proc cur).sz
  let (sz, pd) ← if 0 < n then allocuvm pd sz (addInt sz n)
    else if n < 0 then pure (deallocuvm pd sz (addInt sz n)) else pure (sz, pd)
  -- a result of 0 is failure; `deallocuvm` to 0 is reported as one too
  if (0 < n ∨ n < 0) ∧ sz = 0 then
    return (-1, k.setPgdir d (some pd))
  let k := (k.setPgdir d (some pd)).setProc cur { k.proc cur with sz := sz }
  k.switchuvm cur
  return (addr, k)

/-- `exec` of a program whose loadable segments end at `textsz`, by the proc in slot `cur`: a
new page directory with the segments, then a guard page and a stack page; commit, and free
the old page directory.  Loading the file itself is not modelled; an image that does not fit
below `KERNBASE` fails. -/
def exec (k : Kernel) (cur : Slot) (textsz : ℕ) : Except String (ℤ × Kernel) := do
  let (d, k) := k.setupkvm
  let (sz, pd) ← allocuvm PageDir.empty 0 textsz
  if sz = 0 then return (-1, k.setPgdir d none)
  let sz := PGROUNDUP sz
  let (sz, pd) ← allocuvm pd sz (sz + 2 * PGSIZE)
  if sz = 0 then return (-1, k.setPgdir d none)
  let old := (k.proc cur).pgdir
  let k := (k.setPgdir d (some pd)).setProc cur
    { k.proc cur with pgdir := some d, sz := sz, ustack := sz }
  k.switchuvm cur
  return (0, ← k.freevm old)

end Xv6Kernel
