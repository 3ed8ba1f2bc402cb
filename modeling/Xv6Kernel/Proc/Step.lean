import Xv6Kernel.Lib.Machine
import Xv6Kernel.Proc.Thread

/-!
# The kernel as a machine

One step of the kernel is one entry into it on one CPU, up to the point where that CPU runs
user code again, idles in its scheduler loop, or has switched into a proc that must now run
its own saved context:

* `Event.scheduler c` : one round of `scheduler()` on the idle CPU `c`;
* `Event.resume c` : the proc just switched in on `c` runs its saved context;
* `Event.timer c` : a timer interrupt on `c` (the tick on CPU 0, then `yield`);
* `Event.syscall c call` : the proc running on `c` makes a system call.

`ptable.lock` serialises these steps: a CPU in the middle of a switch holds it, and so does a
CPU whose proc returned to user space without releasing it; a step that needs the lock then
spins on another CPU (it does nothing) and panics on the CPU that holds it.  `boot ncpu` is
the state after `pinit` and `userinit` with `ncpu` CPUs in their scheduler loops, and the
reachable states are `Machine.Reach step (boot ncpu)`.
-/

namespace Xv6Kernel

/-- The system calls of the process subsystem, with their arguments. -/
inductive Syscall
  | fork
  | exit
  | wait
  | kill (pid : ℤ)
  /-- `exec` of a program whose loadable segments end at `textsz`. -/
  | exec (textsz : ℕ)
  | sbrk (n : ℤ)
  | sleep (n : ℤ)
  | yield
  | setCpuShare (share : Int32)
  | threadCreate
  | threadExit (retval : ℤ)
  | threadJoin (tid gid : ℤ)
  /-- The semaphore system calls, with the user address of the `xem_t`. -/
  | xemInit (a : ℕ)
  | xemWait (a : ℕ)
  | xemPost (a : ℕ)
  deriving DecidableEq, Repr

/-- Whether the system call takes `ptable.lock`: the semaphore calls take only the
semaphore's own lock (`xem_wait` is counted as taking it, for when it sleeps), and `sbrk` and
`exec` take none. -/
def Syscall.takesPtable : Syscall → Bool
  | .xemInit _ | .xemPost _ | .sbrk _ | .exec _ => false
  | _ => true

/-- An entry into the kernel on a CPU. -/
inductive Event
  | scheduler (c : CpuId)
  | resume (c : CpuId)
  | timer (c : CpuId)
  | syscall (c : CpuId) (call : Syscall)
  deriving DecidableEq, Repr

/-- The CPU of an event. -/
def Event.cpu : Event → CpuId
  | .scheduler c | .resume c | .timer c | .syscall c _ => c

/-- Whether the event takes `ptable.lock` (a killed proc's system call exits). -/
def Event.takesPtable (k : Kernel) : Event → Bool
  | .scheduler _ | .resume _ => true
  | .timer c => c.val = 0 || (k.cpus c).proc.isSome
  | .syscall c call =>
    match (k.cpus c).proc with
    | none => false
    | some i => (k.proc i).killed || call.takesPtable

/-! ### The scheduler loop -/

/-- The slot after `i` in `ptable`, wrapping around. -/
def nextSlot (i : Slot) : Slot :=
  if h : i.val + 1 < NPROC then ⟨i.val + 1, h⟩ else ⟨0, by decide⟩

/-- The loop of `scheduler()` over the stride queue, from bound `minPass`: the runnable member
with the least pass, the last one met among equals (`pass` compared as a `uint`). -/
def strideScan (k : Kernel) : ℕ → Option Slot → UInt32 → Option Slot → Except String (Option Slot)
  | _, none, _, best => .ok best
  | 0, some _, _, _ => .error "scheduler: the stride queue is cyclic"
  | n + 1, some sp, minPass, best =>
    let p := k.proc sp
    if p.pass.toUInt32 ≤ minPass ∧ p.state = .runnable then
      strideScan k n p.sLink p.pass.toUInt32 (some sp)
    else strideScan k n p.sLink minPass best

/-- The search of `scheduler()` from `searchidx`, over at most `n` slots in table order with
wrap-around, for a runnable proc at `level` that is not an LWP: what it found, and the new
`searchidx`. -/
def mlfqSearch (k : Kernel) (level : UInt32) : ℕ → Slot → Option Slot × Slot
  | 0, idx => (none, idx)
  | n + 1, idx =>
    let p := k.proc idx
    if p.state = .runnable ∧ p.level = level ∧ p.pid ≠ -1 then (some idx, nextSlot idx)
    else mlfqSearch k level n (nextSlot idx)

/-- The `contextswitch:` label of `scheduler()`: a group with threads goes through
`thread_swtch`; any other proc is switched to directly. -/
def dispatch (k : Kernel) (c : CpuId) (np : Slot) : Except String Kernel := do
  if 1 < (k.proc np).threadCount then
    let (_, k) ← threadSwtch k c none np
    return k
  let k := k.setCpu c { k.cpus c with proc := some np, pending := true }
  k.switchuvm np
  return k.setProc np { k.proc np with state := .running }

/-- One round of the loop of `scheduler()` on CPU `c`: the stride queue first, then the
highest non-empty MLFQ level. -/
def scheduler (k : Kernel) (c : CpuId) : Except String Kernel := do
  let m := k.mlfqstr
  let sp ← match m.strideHead with
    | none => pure none
    | some h =>
      let minPass := if 0 < m.mlfqProcCnt then m.mlfqPass else (k.proc h).pass.toUInt32
      strideScan k NPROC (some h) minPass none
  match sp with
  | some np => dispatch k c np
  | none =>
    let level : UInt32 := if 0 < m.qlevels 2 then 2 else if 0 < m.qlevels 1 then 1 else 0
    let (np, idx) := mlfqSearch k level NPROC (k.cpus c).searchidx
    let k := k.setCpu c { k.cpus c with searchidx := idx }
    match np with
    | none => return k
    | some np => dispatch k c np

/-! ### Resuming a switched-in proc, traps and system calls -/

/-- The proc just switched in on CPU `c` runs its saved context. -/
def resume (k : Kernel) (c : CpuId) : Except String Kernel := do
  let some i := (k.cpus c).proc | throw "resume: no proc"
  let k := k.setCpu c { k.cpus c with pending := false }
  match (k.proc i).context with
  | .forkret => return k
  | .yield => Prod.snd <$> toUser k c
  | .join p => Prod.snd <$> joinRest k c p
  | .sleep s =>
    let k := k.setProc i { k.proc i with chan := .null }
    match s with
    | .wait => Prod.snd <$> waitLoop k c
    | .xem a => Prod.snd <$> xemWaitLoop k c a
    | .ticks ticks0 n => Prod.snd <$> sysSleepLoop k c ticks0 n
  | .exit => throw "zombie exit"
  -- `thread_exit` returns to user space without releasing `ptable.lock`
  | .threadExit => return { k with ptableLock := some c }

/-- A timer interrupt on CPU `c`: CPU 0 counts the tick and wakes the sleepers on `ticks`;
a proc running in user space exits if killed, else yields. -/
def timer (k : Kernel) (c : CpuId) : Except String Kernel := do
  let k := if c.val = 0 then wakeup1 { k with ticks := k.ticks + 1 } .ticks else k
  let some i := (k.cpus c).proc | return k
  if (k.proc i).killed then return ← exit k c
  if (k.proc i).state = .running then
    let (sw, k) ← yield k c .yield
    if sw then return k
    return (← toUser k c).2
  return (← toUser k c).2

/-- The system call `call` by the proc in slot `i` running on CPU `c`. -/
def syscall (k : Kernel) (c : CpuId) (i : Slot) : Syscall → Except String Kernel
  | .fork => do let (_, k) ← fork k i; return (← toUser k c).2
  | .exit => exit k c
  | .wait => Prod.snd <$> waitLoop k c
  | .kill pid => Prod.snd <$> toUser (kill k pid).2 c
  | .exec textsz => do let (_, k) ← exec k i textsz; return (← toUser k c).2
  | .sbrk n => do let (_, k) ← sbrk k i n; return (← toUser k c).2
  | .sleep n => Prod.snd <$> sysSleepLoop k c k.ticks (UInt32.ofInt n)
  | .yield => do
    let (sw, k) ← yield k c .yield
    if sw then return k
    return (← toUser k c).2
  | .setCpuShare share => do let (_, k) ← setCpuShare k c i share; return (← toUser k c).2
  | .threadCreate => do let (_, k) ← threadCreate k c i; return (← toUser k c).2
  | .threadExit retval => Prod.snd <$> threadExit k c retval
  | .threadJoin tid gid => Prod.snd <$> threadJoin k c tid gid
  | .xemInit a => do let k ← xemInit k i a; return (← toUser k c).2
  | .xemWait a => Prod.snd <$> xemWaitLoop k c a
  | .xemPost a => do let k ← xemPost k i a; return (← toUser k c).2

/-- The event on its CPU, once the lock is available: the scheduler runs only on an idle CPU,
and a system call of a killed proc is `exit` (the check at the top of `trap`). -/
def perform (k : Kernel) : Event → Except String Kernel
  | .scheduler c => if (k.cpus c).proc.isNone then scheduler k c else .ok k
  | .resume _ => .ok k
  | .timer c => timer k c
  | .syscall c call =>
    match (k.cpus c).proc with
    | none => .ok k
    | some i => if (k.proc i).killed then exit k c else syscall k c i call

/-- One step of the kernel.  A CPU that is not started does nothing; a CPU in the middle of a
switch can only resume the proc it switched into. -/
def step (k : Kernel) (e : Event) : Except String Kernel :=
  let c := e.cpu
  if k.ncpu ≤ c.val then .ok k
  else if (k.cpus c).pending then
    match e with
    | .resume _ => resume k c
    | _ => .ok k
  else if e.takesPtable k then
    if (List.finRange NCPU).any fun d => (k.cpus d).pending then .ok k
    else match k.ptableLock with
      | some d => if d = c then .error "ptable" else .ok k
      | none => perform k e
  else perform k e

/-- With no CPU in the middle of a switch and `ptable.lock` free, an event on a started CPU is
performed. -/
theorem step_of_free {k : Kernel} {e : Event} (hc : e.cpu.val < k.ncpu)
    (hidle : ∀ d, (k.cpus d).pending = false) (hfree : k.ptableLock = none) :
    step k e = perform k e := by
  cases ht : e.takesPtable k <;> simp [step, hidle, ht, hfree, Nat.not_le.2 hc]

/-- An event that takes `ptable.lock` on the CPU that already holds it panics in `acquire`. -/
theorem step_of_held {k : Kernel} {e : Event} (hc : e.cpu.val < k.ncpu)
    (hidle : ∀ d, (k.cpus d).pending = false) (ht : e.takesPtable k = true)
    (hheld : k.ptableLock = some e.cpu) : step k e = .error "ptable" := by
  simp [step, hidle, ht, hheld, Nat.not_le.2 hc]

/-! ### Boot -/

/-- The zero-initialised process table and `mlfqstr` after `pinit()`, with `ncpu` CPUs idle
in their scheduler loops (`searchidx = ptable.proc`). -/
def pinit (ncpu : ℕ) : Kernel where
  proc := fun _ => Proc.zero
  mlfqstr :=
    { priboosttime := 0, mlfqPass := 0, mlfqStride := 0, mlfqProcCnt := 0, strideShare := 0,
      strideHead := none, qlevels := fun _ => 0, nextT := fun _ => none }
  cpus := fun _ => { proc := none, searchidx := 0, pending := false }
  ncpu := ncpu
  nextpid := 1
  initproc := 0
  ticks := 0
  ptableLock := none
  pgdirs := fun _ => none
  nextPgdir := 0

/-- The page directory of `inituvm`: the first page holds `initcode`. -/
def inituvm : Except String PageDir := PageDir.empty.mappage 0

/-- `userinit()`: the first process, one page of memory, runnable in the MLFQ. -/
def userinit (k : Kernel) : Except String Kernel := do
  let some (i, k) := allocproc k | throw "userinit: out of procs"
  let (d, k) := k.setupkvm
  let pd ← inituvm
  let k := { k.setPgdir d (some pd) with initproc := i }
  let k := k.setProc i { k.proc i with pgdir := some d, sz := PGSIZE, state := .runnable }
  return k.modMlfq fun m => mlfqadd m (k.proc i)

/-- The kernel after boot on `ncpu` CPUs. -/
def boot (ncpu : ℕ) : Except String Kernel := userinit (pinit ncpu)

/-- The states reachable from boot on `ncpu` CPUs. -/
def Reachable (ncpu : ℕ) (k : Kernel) : Prop :=
  ∃ k₀, boot ncpu = .ok k₀ ∧ Machine.Reach step k₀ k

/-- A run from boot whose last state passes the test `p` exhibits a reachable state that
passes it. -/
theorem Reachable.of_run (ncpu : ℕ) (es : List Event) (p : Kernel → Bool)
    (h : ((boot ncpu).bind fun k₀ => Machine.run step k₀ es).toOption.map p = some true) :
    ∃ k, Reachable ncpu k ∧ p k = true := by
  cases hb : boot ncpu with
  | error e => rw [hb] at h; cases h
  | ok k₀ =>
    rw [hb] at h
    obtain ⟨k, hk, hp⟩ := Machine.exists_reach_of_run h
    exact ⟨k, ⟨k₀, hb, hk⟩, hp⟩

/-! ### Runs from boot -/

/-- CPU 0. -/
def cpu0 : CpuId := 0

/-- On one CPU: init starts, execs, forks a child and waits for it; the child starts and
execs a program. -/
def bootShell : List Event :=
  [.scheduler cpu0, .resume cpu0, .syscall cpu0 (.exec 8192), .syscall cpu0 .fork,
   .syscall cpu0 .wait, .scheduler cpu0, .resume cpu0, .syscall cpu0 (.exec 8192)]

/-- Whether the event `e` succeeds from `k` and takes some proc from state `s` to state `s'`. -/
def movesState (e : Event) (s s' : ProcState) (k : Kernel) : Bool :=
  match step k e with
  | .ok k' => (List.finRange NPROC).any fun i => (k.proc i).state = s && (k'.proc i).state = s'
  | .error _ => false

theorem movesState_iff {e : Event} {s s' : ProcState} {k : Kernel} :
    movesState e s s' k = true ↔
      ∃ k', step k e = .ok k' ∧ ∃ i, (k.proc i).state = s ∧ (k'.proc i).state = s' := by
  unfold movesState
  cases step k e with
  | error _ => simp
  | ok k' => simp

/-- A run from boot after which the event `e` takes a proc from `s` to `s'` exhibits a
reachable state where `e` does so. -/
theorem Reachable.move_of_run (ncpu : ℕ) (es : List Event) (e : Event) (s s' : ProcState)
    (h : ((boot ncpu).bind fun k₀ => Machine.run step k₀ es).toOption.map (movesState e s s') =
      some true) :
    ∃ k k', Reachable ncpu k ∧ step k e = .ok k' ∧
      ∃ i, (k.proc i).state = s ∧ (k'.proc i).state = s' := by
  obtain ⟨k, hk, hm⟩ := Reachable.of_run ncpu es _ h
  obtain ⟨k', hs, hi⟩ := movesState_iff.1 hm
  exact ⟨k, k', hk, hs, hi⟩

/-- Whether the event `e` stops the kernel from `k` with the message `msg`. -/
def stepFails (e : Event) (msg : String) (k : Kernel) : Bool :=
  match step k e with
  | .ok _ => false
  | .error m => m == msg

theorem stepFails_iff {e : Event} {msg : String} {k : Kernel} :
    stepFails e msg k = true ↔ step k e = .error msg := by
  unfold stepFails
  cases step k e with
  | ok _ => simp
  | error m => simp

/-- Whether the event `e` succeeds from `k` and the test `q` holds of `k`, the new state and
the slot `i`. -/
def stepThen (e : Event) (q : Kernel → Kernel → Slot → Bool) (k : Kernel) (i : Slot) : Bool :=
  match step k e with
  | .ok k' => q k k' i
  | .error _ => false

theorem stepThen_iff {e : Event} {q : Kernel → Kernel → Slot → Bool} {k : Kernel} {i : Slot} :
    stepThen e q k i = true ↔ ∃ k', step k e = .ok k' ∧ q k k' i = true := by
  unfold stepThen
  cases step k e with
  | error _ => simp
  | ok k' => simp

/-- A run from boot after which some slot passes the test `q` exhibits a reachable state and a
slot of it that passes the test. -/
theorem Reachable.slot_of_run (ncpu : ℕ) (es : List Event) (q : Kernel → Slot → Bool)
    (h : ((boot ncpu).bind fun k₀ => Machine.run step k₀ es).toOption.map
      (fun k => (List.finRange NPROC).any (q k)) = some true) :
    ∃ k i, Reachable ncpu k ∧ q k i = true := by
  obtain ⟨k, hk, hq⟩ := Reachable.of_run ncpu es _ h
  obtain ⟨i, -, hi⟩ := List.any_eq_true.1 hq
  exact ⟨k, i, hk, hi⟩

end Xv6Kernel
