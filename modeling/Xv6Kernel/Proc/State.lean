import Mathlib

/-!
# The process table, the scheduler structure and the CPUs

The state that `proc.c`, `lwp.c` and `semaphore.c` read and write, as one record `Kernel`:

* `ptable.proc[NPROC]` is `Kernel.proc : Slot → Proc`; a `struct proc *` is an `Option Slot`
  (`none` is `NULL`);
* the anonymous `mlfqstr` is `Mlfqstr`; its `next_t[NPROC]` is indexed by pid, so an access
  with a pid outside `[0, NPROC)` is undefined behaviour and stops the model (`pidSlot`);
* each CPU is `Cpu`: the proc it runs (`c->proc`), the scheduler's `searchidx` (a local of
  `scheduler()` that lives as long as the CPU), and `pending`, set when the CPU has just
  switched into `proc`, which then resumes its saved `context`;
* `Proc.context` is what a switched-out proc does when it is switched back in: the code after
  the `swtch` that saved it (`Context`);
* page directories are `PageDir`, reduced to their present bits and to the user words that the
  kernel itself reads (the value of a semaphore).

Fields of `struct proc` that no modelled function reads (open files, current directory, name,
trap frame, saved registers) are left out.  `uint` fields are `UInt32`, `int` fields that enter
arithmetic that can wrap are `Int32`, and the counters and identifiers are `ℤ`.
-/

namespace Xv6Kernel

/-! ### Constants of `param.h`, `mmu.h` and `memlayout.h` -/

/-- `NPROC`: the size of the process table. -/
def NPROC : ℕ := 64

/-- `NCPU`: the size of `cpus[]`. -/
def NCPU : ℕ := 8

/-- `PGSIZE`. -/
def PGSIZE : ℕ := 4096

/-- `KERNBASE`: user addresses lie below it. -/
def KERNBASE : ℕ := 0x80000000

/-- `STRIDE_DIVIDEND`. -/
def STRIDE_DIVIDEND : Int32 := 10000

/-- `PGROUNDUP` on a `uint`. -/
def PGROUNDUP (sz : ℕ) : ℕ := (sz + PGSIZE - 1) / PGSIZE * PGSIZE % 2 ^ 32

instance : NeZero NPROC := ⟨by decide⟩

instance : NeZero NCPU := ⟨by decide⟩

/-- The MLFQ has three levels.  The instance is named so that a literal of `Fin 3` is the same
term in every module that writes one. -/
instance levels_neZero : NeZero 3 := ⟨by decide⟩

/-- A pointer into `ptable.proc`. -/
abbrev Slot := Fin NPROC

/-- An index into `cpus[]`. -/
abbrev CpuId := Fin NCPU

/-- `p->level = -1` on a `uint` field: the level of a proc in the stride queue. -/
def STRIDE_LEVEL : UInt32 := 0xFFFFFFFF

/-- `enum procstate`. -/
inductive ProcState
  | unused
  | embryo
  | sleeping
  | runnable
  | running
  | zombie
  deriving DecidableEq, Repr

/-- A sleep channel: the address `sleep` is given.  Kernel objects and user addresses never
coincide (user addresses lie below `KERNBASE`); a user address is kept modulo `2^32`, and the
user address `0` is `NULL`. -/
inductive Chan
  | null
  | proc (p : Slot)
  | ticks
  | user (a : ℕ)
  deriving DecidableEq, Repr

/-- The channel of a user address (`&semaphore->chan`). -/
def Chan.ofUser (a : ℕ) : Chan := if a % 2 ^ 32 = 0 then .null else .user (a % 2 ^ 32)

/-- The loop that called `sleep`, which it re-enters when woken. -/
inductive Sleeper
  /-- `wait()`, scanning for a zombie child. -/
  | wait
  /-- `xem_wait` on the semaphore at user address `a`. -/
  | xem (a : ℕ)
  /-- `sys_sleep(n)` that started at tick `ticks0`. -/
  | ticks (ticks0 n : UInt32)
  deriving DecidableEq, Repr

/-- Where a switched-out proc resumes: the code after the `swtch` that saved its context. -/
inductive Context
  /-- A new proc: `forkret`, then `trapret` into user space. -/
  | forkret
  /-- Return from `yield` to the trap or system call that called it. -/
  | yield
  /-- Return from the `yield` of `thread_join`, whose target is the proc in slot `p`. -/
  | join (p : Slot)
  /-- Return from `sleep` into its caller's loop. -/
  | sleep (s : Sleeper)
  /-- The `sched` of `exit`, after which there is only `panic("zombie exit")`. -/
  | exit
  /-- The switch at the end of `thread_exit`, which returns to `sys_thread_exit`. -/
  | threadExit
  deriving DecidableEq, Repr

/-- `struct proc`, without the fields that no modelled function reads. -/
structure Proc where
  /-- MLFQ priority level; `STRIDE_LEVEL` in the stride queue. -/
  level : UInt32
  timeallot : UInt32
  timequant : UInt32
  tickcount : UInt32
  /-- Top of the user stack page. -/
  ustack : ℕ
  /-- CPU share in the stride queue. -/
  share : Int32
  stride : Int32
  pass : Int32
  /-- The thread this main thread waits for in `thread_join`, or `-1`. -/
  waitingTid : ℤ
  /-- Threads of the group, the main thread included. -/
  threadCount : ℤ
  nextTid : ℤ
  threadId : ℤ
  /-- The main thread of the group (the proc itself for a main thread). -/
  lwpgroup : Option Slot
  /-- Next thread of the group's thread list. -/
  tLink : Option Slot
  /-- Next proc of the stride queue. -/
  sLink : Option Slot
  retval : ℤ
  /-- Size of process memory. -/
  sz : ℕ
  /-- The page directory, by identifier; `none` is `0`. -/
  pgdir : Option ℕ
  /-- Whether a kernel stack is allocated. -/
  kstack : Bool
  state : ProcState
  pid : ℤ
  parent : Option Slot
  context : Context
  chan : Chan
  killed : Bool
  deriving DecidableEq, Repr

/-- A proc slot as the zero-initialised `ptable` holds it at boot. -/
def Proc.zero : Proc where
  level := 0
  timeallot := 0
  timequant := 0
  tickcount := 0
  ustack := 0
  share := 0
  stride := 0
  pass := 0
  waitingTid := 0
  threadCount := 0
  nextTid := 0
  threadId := 0
  lwpgroup := none
  tLink := none
  sLink := none
  retval := 0
  sz := 0
  pgdir := none
  kstack := false
  state := .unused
  pid := 0
  parent := none
  context := .forkret
  chan := .null
  killed := false

/-- The anonymous `mlfqstr` of `proc.c` (its spinlock is always taken under `ptable.lock`). -/
structure Mlfqstr where
  priboosttime : UInt32
  mlfqPass : UInt32
  mlfqStride : UInt32
  /-- Number of procs in the MLFQ. -/
  mlfqProcCnt : ℤ
  /-- Sum of the shares of the stride queue. -/
  strideShare : Int32
  strideHead : Option Slot
  /-- Number of procs at each MLFQ level. -/
  qlevels : Fin 3 → ℤ
  /-- `next_t[pid]`: the thread the group of that main thread runs next. -/
  nextT : Slot → Option Slot

/-- One entry of `cpus[]`, with the scheduler's local `searchidx`. -/
structure Cpu where
  proc : Option Slot
  searchidx : Slot
  /-- The CPU has just switched into `proc`, which must now resume its `context`. -/
  pending : Bool
  deriving DecidableEq, Repr

/-- A page directory: which page-directory entries are present (a page table exists for that
4 MB region), which user pages are present, and the user words the kernel reads (a
semaphore's `value`), by address. -/
structure PageDir where
  pde : ℕ → Bool
  pte : ℕ → Bool
  mem : ℕ → ℤ

/-- The state of the process subsystem. -/
structure Kernel where
  /-- `ptable.proc`. -/
  proc : Slot → Proc
  mlfqstr : Mlfqstr
  cpus : CpuId → Cpu
  /-- Number of started CPUs. -/
  ncpu : ℕ
  nextpid : ℤ
  initproc : Slot
  ticks : UInt32
  /-- A CPU whose proc returned to user space still holding `ptable.lock` (a CPU in the
  middle of a switch holds it too, which its `pending` flag records). -/
  ptableLock : Option CpuId
  /-- Allocated page directories. -/
  pgdirs : ℕ → Option PageDir
  /-- Identifier of the next page directory `setupkvm` allocates. -/
  nextPgdir : ℕ

namespace Kernel

/-- Replace the proc in slot `i`. -/
def setProc (k : Kernel) (i : Slot) (p : Proc) : Kernel :=
  { k with proc := Function.update k.proc i p }

/-- Replace CPU `c`. -/
def setCpu (k : Kernel) (c : CpuId) (x : Cpu) : Kernel :=
  { k with cpus := Function.update k.cpus c x }

/-- Replace page directory `d`. -/
def setPgdir (k : Kernel) (d : ℕ) (pd : Option PageDir) : Kernel :=
  { k with pgdirs := Function.update k.pgdirs d pd }

@[simp] theorem setProc_proc (k : Kernel) (i j : Slot) (p : Proc) :
    (k.setProc i p).proc j = if j = i then p else k.proc j := by
  simp [setProc, Function.update_apply]

@[simp] theorem setProc_mlfqstr (k : Kernel) (i : Slot) (p : Proc) :
    (k.setProc i p).mlfqstr = k.mlfqstr := rfl

@[simp] theorem setProc_cpus (k : Kernel) (i : Slot) (p : Proc) :
    (k.setProc i p).cpus = k.cpus := rfl

@[simp] theorem setProc_pgdirs (k : Kernel) (i : Slot) (p : Proc) :
    (k.setProc i p).pgdirs = k.pgdirs := rfl

@[simp] theorem setProc_ticks (k : Kernel) (i : Slot) (p : Proc) :
    (k.setProc i p).ticks = k.ticks := rfl

@[simp] theorem setCpu_cpus (k : Kernel) (c d : CpuId) (x : Cpu) :
    (k.setCpu c x).cpus d = if d = c then x else k.cpus d := by
  simp [setCpu, Function.update_apply]

@[simp] theorem setCpu_proc (k : Kernel) (c : CpuId) (x : Cpu) :
    (k.setCpu c x).proc = k.proc := rfl

@[simp] theorem setCpu_mlfqstr (k : Kernel) (c : CpuId) (x : Cpu) :
    (k.setCpu c x).mlfqstr = k.mlfqstr := rfl

@[simp] theorem setPgdir_pgdirs (k : Kernel) (d e : ℕ) (pd : Option PageDir) :
    (k.setPgdir d pd).pgdirs e = if e = d then pd else k.pgdirs e := by
  simp [setPgdir, Function.update_apply]

@[simp] theorem setPgdir_proc (k : Kernel) (d : ℕ) (pd : Option PageDir) :
    (k.setPgdir d pd).proc = k.proc := rfl

@[simp] theorem setPgdir_mlfqstr (k : Kernel) (d : ℕ) (pd : Option PageDir) :
    (k.setPgdir d pd).mlfqstr = k.mlfqstr := rfl

@[simp] theorem setPgdir_cpus (k : Kernel) (d : ℕ) (pd : Option PageDir) :
    (k.setPgdir d pd).cpus = k.cpus := rfl

end Kernel

/-- `next_t[pid]` is defined only for `0 ≤ pid < NPROC`; any other index is out of bounds. -/
def pidSlot (pid : ℤ) : Except String Slot :=
  if h : 0 ≤ pid ∧ pid < NPROC then .ok ⟨pid.toNat, by omega⟩
  else .error "next_t: pid out of bounds"

/-- The MLFQ level index of a `uint` level, if it is one of `0, 1, 2`. -/
def levelIdx (l : UInt32) : Option (Fin 3) :=
  if h : l.toNat < 3 then some ⟨l.toNat, h⟩ else none

end Xv6Kernel
