import Xv6Kernel.Proc.Process

/-!
# Light-weight processes (`lwp.c`)

`thread_create`, `thread_exit` and `thread_join`.  A thread is a proc with pid `-1` whose
`lwpgroup` is the proc that created it; it shares that proc's page directory, and its user
stack is one page found by probing, along the thread list, the page just above each member's
stack.

`thread_join` waits for a thread that has not exited by one `yield`, and then frees the target
slot whatever its state; its code after the `yield` is `joinRest`, run at once when the `yield`
does not switch out, else when the caller is switched back in.  The error returns of
`thread_create` after `acquire_ptable()` leave `ptable.lock` held.
-/

namespace Xv6Kernel

/-- `find_thread(tid, gid)`: the first slot with that thread id whose group's main thread has
pid `gid` (a slot with a `NULL` `lwpgroup` and that thread id is dereferenced). -/
def findThread (k : Kernel) (tid gid : ℤ) : Except String (Option Slot) :=
  (List.finRange NPROC).foldlM (fun r j =>
    match r with
    | some _ => .ok r
    | none =>
      if (k.proc j).threadId = tid then
        match (k.proc j).lwpgroup with
        | none => .error "find_thread: null dereference"
        | some g => .ok (if (k.proc g).pid = gid then some j else none)
      else .ok none) none

/-- The stack search of `thread_create`: the first member of the thread list from `cur` whose
`ustack` page is not present in `pd`; a member whose page table is absent is a null pointer
dereference. -/
def stackSlot (k : Kernel) (pd : PageDir) (cur : Slot) : Except String (Option Slot) :=
  match Chain.find k.tNext (fun j => pd.walkpgdir (k.proc j).ustack != some true) NPROC (some cur)
  with
  | .error () => .error "thread_create: the thread list is cyclic"
  | .ok none => .ok none
  | .ok (some j) =>
    if pd.walkpgdir (k.proc j).ustack = none then .error "thread_create: null dereference"
    else .ok (some j)

/-- `thread_create(thread, start_routine, arg)` by the proc in slot `cur` on CPU `c`: `0`, or
`-1`.  The values written to the new stack and to `*thread` are user memory, not modelled. -/
def threadCreate (k : Kernel) (c : CpuId) (cur : Slot) : Except String (ℤ × Kernel) := do
  -- find_unused()
  let some i := (List.finRange NPROC).find? (fun j => (k.proc j).state = .unused)
    | return (-1, k)
  -- acquire_ptable()
  let k := k.setProc i { k.proc i with
    state := .embryo, pid := -1, lwpgroup := some cur, waitingTid := -1, parent := none,
    timequant := 1, sLink := none, share := 0, stride := -1, pass := 0, kstack := true,
    context := .forkret }
  let (d, pd) ← k.pgdirOf (k.proc cur).pgdir
  let some j ← stackSlot k pd cur
    | return (-1, { k with ptableLock := some c })
  let ustack := (k.proc j).ustack + PGSIZE
  let k := k.setProc i { k.proc i with ustack := ustack }
  let (sz, pd) ← allocuvm pd (ustack - PGSIZE) ustack
  if sz = 0 then
    return (-1, { k.setProc i { k.proc i with kstack := false, state := .unused }
      with ptableLock := some c })
  let k := (k.setPgdir d (some pd)).setProc cur { k.proc cur with sz := sz }
  k.switchuvm cur
  let k := k.setProc i { k.proc i with pgdir := (k.proc cur).pgdir, sz := (k.proc cur).sz }
  let k ← if (k.proc cur).threadCount = 1 then do
      let k ← initNextT k i (k.proc cur).pid
      let k := k.setProc cur { k.proc cur with tLink := some i }
      pure (k.setProc i { k.proc i with tLink := none })
    else addThread k i
  let tid := (k.proc cur).nextTid
  let k := k.setProc i { k.proc i with threadId := tid }
  let k := k.setProc cur { k.proc cur with nextTid := tid + 1 }
  let k := k.setProc cur { k.proc cur with threadCount := (k.proc cur).threadCount + 1 }
  return (0, k.setProc i { k.proc i with state := .runnable })

/-- `thread_exit(retval)` by the proc on CPU `c`: it becomes a zombie holding `retval`, leaves
its group's list, releases its main thread from `thread_join`, unmaps its stack page (the
group's size becomes that page's base) and switches to the next thread, or to the
scheduler.  It never releases `ptable.lock`, so a return to user space leaves it held. -/
def threadExit (k : Kernel) (c : CpuId) (retval : ℤ) : Except String (Outcome × Kernel) := do
  let some i := (k.cpus c).proc | throw "thread_exit: no proc"
  let some main := (k.proc i).lwpgroup | throw "thread_exit: null dereference"
  let k := k.setProc i { k.proc i with state := .zombie, retval := retval }
  let k := k.setProc main { k.proc main with threadCount := (k.proc main).threadCount - 1 }
  let k ← rmThread k i
  let k := if (k.proc main).waitingTid = (k.proc i).threadId then
      k.setProc main { k.proc main with waitingTid := -1 } else k
  let (d, pd) ← k.pgdirOf (k.proc main).pgdir
  let ustack := (k.proc i).ustack
  let (sz, pd) := deallocuvm pd ustack ((ustack + 2 ^ 32 - PGSIZE) % 2 ^ 32)
  let k := (k.setPgdir d (some pd)).setProc main { k.proc main with sz := sz }
  let (r, k) ← threadSwtch k c (some (i, .threadExit)) main
  match r with
  | .noNext => return (.switched, ← sched k c .threadExit)
  | .self => return (.user, { k with ptableLock := some c })
  | .switched => return (.switched, k)

/-- The code of `thread_join` after its `yield`, by the proc on CPU `c`: read the target's
`retval`, free its kernel stack and clear its slot. -/
def joinRest (k : Kernel) (c : CpuId) (p : Slot) : Except String (Outcome × Kernel) := do
  if !(k.proc p).kstack then throw "kfree"
  let k := k.setProc p { k.proc p with
    kstack := false, pid := 0, lwpgroup := none, threadId := 0, killed := false,
    state := .unused, tLink := none, sLink := none, pgdir := none }
  toUser k c

/-- `thread_join(thread, retval)` by the proc on CPU `c`. -/
def threadJoin (k : Kernel) (c : CpuId) (tid gid : ℤ) : Except String (Outcome × Kernel) := do
  let some cur := (k.cpus c).proc | throw "thread_join: no proc"
  let some p ← findThread k tid gid | toUser k c
  if (k.proc p).state ≠ .zombie then
    let k := k.setProc cur { k.proc cur with waitingTid := tid, state := .runnable }
    let (out, k) ← yield k c (.join p)
    if out then return (.switched, k)
    joinRest k c p
  else joinRest k c p

end Xv6Kernel
