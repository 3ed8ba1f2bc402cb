import Xv6Kernel.Proc.Mlfq
import Xv6Kernel.Proc.Vm

/-!
# Context switches and the thread ring (`proc.c`)

The code that moves a CPU from one proc to another:

* `sched` : the current proc gives the CPU back to the CPU's scheduler loop;
* `updateNextT`, `addThread`, `rmThread`, `initNextT` : the thread list of an LWP group,
  threaded through `t_link` from the main thread, and the cached choice `next_t[pid]`;
* `threadSwtch` : a direct switch to the group's cached `next_t`, which is taken without
  looking at its state again;
* `yield` : the time accounting of MLFQ and stride scheduling, then `thread_swtch` or `sched`.

A switch saves the proc's `Context` (what it does when switched back in) and leaves the CPU
running the proc switched to, with `pending` set: that proc's own saved context runs in the
next step of the CPU.  A `NULL` pointer that the source dereferences stops the model.
-/

namespace Xv6Kernel

namespace Kernel

/-- The `t_link` field, as the successor function of a thread list. -/
def tNext (k : Kernel) (j : Slot) : Option Slot := (k.proc j).tLink

/-- The test of `update_next_t`: runnable and not waiting in `thread_join`. -/
def canRun (k : Kernel) (j : Slot) : Bool :=
  (k.proc j).state = .runnable && (k.proc j).waitingTid = -1

/-- Set `next_t[g]`. -/
def setNextT (k : Kernel) (g : Slot) (t : Option Slot) : Kernel :=
  k.modMlfq fun m => { m with nextT := Function.update m.nextT g t }

@[simp] theorem setNextT_proc (k : Kernel) (g : Slot) (t : Option Slot) :
    (k.setNextT g t).proc = k.proc := rfl

@[simp] theorem setNextT_cpus (k : Kernel) (g : Slot) (t : Option Slot) :
    (k.setNextT g t).cpus = k.cpus := rfl

end Kernel

/-- `sched()` from the proc running on CPU `c`, which resumes at `ctx` when switched back in:
the CPU goes back to its scheduler loop, which sets `c->proc = 0`. -/
def sched (k : Kernel) (c : CpuId) (ctx : Context) : Except String Kernel := do
  let some i := (k.cpus c).proc | throw "sched: no proc"
  if (k.proc i).state = .running then throw "sched running"
  let k := k.setProc i { k.proc i with context := ctx }
  return k.setCpu c { k.cpus c with proc := none, pending := false }

/-- What `sched` does: the proc on CPU `c` is not running; it keeps everything but its saved
context, and the CPU goes back to its scheduler loop. -/
theorem sched_eq_ok {k k' : Kernel} {c : CpuId} {ctx : Context} (h : sched k c ctx = .ok k') :
    ∃ i, (k.cpus c).proc = some i ∧ (k.proc i).state ≠ .running ∧
      k' = (k.setProc i { k.proc i with context := ctx }).setCpu c
        { k.cpus c with proc := none, pending := false } := by
  unfold sched at h
  cases hc : (k.cpus c).proc with
  | none => simp [hc] at h
  | some i =>
    by_cases hr : (k.proc i).state = .running
    · simp [hc, hr] at h
    · simp only [hc, hr] at h
      exact ⟨i, rfl, hr, (Except.ok.inj h).symm⟩

/-- The loop of `update_next_t` from `t`: along the thread ring (`t_link`, and `NULL` back to
the main thread) until the old choice `old` or a thread that can run.  Bounded by `n` moves. -/
def nextTSearch (k : Kernel) (main old : Slot) : ℕ → Slot → Except String Slot
  | n, t =>
    if t = old then .ok t
    else if k.canRun t then .ok t
    else match n with
      | 0 => .error "update_next_t: loops forever"
      | n + 1 => nextTSearch k main old n (((k.proc t).tLink).getD main)

/-- `update_next_t(main_t)`: the thread after the current choice that can run becomes
`next_t[pid]`, the current choice itself if no other can, else `NULL` (result `-1`). -/
def updateNextT (k : Kernel) (main : Slot) : Except String (ℤ × Kernel) := do
  let g ← pidSlot (k.proc main).pid
  let old := (k.mlfqstr.nextT g).getD main
  let t ← nextTSearch k main old NPROC (((k.proc old).tLink).getD main)
  if k.canRun t then return (0, k.setNextT g (some t))
  else return (-1, k.setNextT g none)

/-- `update_next_t` changes `next_t` only. -/
theorem updateNextT_eq_ok {k k' : Kernel} {main : Slot} {r : ℤ}
    (h : updateNextT k main = .ok (r, k')) : ∃ g t, k' = k.setNextT g t := by
  unfold updateNextT at h
  obtain ⟨g, -, h⟩ := Except.bind_eq_ok.1 h
  obtain ⟨t, -, h⟩ := Except.bind_eq_ok.1 h
  split at h
  · exact ⟨g, some t, (Prod.mk.inj (Except.ok.inj h)).2.symm⟩
  · exact ⟨g, none, (Prod.mk.inj (Except.ok.inj h)).2.symm⟩

/-- `init_next_t(p, pid)`. -/
def initNextT (k : Kernel) (p : Slot) (pid : ℤ) : Except String Kernel := do
  let g ← pidSlot pid
  return k.setNextT g (some p)

/-- `add_thread(p)`: insert `p` after the group's `next_t`. -/
def addThread (k : Kernel) (p : Slot) : Except String Kernel := do
  let some main := (k.proc p).lwpgroup | throw "add_thread: null dereference"
  let g ← pidSlot (k.proc main).pid
  let some nt := k.mlfqstr.nextT g | throw "add_thread: null dereference"
  let k := k.setProc p { k.proc p with tLink := (k.proc nt).tLink }
  return k.setProc nt { k.proc nt with tLink := some p }

/-- `rm_thread(p)`: move `next_t` on if it is `p`, then unlink `p` after the first node of the
list from the main thread whose `t_link` is `p`. -/
def rmThread (k : Kernel) (p : Slot) : Except String Kernel := do
  let some main := (k.proc p).lwpgroup | throw "rm_thread: null dereference"
  let g ← pidSlot (k.proc main).pid
  let k ← if k.mlfqstr.nextT g = some p then Prod.snd <$> updateNextT k main else pure k
  match Chain.find k.tNext (fun j => (k.proc j).tLink = some p) NPROC (some main) with
  | .error () => throw "rm_thread: the thread list is cyclic"
  | .ok none => pure k
  | .ok (some j) =>
    let k := k.setProc j { k.proc j with tLink := (k.proc p).tLink }
    pure (k.setProc p { k.proc p with tLink := none })

/-- What `thread_swtch` did: no `next_t` (it returns `-1`), `next_t` is the caller itself, or
a switch to `next_t`. -/
inductive Swtch
  | noNext
  | self
  | switched
  deriving DecidableEq, Repr

/-- `thread_swtch(old_context, main_thread)` on CPU `c`.  `save` is the proc whose context the
switch saves and where it resumes; `none` when the caller is the scheduler loop. -/
def threadSwtch (k : Kernel) (c : CpuId) (save : Option (Slot × Context)) (main : Slot) :
    Except String (Swtch × Kernel) := do
  let g ← pidSlot (k.proc main).pid
  let nt := k.mlfqstr.nextT g
  let (_, k) ← updateNextT k main
  match nt with
  | none => return (.noNext, k)
  | some t =>
    if (k.cpus c).proc = some t then
      return (.self, k.setProc t { k.proc t with state := .running })
    else
      let k := match save with
        | some (i, ctx) => k.setProc i { k.proc i with context := ctx }
        | none => k
      let k := k.setCpu c { k.cpus c with proc := some t, pending := true }
      k.switchuvm t
      return (.switched, k.setProc t { k.proc t with state := .running })

/-- `yield()` by the proc running on CPU `c`, resuming at `ctx` if it is switched out.  The
result says whether the caller was switched out; if not, it goes on running. -/
def yield (k : Kernel) (c : CpuId) (ctx : Context) : Except String (Bool × Kernel) := do
  let some cur := (k.cpus c).proc | throw "yield: no proc"
  let some main := (k.proc cur).lwpgroup | throw "yield: null dereference"
  let tickcount := (k.proc main).tickcount
  let k := k.setProc main { k.proc main with tickcount := tickcount + 1 }
  let level := (k.proc main).level
  let timeallot := (k.proc main).timeallot
  let k := k.setProc cur { k.proc cur with state := .runnable }
  -- a stride proc has level `-1`, which is above every MLFQ level
  let lowered := decide (0 < level ∧ timeallot ≤ tickcount)
  let k := if lowered then lowerlevel k main else k
  let k ← if 200 ≤ k.ticks - k.mlfqstr.priboosttime then
      priboost (k.modMlfq fun m => { m with priboosttime := k.ticks })
    else pure k
  let k := match k.mlfqstr.strideHead with
    | none => k
    | some _ =>
      if level = STRIDE_LEVEL then
        k.setProc main { k.proc main with pass := (k.proc main).pass + (k.proc main).stride }
      else k.modMlfq fun m => { m with mlfqPass := m.mlfqPass + m.mlfqStride }
  if 1 < (k.proc main).threadCount then
    let (r, k) ← threadSwtch k c (some (cur, ctx)) main
    match r with
    | .noNext => return (true, ← sched k c ctx)
    | .self => return (false, k)
    | .switched => return (true, k)
  else
    if (k.proc main).timequant = 0 then throw "trap: divide error"
    if lowered || tickcount % (k.proc main).timequant = 0 then return (true, ← sched k c ctx)
    else return (false, k)

end Xv6Kernel
