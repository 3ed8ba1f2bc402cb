import Xv6Kernel.Proc.Step

/-!
# Dispatch and reclamation of threads

Two steps of an LWP group act on a choice made in an earlier step, and neither looks at the
state of the thread again:

* `threadSwtch_runs_nextT` : `thread_swtch` switches to the cached `next_t[pid]` and makes it
  running, under no condition on its state; `update_next_t` chose it at an earlier switch, and
  it may have gone to sleep since.  `sleeping_thread_dispatched` is a run from boot in which the
  scheduler makes a sleeping thread run: the main thread waits in `thread_join`, its thread
  goes to sleep, and the scheduler dispatches the group through `thread_swtch`.
* `threadJoin_user_frees` : whenever `thread_join` returns to its caller having found its
  target, the target's slot is free, whatever state the target was in; the single `yield` of
  `thread_join` does not wait for the target to exit.  `sleeping_thread_reclaimed` is a run from
  boot in which `thread_join` frees a sleeping thread.

`findThread_some` : `find_thread` checks only the slot's thread id and the pid of its group's
main thread, so `thread_join` can reclaim a main thread, the caller itself, or reach a free
slot's `NULL` group.  `thread_join_frees_caller` is a run from boot in which a process joins
itself and returns to user space with its own slot freed, and another in which the scan
dereferences the group of a free slot.

`threadCreate_error` : a `-1` from `thread_create` either changed nothing (no free slot) or
returns to user space holding `ptable.lock`, since every later error return skips the release.
`thread_create_error_leaks_slot` : when the stack search finds no free page, the slot that
`find_unused` found is also left `EMBRYO` with its kernel stack, and nothing ever frees it.

`next_t` is an array of `NPROC` entries indexed by the pid of a group's main thread, but a
thread has pid `-1` and pids grow without bound.  `threadCreate_caller_pid` : `thread_create`
succeeds only for a caller whose pid is an index of `next_t`; every other caller that gets as
far as `init_next_t` or `add_thread` indexes out of bounds.  `next_t_index_out_of_bounds` is a
run from boot in which a thread calls `thread_create`.
-/

namespace Xv6Kernel

/-! ### `thread_swtch` -/

/-- **`thread_swtch` runs the cached `next_t` whatever its state.**  With a `next_t` that is
not already on the CPU and that has a kernel stack and a page directory, the switch happens and
`next_t` is left running on the CPU. -/
theorem threadSwtch_runs_nextT {k k₁ : Kernel} {c : CpuId} {save : Option (Slot × Context)}
    {main g t : Slot} {r : ℤ}
    (hg : pidSlot (k.proc main).pid = .ok g) (ht : k.mlfqstr.nextT g = some t)
    (hu : updateNextT k main = .ok (r, k₁)) (hc : (k.cpus c).proc ≠ some t)
    (hk : (k.proc t).kstack = true) (hd : (k.proc t).pgdir ≠ none) :
    ∃ k', threadSwtch k c save main = .ok (.switched, k') ∧
      (k'.proc t).state = .running ∧ (k'.cpus c).proc = some t := by
  obtain ⟨g', t', rfl⟩ := updateNextT_eq_ok hu
  unfold threadSwtch
  simp only [hg, ht, hu, except_ok_bind]
  -- saving the caller's context leaves the fields of `t` that `switchuvm` checks
  rcases save with _ | ⟨i, ctx⟩
  · simp [Kernel.switchuvm, hk, hd, hc]
  · by_cases hi : t = i
    · subst hi
      simp [Kernel.switchuvm, hk, hd, hc]
    · simp [Kernel.switchuvm, hk, hd, hc, hi]

/-- The program creates a thread and joins it (thread id 1, group pid 2): the main thread
yields to the thread, which goes to sleep for 5 ticks.  `next_t` is still the thread. -/
def joinThenSleep : List Event :=
  bootShell ++ [.syscall cpu0 .threadCreate, .syscall cpu0 (.threadJoin 1 2), .resume cpu0,
    .syscall cpu0 (.sleep 5)]

/-- The scheduler picks the main thread, and `thread_swtch` runs the sleeping thread. -/
theorem sleeping_thread_dispatched :
    ∃ k k', Reachable 1 k ∧ step k (.scheduler cpu0) = .ok k' ∧
      ∃ i, (k.proc i).state = .sleeping ∧ (k'.proc i).state = .running :=
  Reachable.move_of_run 1 joinThenSleep (.scheduler cpu0) .sleeping .running (by decide +kernel)

/-! ### `thread_join` -/

/-- The code after the `yield` of `thread_join` frees the target's slot. -/
theorem joinRest_user {k k' : Kernel} {c : CpuId} {p : Slot}
    (h : joinRest k c p = .ok (.user, k')) : (k'.proc p).state = .unused := by
  unfold joinRest at h
  by_cases hk : (k.proc p).kstack
  · simp only [hk, Bool.not_true, Bool.false_eq_true, if_false] at h
    rw [toUser_user h]
    simp
  · simp [hk] at h

/-- **`thread_join` frees its target whatever the target's state**: when it returns to its
caller having found the target, the target's slot is unused.  Nothing in the path checks that
the target has exited: a target that is not a zombie gets one `yield`, after which it is freed
if the caller was not switched out. -/
theorem threadJoin_user_frees {k k' : Kernel} {c : CpuId} {tid gid : ℤ} {p : Slot}
    (hf : findThread k tid gid = .ok (some p)) (h : threadJoin k c tid gid = .ok (.user, k')) :
    (k'.proc p).state = .unused := by
  unfold threadJoin at h
  cases hcur : (k.cpus c).proc with
  | none => simp [hcur] at h
  | some cur =>
    simp only [hcur, hf, except_ok_bind] at h
    split at h
    · -- the target has not exited: `yield`, then `joinRest` unless switched out
      obtain ⟨⟨out, k₁⟩, -, h⟩ := Except.bind_eq_ok.1 h
      cases out with
      | true => simp at h
      | false => exact joinRest_user (by simpa using h)
    · exact joinRest_user h

/-- The program creates a thread and yields to it; the thread goes to sleep for 5 ticks; the
main thread runs again and joins the thread. -/
def sleepThenJoin : List Event :=
  bootShell ++ [.syscall cpu0 .threadCreate, .syscall cpu0 .yield, .resume cpu0,
    .syscall cpu0 (.sleep 5), .scheduler cpu0, .resume cpu0]

/-- `thread_join` yields, `thread_swtch` finds the main thread itself as `next_t`, and the
sleeping thread's slot is freed. -/
theorem sleeping_thread_reclaimed :
    ∃ k k', Reachable 1 k ∧ step k (.syscall cpu0 (.threadJoin 1 2)) = .ok k' ∧
      ∃ i, (k.proc i).state = .sleeping ∧ (k'.proc i).state = .unused :=
  Reachable.move_of_run 1 sleepThenJoin (.syscall cpu0 (.threadJoin 1 2)) .sleeping .unused
    (by decide +kernel)

/-- What `find_thread` checks of the slot it returns: its thread id, and the pid of its group's
main thread.  Nothing about the slot's own pid, or whether it is the caller. -/
theorem findThread_some {k : Kernel} {tid gid : ℤ} {j : Slot}
    (h : findThread k tid gid = .ok (some j)) :
    (k.proc j).threadId = tid ∧ ∃ g, (k.proc j).lwpgroup = some g ∧ (k.proc g).pid = gid := by
  -- the invariant of the scan: a slot found so far passes both tests
  let I : Option Slot → Prop := fun r => ∀ j, r = some j →
    (k.proc j).threadId = tid ∧ ∃ g, (k.proc j).lwpgroup = some g ∧ (k.proc g).pid = gid
  refine foldlM_inv I ?_ (by simp [I]) h j rfl
  intro r x r' _ hr hstep
  cases r with
  | some x₀ =>
    cases hstep
    exact hr
  | none =>
    simp only at hstep
    split_ifs at hstep with ht
    · cases hg : (k.proc x).lwpgroup with
      | none => simp [hg] at hstep
      | some g =>
        simp only [hg] at hstep
        cases hstep
        intro j hj
        split_ifs at hj with hp
        cases hj
        exact ⟨ht, g, hg, hp⟩
    · cases hstep
      simp [I]

/-- A self-join: after `bootShell`, the shell's child (pid 2, a main thread with thread id 0)
calls `thread_join` with thread id 0 and its own pid; its `yield` switches out, and the
scheduler switches it back in. -/
def selfJoin : List Event :=
  bootShell ++ [.syscall cpu0 (.threadJoin 0 2), .scheduler cpu0]

/-- **`thread_join` can reclaim its own caller, and reach a free slot's `NULL` group.**  After
`bootShell`, `thread_join(0, 99)` meets a free slot with thread id 0 before any match and
dereferences its `lwpgroup`; after `selfJoin`, the caller, switched back in to finish joining
itself, frees its own kernel stack and slot and goes on running on the CPU. -/
theorem thread_join_frees_caller :
    (∃ k, Reachable 1 k ∧ step k (.syscall cpu0 (.threadJoin 0 99)) =
      .error "find_thread: null dereference") ∧
    ∃ k k' i, Reachable 1 k ∧ step k (.resume cpu0) = .ok k' ∧ (k.cpus cpu0).proc = some i ∧
      (k.proc i).context = .join i ∧ (k.proc i).pid ≠ -1 ∧
      (k'.cpus cpu0).proc = some i ∧ (k'.proc i).state = .unused ∧ (k'.proc i).kstack = false := by
  constructor
  · obtain ⟨k, hk, hq⟩ := Reachable.of_run 1 bootShell
      (stepFails (.syscall cpu0 (.threadJoin 0 99)) "find_thread: null dereference")
      (by decide +kernel)
    exact ⟨k, hk, stepFails_iff.1 hq⟩
  · obtain ⟨k, i, hk, hq⟩ := Reachable.slot_of_run 1 selfJoin
      (stepThen (.resume cpu0) fun k k' i => decide ((k.cpus cpu0).proc = some i ∧
        (k.proc i).context = .join i ∧ (k.proc i).pid ≠ -1 ∧ (k'.cpus cpu0).proc = some i ∧
        (k'.proc i).state = .unused ∧ (k'.proc i).kstack = false))
      (by decide +kernel)
    obtain ⟨k', hstep, hq⟩ := stepThen_iff.1 hq
    obtain ⟨hcur, hctx, hpid, hcur', hfree, hks⟩ := of_decide_eq_true hq
    exact ⟨k, k', i, hk, hstep, hcur, hctx, hpid, hcur', hfree, hks⟩

/-! ### The error returns of `thread_create` -/

/-- The `-1` returns of `thread_create`: the one before `acquire_ptable()` (no free slot)
leaves the state as it was; every later one returns with `ptable.lock` held. -/
theorem threadCreate_error {k k' : Kernel} {c : CpuId} {cur : Slot}
    (h : threadCreate k c cur = .ok (-1, k')) : k' = k ∨ k'.ptableLock = some c := by
  unfold threadCreate at h
  cases hf : (List.finRange NPROC).find? (fun j => (k.proc j).state = .unused) with
  | none =>
    simp only [hf, except_pure_eq, Except.ok.injEq, Prod.mk.injEq, true_and] at h
    exact .inl h.symm
  | some i =>
    right
    simp only [hf] at h
    obtain ⟨⟨d, pd⟩, -, h⟩ := Except.bind_eq_ok.1 h
    obtain ⟨oj, -, h⟩ := Except.bind_eq_ok.1 h
    cases oj with
    | none =>
      simp only [except_pure_eq, Except.ok.injEq, Prod.mk.injEq, true_and] at h
      rw [← h]
    | some j =>
      obtain ⟨⟨sz, pd'⟩, -, h⟩ := Except.bind_eq_ok.1 h
      split at h
      · simp only [except_pure_eq, Except.ok.injEq, Prod.mk.injEq, true_and] at h
        rw [← h]
      · -- the rest of the call returns `0`
        obtain ⟨u, -, h⟩ := Except.bind_eq_ok.1 h
        split at h
        · obtain ⟨k₁, -, h⟩ := Except.bind_eq_ok.1 h
          simp at h
        · obtain ⟨k₁, -, h⟩ := Except.bind_eq_ok.1 h
          simp at h

/-- The stack search reads only the members' `ustack` and `t_link`. -/
theorem stackSlot_setProc {k : Kernel} {pd : PageDir} {cur i : Slot} {p : Proc}
    (hu : p.ustack = (k.proc i).ustack) (ht : p.tLink = (k.proc i).tLink) :
    stackSlot (k.setProc i p) pd cur = stackSlot k pd cur := by
  have hus : ∀ j, ((k.setProc i p).proc j).ustack = (k.proc j).ustack := by
    intro j
    by_cases hj : j = i <;> simp [hj, hu]
  have hnext : (k.setProc i p).tNext = k.tNext := by
    funext j
    by_cases hj : j = i <;> simp [Kernel.tNext, hj, ht]
  simp only [stackSlot, hus, hnext]

/-- When every member's stack page is present, `thread_create` returns `-1` with the slot that
`find_unused` gave it left as the claim made it (`EMBRYO`, with a kernel stack) and with
`ptable.lock` held. -/
theorem threadCreate_no_stack {k : Kernel} {c : CpuId} {cur i : Slot} {d : ℕ} {pd : PageDir}
    (hi : (List.finRange NPROC).find? (fun j => (k.proc j).state = .unused) = some i)
    (hpd : k.pgdirOf (k.proc cur).pgdir = .ok (d, pd)) (hs : stackSlot k pd cur = .ok none) :
    threadCreate k c cur = .ok (-1, { k.setProc i { k.proc i with
      state := .embryo, pid := -1, lwpgroup := some cur, waitingTid := -1, parent := none,
      timequant := 1, sLink := none, share := 0, stride := -1, pass := 0, kstack := true,
      context := .forkret } with ptableLock := some c }) := by
  unfold threadCreate
  -- the claim keeps the caller's page directory, and the `ustack` and `t_link` of every slot
  by_cases hc : cur = i
  · subst hc
    simp [hi, hpd, stackSlot_setProc, hs]
  · simp [hi, hc, hpd, stackSlot_setProc, hs]

/-- **A `thread_create` that finds no stack page leaks the slot it claimed and `ptable.lock`.**
From any state with the lock free in which the caller's thread list has no free stack page,
the system call returns `-1` with the slot `find_unused` found now `EMBRYO` with a kernel stack
(nothing frees an `EMBRYO` slot), and with `ptable.lock` held, so the next clock interrupt on
the CPU panics. -/
theorem thread_create_error_leaks_slot {k : Kernel} {c : CpuId} {cur i : Slot} {d : ℕ}
    {pd : PageDir} (hc : c.val < k.ncpu) (hidle : ∀ d, (k.cpus d).pending = false)
    (hfree : k.ptableLock = none) (hcur : (k.cpus c).proc = some cur)
    (hk : (k.proc cur).killed = false)
    (hi : (List.finRange NPROC).find? (fun j => (k.proc j).state = .unused) = some i)
    (hpd : k.pgdirOf (k.proc cur).pgdir = .ok (d, pd)) (hs : stackSlot k pd cur = .ok none) :
    ∃ k', step k (.syscall c .threadCreate) = .ok k' ∧ (k.proc i).state = .unused ∧
      (k'.proc i).state = .embryo ∧ (k'.proc i).kstack = true ∧ k'.ptableLock = some c ∧
      step k' (.timer c) = .error "ptable" := by
  have hunused : (k.proc i).state = .unused := by simpa using List.find?_some hi
  obtain ⟨k', htc, hlock, hemb, hks, hcpus, hn, hkill⟩ : ∃ k',
      threadCreate k c cur = .ok (-1, k') ∧ k'.ptableLock = some c ∧
      (k'.proc i).state = .embryo ∧ (k'.proc i).kstack = true ∧ k'.cpus = k.cpus ∧
      k'.ncpu = k.ncpu ∧ (k'.proc cur).killed = (k.proc cur).killed :=
    ⟨_, threadCreate_no_stack hi hpd hs, rfl, by simp, by simp, rfl, rfl,
      by by_cases h : cur = i <;> simp [h]⟩
  have hstep : step k (.syscall c .threadCreate) = .ok k' := by
    rw [step_of_free (e := .syscall c .threadCreate) hc hidle hfree]
    have hback : toUser k' c = .ok (.user, k') :=
      toUser_alive (by rw [hcpus]; exact hcur) (by rw [hkill]; exact hk)
    simp [perform, hcur, hk, syscall, htc, hback]
  refine ⟨k', hstep, hunused, hemb, hks, hlock, ?_⟩
  exact step_of_held (e := .timer c) (by rw [hn]; exact hc) (by simpa [hcpus] using hidle)
    (by simp [Event.takesPtable, hcpus, hcur]) hlock

/-- The shell's child, running alone after `sbrk(4096)` made the page above its stack present,
calls `thread_create`. -/
def growThenThread : List Event :=
  bootShell ++ [.syscall cpu0 (.sbrk 4096)]

theorem thread_create_error_leaks_slot_grown :
    ∃ k cur i d pd, Reachable 1 k ∧ cpu0.val < k.ncpu ∧ (∀ d, (k.cpus d).pending = false) ∧
      k.ptableLock = none ∧ (k.cpus cpu0).proc = some cur ∧ (k.proc cur).killed = false ∧
      (List.finRange NPROC).find? (fun j => (k.proc j).state = .unused) = some i ∧
      k.pgdirOf (k.proc cur).pgdir = .ok (d, pd) ∧ stackSlot k pd cur = .ok none ∧
      ∃ k', step k (.syscall cpu0 .threadCreate) = .ok k' ∧ (k.proc i).state = .unused ∧
        (k'.proc i).state = .embryo ∧ (k'.proc i).kstack = true ∧ k'.ptableLock = some cpu0 ∧
        step k' (.timer cpu0) = .error "ptable" := by
  obtain ⟨k, cur, hk, hq⟩ := Reachable.slot_of_run 1 growThenThread
    (fun k cur => decide (cpu0.val < k.ncpu ∧ (∀ d, (k.cpus d).pending = false) ∧
      k.ptableLock = none ∧ (k.cpus cpu0).proc = some cur ∧ (k.proc cur).killed = false ∧
      ((List.finRange NPROC).find? (fun j => (k.proc j).state = .unused)).isSome ∧
      (k.pgdirOf (k.proc cur).pgdir >>= fun r => stackSlot k r.2 cur) = .ok none))
    (by decide +kernel)
  obtain ⟨hc, hidle, hfree, hcur, hkill, hsome, hsearch⟩ := of_decide_eq_true hq
  obtain ⟨i, hi⟩ := Option.isSome_iff_exists.1 hsome
  obtain ⟨⟨d, pd⟩, hpd, hs⟩ := Except.bind_eq_ok.1 hsearch
  exact ⟨k, cur, i, d, pd, hk, hc, hidle, hfree, hcur, hkill, hi, hpd, hs,
    thread_create_error_leaks_slot hc hidle hfree hcur hkill hi hpd hs⟩

/-! ### Indices into `next_t` -/

theorem pidSlot_bounds {pid : ℤ} {g : Slot} (h : pidSlot pid = .ok g) : 0 ≤ pid ∧ pid < NPROC := by
  unfold pidSlot at h
  split at h
  · assumption
  · cases h

/-- `add_thread(p)` indexes `next_t` by the pid of `p`'s group. -/
theorem addThread_main_pid {k k' : Kernel} {p : Slot} (main : Slot) (hm : (k.proc p).lwpgroup = some main)
    (h : addThread k p = .ok k') : 0 ≤ (k.proc main).pid ∧ (k.proc main).pid < NPROC := by
  unfold addThread at h
  simp only [hm] at h
  obtain ⟨g, hg, -⟩ := Except.bind_eq_ok.1 h
  exact pidSlot_bounds hg

/-- **`thread_create` succeeds only for a caller whose pid indexes `next_t`.**  The new thread's
group is the caller, and both `init_next_t` and `add_thread` index `next_t` by the caller's pid;
a slot found free is not the caller's, whose pid would then be the new thread's `-1`. -/
theorem threadCreate_caller_pid {k k' : Kernel} {c : CpuId} {cur : Slot}
    (h : threadCreate k c cur = .ok (0, k')) : 0 ≤ (k.proc cur).pid ∧ (k.proc cur).pid < NPROC := by
  unfold threadCreate at h
  cases hf : (List.finRange NPROC).find? (fun j => (k.proc j).state = .unused) with
  | none => simp [hf] at h
  | some i =>
    simp only [hf] at h
    obtain ⟨⟨d, pd⟩, -, h⟩ := Except.bind_eq_ok.1 h
    obtain ⟨oj, -, h⟩ := Except.bind_eq_ok.1 h
    cases oj with
    | none => simp at h
    | some j =>
      obtain ⟨⟨sz, pd'⟩, -, h⟩ := Except.bind_eq_ok.1 h
      split_ifs at h with hsz hc
      · simp at h
      · -- the caller's first thread: `init_next_t(p, curproc->pid)`
        obtain ⟨u, -, h⟩ := Except.bind_eq_ok.1 h
        obtain ⟨k₁, hk₁, -⟩ := Except.bind_eq_ok.1 h
        obtain ⟨k₂, hk₂, -⟩ := Except.bind_eq_ok.1 hk₁
        have hb := pidSlot_bounds hk₂
        by_cases hic : i = cur
        · subst hic
          simp at hb
        · simpa [hic, Ne.symm hic] using hb
      · -- `add_thread(p)`, through the new thread's `lwpgroup`
        obtain ⟨u, -, h⟩ := Except.bind_eq_ok.1 h
        obtain ⟨k₁, hk₁, -⟩ := Except.bind_eq_ok.1 h
        by_cases hic : i = cur
        · subst hic
          have hb := addThread_main_pid i (by simp) hk₁
          simp at hb
        · have hb := addThread_main_pid cur (by simp [hic]) hk₁
          simpa [hic, Ne.symm hic] using hb

/-- The program creates a thread and yields to it. -/
def threadRuns : List Event :=
  bootShell ++ [.syscall cpu0 .threadCreate, .syscall cpu0 .yield, .resume cpu0]

/-- The running thread, with pid `-1`, calls `thread_create`: the stack search finds the page
above its own stack, and `add_thread` indexes `next_t` by `-1`. -/
theorem next_t_index_out_of_bounds :
    ∃ k i, Reachable 1 k ∧ (k.cpus cpu0).proc = some i ∧ (k.proc i).pid = -1 ∧
      step k (.syscall cpu0 .threadCreate) = .error "next_t: pid out of bounds" := by
  obtain ⟨k, hk, hp⟩ := Reachable.of_run 1 threadRuns
    (fun k => stepFails (.syscall cpu0 .threadCreate) "next_t: pid out of bounds" k &&
      (k.cpus cpu0).proc.any fun i => (k.proc i).pid == -1) (by decide +kernel)
  rw [Bool.and_eq_true] at hp
  obtain ⟨hs, hi⟩ := hp
  cases hc : (k.cpus cpu0).proc with
  | none => rw [hc] at hi; cases hi
  | some i =>
    rw [hc, Option.any_some, beq_iff_eq] at hi
    exact ⟨k, i, hk, hc, hi, stepFails_iff.1 hs⟩

end Xv6Kernel
