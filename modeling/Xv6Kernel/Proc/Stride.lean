import Xv6Kernel.Proc.Step

/-!
# The stride queue and its total share

`set_cpu_share(share)` puts its caller on the stride queue (`s_link` from `stride_head`) and
adds `share` to `stride_share`, the total that the MLFQ's own stride `10000 / (100 -
stride_share)` is computed from; `striderm` takes the exiting proc off and subtracts its share.
Three things keep `stride_share` from being the sum of the members' shares, and the divisor
from staying positive:

* `setCpuShare_adds_share` : a call adds the new share and never subtracts the caller's old
  one, so a member that calls again is counted twice;
* the admission test `stride_share + share > 80` is `int` arithmetic, which wraps: a huge
  share makes the sum negative and is admitted;
* `setCpuShare_same_pid` : membership is decided by pid, so an LWP (pid `-1`) whose group
  already has a thread on the queue gets the stride level without joining the queue.

`set_cpu_share_error_holds_lock` : both error returns leave `ptable.lock` held, so the caller's
next entry into the kernel that takes it panics.

`striderm_divide_error` : once `stride_share - share = 100` for the head of the queue, its
removal divides by zero in the kernel.  `stride_share_divides_by_zero` reaches that state from
boot; `stride_level_off_queue` reaches a stride-level proc that is not on the queue.
-/

namespace Xv6Kernel

/-- The stride queue: the first `NPROC` nodes along `s_link` from `stride_head`. -/
def strideList (k : Kernel) : List Slot := Chain.nodes k.sNext NPROC k.mlfqstr.strideHead

/-- The sum of the shares of the stride queue's members. -/
def strideSum (k : Kernel) : ℤ := ((strideList k).map fun j => (k.proc j).share.toInt).sum

/-! ### `set_cpu_share` -/

theorem strideJoin_strideShare {k k₁ : Kernel} {i : Slot} (h : strideJoin k i = .ok k₁) :
    k₁.mlfqstr.strideShare = k.mlfqstr.strideShare := by
  unfold strideJoin at h
  cases hh : k.mlfqstr.strideHead with
  | none =>
    simp only [hh, except_pure_eq, Except.ok.injEq] at h
    subst h
    simp
  | some hd =>
    simp only [hh] at h
    generalize Chain.find _ _ _ _ = r at h
    rcases r with _ | _ | j
    · cases h
    · simp only [except_pure_eq, Except.ok.injEq] at h
      subst h
      simp [strideadd]
    · simp only [except_pure_eq, Except.ok.injEq] at h
      subst h
      rfl

/-- What a successful `set_cpu_share` does: the share passed both tests, the queue part ran,
and the caller gets its share, stride and the stride level while the share is added to the
total. -/
theorem setCpuShare_eq_ok {k k' : Kernel} {c : CpuId} {i : Slot} {s : Int32}
    (h : setCpuShare k c i s = .ok (0, k')) :
    0 < s ∧ ¬ k.mlfqstr.strideShare + s > 80 ∧ ∃ k₁ stride ms, strideJoin k i = .ok k₁ ∧
      strideOf s = .ok stride ∧ mlfqStrideOf (k₁.mlfqstr.strideShare + s) = .ok ms ∧
      k' = (k₁.setProc i { k₁.proc i with
          share := s, stride := stride, level := STRIDE_LEVEL, timequant := 5 }).modMlfq
        fun m => { m with strideShare := k₁.mlfqstr.strideShare + s, mlfqStride := ms } := by
  unfold setCpuShare at h
  by_cases hs : s ≤ 0
  · simp [hs] at h
  by_cases ha : k.mlfqstr.strideShare + s > 80
  · simp [hs, ha] at h
  simp only [hs, ha, if_false] at h
  obtain ⟨k₁, hj, h⟩ := Except.bind_eq_ok.1 h
  obtain ⟨stride, hst, h⟩ := Except.bind_eq_ok.1 h
  obtain ⟨ms, hms, h⟩ := Except.bind_eq_ok.1 h
  refine ⟨Int32.not_le.1 hs, ha, k₁, stride, ms, hj, hst, hms, ?_⟩
  exact (Prod.mk.inj (Except.ok.inj h)).2.symm

/-- **`set_cpu_share` adds the new share and never subtracts the old one.** -/
theorem setCpuShare_adds_share {k k' : Kernel} {c : CpuId} {i : Slot} {s : Int32}
    (h : setCpuShare k c i s = .ok (0, k')) :
    k'.mlfqstr.strideShare = k.mlfqstr.strideShare + s ∧ (k'.proc i).share = s := by
  obtain ⟨-, -, k₁, stride, ms, hj, -, -, rfl⟩ := setCpuShare_eq_ok h
  simp [strideJoin_strideShare hj]

/-- The queue part leaves every pass as it was. -/
theorem strideJoin_pass {k k₁ : Kernel} {i j : Slot} (h : strideJoin k i = .ok k₁) :
    (k₁.proc j).pass = (k.proc j).pass := by
  unfold strideJoin at h
  cases hh : k.mlfqstr.strideHead with
  | none =>
    simp only [hh, except_pure_eq, Except.ok.injEq] at h
    subst h
    simp
  | some hd =>
    simp only [hh] at h
    generalize Chain.find _ _ _ _ = r at h
    rcases r with _ | _ | j'
    · cases h
    · simp only [except_pure_eq, Except.ok.injEq] at h
      subst h
      by_cases hj : j = i <;> simp [strideadd, hj]
    · simp only [except_pure_eq, Except.ok.injEq] at h
      subst h
      rfl

/-- **A proc joins the stride queue with the pass it already has**: `0` from `allocproc` for
a proc that never ran on the queue, whatever the members' passes are. -/
theorem setCpuShare_keeps_pass {k k' : Kernel} {c : CpuId} {i : Slot} {s : Int32}
    (h : setCpuShare k c i s = .ok (0, k')) : (k'.proc i).pass = (k.proc i).pass := by
  obtain ⟨-, -, k₁, stride, ms, hj, -, -, rfl⟩ := setCpuShare_eq_ok h
  simpa using strideJoin_pass hj

/-- The two error returns: the state is the old one with `ptable.lock` (and `mlfqstr.lock`)
still held by the caller's CPU. -/
theorem setCpuShare_rejects {k : Kernel} {c : CpuId} {i : Slot} {s : Int32}
    (h : s ≤ 0 ∨ k.mlfqstr.strideShare + s > 80) :
    setCpuShare k c i s = .ok (-1, { k with ptableLock := some c }) := by
  unfold setCpuShare
  by_cases hs : s ≤ 0
  · simp [hs]
  · have ha : k.mlfqstr.strideShare + s > 80 := h.resolve_left hs
    simp [hs, ha]

/-- **A rejected `set_cpu_share` returns to user space holding `ptable.lock`.**  From any state
with the lock free, the system call with a share that fails either test leaves everything as it
was but the lock, which the caller's CPU now holds; the next clock interrupt on that CPU
panics in `acquire`. -/
theorem set_cpu_share_error_holds_lock {k : Kernel} {c : CpuId} {i : Slot} {s : Int32}
    (hc : c.val < k.ncpu) (hidle : ∀ d, (k.cpus d).pending = false)
    (hfree : k.ptableLock = none) (hi : (k.cpus c).proc = some i)
    (hk : (k.proc i).killed = false) (hs : s ≤ 0 ∨ k.mlfqstr.strideShare + s > 80) :
    step k (.syscall c (.setCpuShare s)) = .ok { k with ptableLock := some c } ∧
      step { k with ptableLock := some c } (.timer c) = .error "ptable" := by
  constructor
  · rw [step_of_free (e := .syscall c (.setCpuShare s)) hc hidle hfree]
    -- the return to user space does not look at the lock
    have hback : toUser { k with ptableLock := some c } c =
        .ok (.user, { k with ptableLock := some c }) := toUser_alive hi hk
    simp [perform, hi, hk, syscall, setCpuShare_rejects hs, hback]
  · exact step_of_held (e := .timer c) hc hidle (by simp [Event.takesPtable, hi]) rfl

/-- The shell's child, running on CPU 0 after `bootShell`, calls `set_cpu_share(0)`. -/
theorem set_cpu_share_error_holds_lock_zeroShare :
    ∃ k i, Reachable 1 k ∧ cpu0.val < k.ncpu ∧ (∀ d, (k.cpus d).pending = false) ∧
      k.ptableLock = none ∧ (k.cpus cpu0).proc = some i ∧ (k.proc i).killed = false ∧
      step k (.syscall cpu0 (.setCpuShare 0)) = .ok { k with ptableLock := some cpu0 } ∧
      step { k with ptableLock := some cpu0 } (.timer cpu0) = .error "ptable" := by
  obtain ⟨k, i, hk, hq⟩ := Reachable.slot_of_run 1 bootShell
    (fun k i => decide (cpu0.val < k.ncpu ∧ (∀ d, (k.cpus d).pending = false) ∧
      k.ptableLock = none ∧ (k.cpus cpu0).proc = some i ∧ (k.proc i).killed = false))
    (by decide +kernel)
  obtain ⟨hc, hidle, hfree, hi, hkill⟩ := of_decide_eq_true hq
  exact ⟨k, i, hk, hc, hidle, hfree, hi, hkill,
    set_cpu_share_error_holds_lock hc hidle hfree hi hkill (.inl (by decide))⟩

/-- With a member of the caller's pid on the queue, the queue part changes nothing. -/
theorem strideJoin_same_pid {k : Kernel} {i h j : Slot} (hh : k.mlfqstr.strideHead = some h)
    (hj : Chain.find k.sNext (fun x => (k.proc x).pid = (k.proc i).pid) NPROC (some h) =
      .ok (some j)) :
    strideJoin k i = .ok k := by
  simp [strideJoin, hh, hj]

/-- **Membership in the stride queue is decided by pid.**  When a member has the caller's pid
(for an LWP, any other LWP), `set_cpu_share` gives the caller the stride level and leaves the
queue as it was: a caller that was not on the queue is still not on it. -/
theorem setCpuShare_same_pid {k k' : Kernel} {c : CpuId} {i h j : Slot} {s : Int32}
    (hh : k.mlfqstr.strideHead = some h)
    (hj : Chain.find k.sNext (fun x => (k.proc x).pid = (k.proc i).pid) NPROC (some h) =
      .ok (some j))
    (hs : setCpuShare k c i s = .ok (0, k')) :
    (k'.proc i).level = STRIDE_LEVEL ∧ strideList k' = strideList k := by
  obtain ⟨-, -, k₁, stride, ms, hk₁, -, -, rfl⟩ := setCpuShare_eq_ok hs
  rw [strideJoin_same_pid hh hj] at hk₁
  cases hk₁
  refine ⟨by simp, ?_⟩
  unfold strideList
  congr 1
  -- the update of the caller keeps its `s_link`
  funext x
  by_cases hx : x = i
  · subst hx
    simp [Kernel.sNext]
  · simp [Kernel.sNext, hx]

/-! ### `striderm` -/

theorem mlfqStrideOf_hundred : mlfqStrideOf 100 = .error "trap: divide error" := by
  decide

/-- **Removing the head of the queue divides by zero** when the share left is `100`. -/
theorem striderm_divide_error {k : Kernel} {i : Slot} (hh : k.mlfqstr.strideHead = some i)
    (h100 : k.mlfqstr.strideShare - (k.proc i).share = 100) :
    striderm k i = .error "trap: divide error" := by
  simp [striderm, hh, h100, mlfqStrideOf_hundred]

/-! ### Runs from boot -/

/-- On one CPU: the program takes share 10, forks a child and sleeps; the child takes the
share `2^31 - 1`, which wraps the total below zero, and sleeps; after a tick the program runs
again, sets its share to 90, kills the child and yields.  The child, at the head of the queue
with the largest share, runs next and exits. -/
def wrappedShares : List Event :=
  bootShell ++
  [.syscall cpu0 (.setCpuShare 10), .syscall cpu0 .fork, .syscall cpu0 (.sleep 1),
   .scheduler cpu0, .resume cpu0,
   .syscall cpu0 (.setCpuShare 2147483647), .syscall cpu0 (.sleep 1), .timer cpu0,
   .scheduler cpu0, .resume cpu0,
   .syscall cpu0 (.setCpuShare 90), .syscall cpu0 (.kill 3), .syscall cpu0 .yield,
   .scheduler cpu0]

/-- The total share is negative and not the sum of the members' shares, and the exit of the
child divides by zero. -/
theorem stride_share_divides_by_zero :
    ∃ k, Reachable 1 k ∧ k.mlfqstr.strideShare < 0 ∧ k.mlfqstr.strideShare.toInt ≠ strideSum k ∧
      step k (.resume cpu0) = .error "trap: divide error" := by
  obtain ⟨k, hk, hq⟩ := Reachable.of_run 1 wrappedShares
    (fun k => decide (k.mlfqstr.strideShare < 0 ∧ k.mlfqstr.strideShare.toInt ≠ strideSum k) &&
      stepFails (.resume cpu0) "trap: divide error" k)
    (by decide +kernel)
  simp only [Bool.and_eq_true, decide_eq_true_eq, stepFails_iff] at hq
  obtain ⟨⟨hneg, hsum⟩, hstep⟩ := hq
  exact ⟨k, hk, hneg, hsum, hstep⟩

/-- On one CPU: the program creates two threads and yields; the first thread takes a share and
yields to the second, which asks for a share too. -/
def twoThreadShares : List Event :=
  bootShell ++
  [.syscall cpu0 .threadCreate, .syscall cpu0 .threadCreate, .syscall cpu0 .yield, .resume cpu0,
   .syscall cpu0 (.setCpuShare 10), .syscall cpu0 .yield, .resume cpu0,
   .syscall cpu0 (.setCpuShare 10)]

/-- The second thread finds the first by its pid `-1`: it runs at the stride level and is not
on the stride queue. -/
theorem stride_level_off_queue :
    ∃ k i, Reachable 1 k ∧ (k.proc i).level = STRIDE_LEVEL ∧ (k.proc i).state = .running ∧
      i ∉ strideList k := by
  obtain ⟨k, i, hk, hq⟩ := Reachable.slot_of_run 1 twoThreadShares
    (fun k i => decide ((k.proc i).level = STRIDE_LEVEL ∧ (k.proc i).state = .running ∧
      i ∉ strideList k))
    (by decide +kernel)
  exact ⟨k, i, hk, of_decide_eq_true hq⟩

end Xv6Kernel
