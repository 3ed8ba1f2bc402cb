import Mathlib.Data.Fintype.Card
import Xv6Kernel.Proc.Step

/-!
# The MLFQ level counts

`mlfqstr.qlevels[l]` is the scheduler's count of the processes it may pick at level `l`:
`scheduler()` searches level 2 if `qlevels[2] > 0`, else level 1 if `qlevels[1] > 0`, else
level 0, and picks only procs that are runnable, at that level, and not LWPs
(`p->pid != -1`).  `CountsRight` says the counts are exact: `qlevels[l]` is the number of
non-LWP procs at level `l` that are runnable or running (`mlfqCount`), and `mlfq_proc_cnt` is
their total.

The counts are kept by hand, with `mlfqrm` and `mlfqadd` at each change of state, and two of
the paths get them wrong whatever the state they start from:

* `sleep_lwp_miscounts` : `sleep` calls `mlfqrm` for an LWP too, although an LWP is never
  counted (`thread_create` makes it runnable without `mlfqadd`, and the scheduler skips it);
  a thread slot that never held a process has level `0`, so the count of level 0 goes below
  zero (`qlevels_negative`);
* `wakeupOne_miscounts` : `wakeup_one` (of `xem_post`) makes a sleeping process runnable
  without the `mlfqadd` that `wakeup1` does.
-/

namespace Xv6Kernel

/-- The MLFQ counts `p` at level `l`: it is not an LWP, its level is `l`, and it is runnable
or running. -/
def Counted (p : Proc) (l : Fin 3) : Prop :=
  p.pid ≠ -1 ∧ levelIdx p.level = some l ∧ (p.state = .runnable ∨ p.state = .running)

instance (p : Proc) (l : Fin 3) : Decidable (Counted p l) :=
  inferInstanceAs (Decidable (_ ∧ _ ∧ _))

/-- The number of procs the MLFQ counts at level `l`. -/
def mlfqCount (k : Kernel) (l : Fin 3) : ℕ :=
  (Finset.univ.filter fun i => Counted (k.proc i) l).card

/-- The counts of `mlfqstr` are exact. -/
def CountsRight (k : Kernel) : Prop :=
  (∀ l, k.mlfqstr.qlevels l = mlfqCount k l) ∧
    k.mlfqstr.mlfqProcCnt = k.mlfqstr.qlevels 0 + k.mlfqstr.qlevels 1 + k.mlfqstr.qlevels 2

theorem mlfqCount_congr {k k' : Kernel} {l : Fin 3}
    (h : ∀ j, Counted (k'.proc j) l ↔ Counted (k.proc j) l) : mlfqCount k' l = mlfqCount k l := by
  unfold mlfqCount
  congr 1
  exact Finset.filter_congr fun j _ => h j

/-- A proc that starts to be counted at `l`, all others unchanged, adds one to the count. -/
theorem mlfqCount_add_one {k k' : Kernel} {l : Fin 3} {i : Slot}
    (hi : ¬ Counted (k.proc i) l) (hi' : Counted (k'.proc i) l)
    (h : ∀ j, j ≠ i → k'.proc j = k.proc j) : mlfqCount k' l = mlfqCount k l + 1 := by
  unfold mlfqCount
  have hset : (Finset.univ.filter fun j => Counted (k'.proc j) l) =
      insert i (Finset.univ.filter fun j => Counted (k.proc j) l) := by
    ext j
    by_cases hj : j = i
    · subst hj; simp [hi']
    · simp [hj, h j hj]
  rw [hset, Finset.card_insert_of_notMem (by simp [hi])]

theorem levelIdx_ne_stride {l : UInt32} {x : Fin 3} (h : levelIdx l = some x) :
    l ≠ STRIDE_LEVEL := by
  intro hl
  subst hl
  simp [levelIdx, STRIDE_LEVEL] at h

theorem mlfqrm_qlevels {m : Mlfqstr} {p : Proc} {l : Fin 3} (h : levelIdx p.level = some l) :
    (mlfqrm m p).qlevels l = m.qlevels l - 1 := by
  simp [mlfqrm, h, Int.sub_eq_add_neg]

/-! ### `sleep` of an LWP -/

/-- **An LWP that goes to sleep breaks exact counts.**  Its level (whatever the slot last held)
loses one in `qlevels`, while the LWP was never counted. -/
theorem sleep_lwp_miscounts {k k' : Kernel} {c : CpuId} {i : Slot} {l : Fin 3} {ch : Chan}
    {s : Sleeper} (hi : (k.cpus c).proc = some i) (hpid : (k.proc i).pid = -1)
    (hl : levelIdx (k.proc i).level = some l) (hc : CountsRight k)
    (h : sleep k c ch s = .ok k') : ¬ CountsRight k' := by
  obtain ⟨i', hi', hm, hp⟩ := sleep_eq_ok h
  rw [hi] at hi'
  cases hi'
  have hcount : mlfqCount k' l = mlfqCount k l := by
    apply mlfqCount_congr
    intro j
    rw [hp j]
    by_cases hj : j = i
    · subst hj; simp [Counted, hpid]
    · simp [hj]
  have hq : k'.mlfqstr.qlevels l = k.mlfqstr.qlevels l - 1 := by
    rw [hm, if_pos (levelIdx_ne_stride hl), mlfqrm_qlevels hl]
  intro hc'
  have h1 := hc.1 l
  have h2 := hc'.1 l
  rw [hq, h1, hcount] at h2
  omega

/-! ### `wakeup_one` -/

/-- `wakeup_one` leaves `mlfqstr` as it is. -/
theorem wakeupOne_mlfqstr (k : Kernel) (ch : Chan) : (wakeupOne k ch).mlfqstr = k.mlfqstr := by
  unfold wakeupOne
  split <;> rfl

/-- **`wakeup_one` breaks exact counts** when the first sleeper on the channel is a process at
an MLFQ level: it becomes runnable, so counted, and no count moves. -/
theorem wakeupOne_miscounts {k : Kernel} {ch : Chan} {i : Slot} {l : Fin 3}
    (hfirst : (List.finRange NPROC).find?
      (fun j => (k.proc j).state = .sleeping ∧ (k.proc j).chan = ch) = some i)
    (hpid : (k.proc i).pid ≠ -1) (hl : levelIdx (k.proc i).level = some l) (hc : CountsRight k) :
    ¬ CountsRight (wakeupOne k ch) := by
  have hs : (k.proc i).state = .sleeping := by
    have := List.find?_some hfirst
    simp only [decide_eq_true_eq] at this
    exact this.1
  have hw : wakeupOne k ch = k.setProc i { k.proc i with state := .runnable } := by
    simp only [wakeupOne, hfirst]
  have hcount : mlfqCount (wakeupOne k ch) l = mlfqCount k l + 1 := by
    apply mlfqCount_add_one (i := i)
    · simp [Counted, hs]
    · simp [hw, Counted, hpid, hl]
    · intro j hj
      simp [hw, hj]
  intro hc'
  have h1 := hc.1 l
  have h2 := hc'.1 l
  rw [wakeupOne_mlfqstr, h1, hcount] at h2
  omega

/-! ### A run that reaches a negative count -/

/-- The program creates a thread and yields to it; the thread sleeps for 5 ticks. -/
def lwpSleeps : List Event :=
  bootShell ++ [.syscall cpu0 .threadCreate, .syscall cpu0 .yield, .resume cpu0,
    .syscall cpu0 (.sleep 5)]

/-- The thread's slot never held a process, so its level is `0`, and its sleep takes the count
of level 0 to `-1`. -/
theorem qlevels_negative : ∃ k, Reachable 1 k ∧ k.mlfqstr.qlevels 0 < 0 ∧ ¬ CountsRight k := by
  obtain ⟨k, hk, hq⟩ := Reachable.of_run 1 lwpSleeps
    (fun k => decide (k.mlfqstr.qlevels 0 < 0)) (by decide +kernel)
  have hneg : k.mlfqstr.qlevels 0 < 0 := by simpa using hq
  refine ⟨k, hk, hneg, fun hc => ?_⟩
  have := hc.1 0
  omega

end Xv6Kernel
