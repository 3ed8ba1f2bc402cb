import Xv6Kernel.Proc.Stride

/-!
# The scheduling policy: quanta, the choice of `scheduler()`, and stride passes

What the MLFQ and stride scheduling of `proc.c` decide, and where that differs from the policy
they implement:

* `yield_switches_first_tick` : the quantum test of `yield` uses the tick count from before the
  increment, so a single-threaded group gives up the CPU on the first tick after a level change
  or a boost (and then on the `timequant + 1`-th, ...), not after its first whole quantum.
* `scheduler_idles_past_stride` : with no proc counted in the MLFQ, the stride scan starts from
  the pass of the head of the queue whether or not the head is runnable; when every runnable
  member's pass is above it, the round selects nothing.  `headAsleep` reaches such a state with
  a runnable member (`strideScan_of_above`, `mlfqSearch_fst_none` are the two loops).
* `stride_pass_gap` : a proc joins the stride queue with the pass it has
  (`setCpuShare_keeps_pass`), `0` for one that never ran on it, so two runnable members' passes
  can be further apart than any member's pass moves in a quantum.
-/

namespace Xv6Kernel

/-! ### The quantum test of `yield` -/

/-- **`yield` switches on the first tick of a quantum.**  A group with one thread whose tick
count is `0` (no tick since its last level change or boost) and whose quantum is longer than one
tick, at a level where the tick does not use up the allotment and with no boost due, gives up the
CPU: the test `tickcount % timequant == 0` reads the count from before the increment. -/
theorem yield_switches_first_tick {k : Kernel} {c : CpuId} {ctx : Context} {cur main : Slot}
    (hcur : (k.cpus c).proc = some cur) (hmain : (k.proc cur).lwpgroup = some main)
    (hone : (k.proc main).threadCount ≤ 1) (hfresh : (k.proc main).tickcount = 0)
    (hq : 1 < (k.proc main).timequant) (hallot : 0 < (k.proc main).timeallot)
    (hboost : k.ticks - k.mlfqstr.priboosttime < 200) :
    ∃ k', yield k c ctx = .ok (true, k') := by
  have hlow : ¬ (k.proc main).timeallot ≤ 0 := UInt32.not_le.2 hallot
  have hnb : ¬ 200 ≤ k.ticks - k.mlfqstr.priboosttime := UInt32.not_le.2 hboost
  have hq0 : (k.proc main).timequant ≠ 0 := by
    intro h
    rw [h] at hq
    exact absurd hq (by decide)
  unfold yield
  have hsingle : ¬ 1 < (k.proc main).threadCount := not_lt.2 hone
  -- `yield` writes `main` and then `cur`, and its stride update has three branches; in every
  -- one the thread count and the quantum of `main` are as they were
  by_cases hcm : cur = main
  · subst hcm
    cases hh : k.mlfqstr.strideHead with
    | none => simp [hcur, hmain, hfresh, hlow, hnb, hh, hsingle, hq0, sched]
    | some h =>
      by_cases hl : (k.proc cur).level = STRIDE_LEVEL
      · simp [hcur, hmain, hfresh, hlow, hnb, hh, hl, hsingle, hq0, sched]
      · simp [hcur, hmain, hfresh, hlow, hnb, hh, hl, hsingle, hq0, sched]
  · have hmc : main ≠ cur := Ne.symm hcm
    cases hh : k.mlfqstr.strideHead with
    | none => simp [hcur, hmain, hfresh, hlow, hnb, hh, hsingle, hq0, sched, hcm, hmc]
    | some h =>
      by_cases hl : (k.proc main).level = STRIDE_LEVEL
      · simp [hcur, hmain, hfresh, hlow, hnb, hh, hl, hsingle, hq0, sched, hcm, hmc]
      · simp [hcur, hmain, hfresh, hlow, hnb, hh, hl, hsingle, hq0, sched, hcm, hmc]

theorem yield_switches_first_tick_shell :
    ∃ k cur, Reachable 1 k ∧ (k.cpus cpu0).proc = some cur ∧ (k.proc cur).lwpgroup = some cur ∧
      (k.proc cur).threadCount ≤ 1 ∧ (k.proc cur).tickcount = 0 ∧ 1 < (k.proc cur).timequant ∧
      0 < (k.proc cur).timeallot ∧ k.ticks - k.mlfqstr.priboosttime < 200 ∧
      ∃ k', yield k cpu0 .yield = .ok (true, k') := by
  obtain ⟨k, cur, hk, hq⟩ := Reachable.slot_of_run 1 bootShell
    (fun k cur => decide ((k.cpus cpu0).proc = some cur ∧ (k.proc cur).lwpgroup = some cur ∧
      (k.proc cur).threadCount ≤ 1 ∧ (k.proc cur).tickcount = 0 ∧ 1 < (k.proc cur).timequant ∧
      0 < (k.proc cur).timeallot ∧ k.ticks - k.mlfqstr.priboosttime < 200))
    (by decide +kernel)
  obtain ⟨hcur, hmain, hone, hfresh, hq, hallot, hboost⟩ := of_decide_eq_true hq
  exact ⟨k, cur, hk, hcur, hmain, hone, hfresh, hq, hallot, hboost,
    yield_switches_first_tick hcur hmain hone hfresh hq hallot hboost⟩

/-! ### One round of `scheduler()` -/

/-- The scan of the stride queue keeps what it started with when the queue ends within its
bound and every runnable member's pass is above the bound it starts from. -/
theorem strideScan_of_above {k : Kernel} :
    ∀ {n : ℕ} {a : Option Slot} {minPass : UInt32} {best : Option Slot},
      Chain.ends k.sNext n a = true →
      (∀ j ∈ Chain.nodes k.sNext n a, (k.proc j).state = .runnable →
        minPass < (k.proc j).pass.toUInt32) →
      strideScan k n a minPass best = .ok best
  | _, none, _, _, _, _ => by simp [strideScan]
  | 0, some _, _, _, hend, _ => by simp [Chain.ends] at hend
  | n + 1, some sp, minPass, best, hend, habove => by
    have hsp := habove sp List.mem_cons_self
    -- the head is skipped: it is not runnable, or its pass is above the bound
    have hskip : ¬ ((k.proc sp).pass.toUInt32 ≤ minPass ∧ (k.proc sp).state = .runnable) :=
      fun h => absurd h.1 (UInt32.not_le.2 (hsp h.2))
    rw [strideScan, if_neg hskip]
    exact strideScan_of_above hend fun j hj => habove j (List.mem_cons_of_mem _ hj)

/-- The search of the MLFQ finds nothing when no slot holds a runnable proc at the level that
is not an LWP. -/
theorem mlfqSearch_fst_none {k : Kernel} {level : UInt32}
    (h : ∀ j, ¬ ((k.proc j).state = .runnable ∧ (k.proc j).level = level ∧ (k.proc j).pid ≠ -1)) :
    ∀ {n : ℕ} {idx : Slot}, (mlfqSearch k level n idx).1 = none
  | 0, _ => rfl
  | n + 1, idx => by
    rw [mlfqSearch, if_neg (h idx)]
    exact mlfqSearch_fst_none h

/-- **The scheduler can idle while a stride proc is runnable.**  With the MLFQ count at zero,
`scheduler()` seeds the bound of its stride scan with the pass of the head of the queue, whether
or not the head is runnable.  When every runnable member's pass is above the head's, the scan
finds nothing; with no runnable proc outside the stride queue, the MLFQ search finds nothing
either, and the round changes nothing but the search index. -/
theorem scheduler_idles_past_stride {k : Kernel} {c : CpuId} {h : Slot}
    (hh : k.mlfqstr.strideHead = some h) (hcnt : k.mlfqstr.mlfqProcCnt ≤ 0)
    (hend : Chain.ends k.sNext NPROC (some h) = true)
    (habove : ∀ j ∈ strideList k, (k.proc j).state = .runnable →
      (k.proc h).pass.toUInt32 < (k.proc j).pass.toUInt32)
    (hmlfq : ∀ j, (k.proc j).state = .runnable → (k.proc j).pid ≠ -1 →
      (k.proc j).level = STRIDE_LEVEL) :
    ∃ idx, scheduler k c = .ok (k.setCpu c { k.cpus c with searchidx := idx }) := by
  rw [strideList, hh] at habove
  have hscan : strideScan k NPROC (some h) (k.proc h).pass.toUInt32 none = .ok none :=
    strideScan_of_above hend habove
  -- no runnable proc that is not an LWP sits at an MLFQ level
  have hsearch : ∀ (l : UInt32) (idx : Slot), l ≠ STRIDE_LEVEL →
      mlfqSearch k l NPROC idx = (none, (mlfqSearch k l NPROC idx).2) := by
    intro l idx hl
    refine Prod.ext (mlfqSearch_fst_none fun j ⟨hr, hlj, hp⟩ => hl ?_) rfl
    rw [← hlj]
    exact hmlfq j hr hp
  have hlevel : (if 0 < k.mlfqstr.qlevels 2 then 2 else if 0 < k.mlfqstr.qlevels 1 then 1 else 0 :
      UInt32) ≠ STRIDE_LEVEL := by
    split_ifs <;> decide
  have hpos : ¬ 0 < k.mlfqstr.mlfqProcCnt := not_lt.2 hcnt
  unfold scheduler
  simp only [hh, hpos, if_false, hscan, except_ok_bind]
  rw [hsearch _ _ hlevel]
  exact ⟨_, rfl⟩

/-- On one CPU: the shell's child P takes a share and yields once, forks Q and sleeps; Q takes a
share (it becomes the head of the queue, with pass 0) and sleeps too.  A tick wakes both; Q runs
first, finds its time not up and sleeps again, and P is left runnable. -/
def headAsleep : List Event :=
  bootShell ++
  [.syscall cpu0 (.setCpuShare 10), .syscall cpu0 .yield, .scheduler cpu0, .resume cpu0,
   .syscall cpu0 .fork, .syscall cpu0 (.sleep 1), .scheduler cpu0, .resume cpu0,
   .syscall cpu0 (.setCpuShare 10), .syscall cpu0 (.sleep 5), .timer cpu0, .scheduler cpu0,
   .resume cpu0]

theorem scheduler_idles_past_stride_headAsleep :
    ∃ k h, Reachable 1 k ∧ k.mlfqstr.strideHead = some h ∧ k.mlfqstr.mlfqProcCnt ≤ 0 ∧
      Chain.ends k.sNext NPROC (some h) = true ∧
      (∀ j ∈ strideList k, (k.proc j).state = .runnable →
        (k.proc h).pass.toUInt32 < (k.proc j).pass.toUInt32) ∧
      (∀ j, (k.proc j).state = .runnable → (k.proc j).pid ≠ -1 →
        (k.proc j).level = STRIDE_LEVEL) ∧
      (∃ j, (k.proc j).state = .runnable ∧ (k.proc j).pid ≠ -1) ∧
      ∃ idx, scheduler k cpu0 = .ok (k.setCpu cpu0 { k.cpus cpu0 with searchidx := idx }) := by
  obtain ⟨k, h, hk, hq⟩ := Reachable.slot_of_run 1 headAsleep
    (fun k h => decide (k.mlfqstr.strideHead = some h ∧ k.mlfqstr.mlfqProcCnt ≤ 0 ∧
      Chain.ends k.sNext NPROC (some h) = true ∧
      (∀ j ∈ strideList k, (k.proc j).state = .runnable →
        (k.proc h).pass.toUInt32 < (k.proc j).pass.toUInt32) ∧
      (∀ j, (k.proc j).state = .runnable → (k.proc j).pid ≠ -1 →
        (k.proc j).level = STRIDE_LEVEL) ∧
      (∃ j, (k.proc j).state = .runnable ∧ (k.proc j).pid ≠ -1)))
    (by decide +kernel)
  obtain ⟨hh, hcnt, hend, habove, hmlfq, hrun⟩ := of_decide_eq_true hq
  exact ⟨k, h, hk, hh, hcnt, hend, habove, hmlfq, hrun,
    scheduler_idles_past_stride hh hcnt hend habove hmlfq⟩

/-! ### Stride passes -/

/-- On one CPU: the shell's child P takes a share and calls `yield` eleven times (the scheduler
picks it again at each switch), then forks Q and sleeps; Q takes a share, joining the queue with
the pass 0 that `allocproc` gave it, and its first tick wakes P. -/
def lateJoin : List Event :=
  bootShell ++
  [.syscall cpu0 (.setCpuShare 10),
   .syscall cpu0 .yield, .scheduler cpu0, .resume cpu0,
   .syscall cpu0 .yield, .syscall cpu0 .yield, .syscall cpu0 .yield, .syscall cpu0 .yield,
   .syscall cpu0 .yield, .scheduler cpu0, .resume cpu0,
   .syscall cpu0 .yield, .syscall cpu0 .yield, .syscall cpu0 .yield, .syscall cpu0 .yield,
   .syscall cpu0 .yield, .scheduler cpu0, .resume cpu0,
   .syscall cpu0 .fork, .syscall cpu0 (.sleep 1), .scheduler cpu0, .resume cpu0,
   .syscall cpu0 (.setCpuShare 10), .timer cpu0]

/-- **Two runnable members of the stride queue can be more than a quantum's pass apart**, with
no proc counted in the MLFQ. -/
theorem stride_pass_gap :
    ∃ k i j, Reachable 1 k ∧ i ∈ strideList k ∧ j ∈ strideList k ∧
      (k.proc i).state = .runnable ∧ (k.proc j).state = .runnable ∧ k.mlfqstr.mlfqProcCnt = 0 ∧
      ∀ l ∈ strideList k, (k.proc l).stride.toInt * (k.proc l).timequant.toNat <
        (k.proc i).pass.toInt - (k.proc j).pass.toInt := by
  obtain ⟨k, i, hk, hq⟩ := Reachable.slot_of_run 1 lateJoin
    (fun k i => (List.finRange NPROC).any fun j => decide (i ∈ strideList k ∧ j ∈ strideList k ∧
      (k.proc i).state = .runnable ∧ (k.proc j).state = .runnable ∧ k.mlfqstr.mlfqProcCnt = 0 ∧
      ∀ l ∈ strideList k, (k.proc l).stride.toInt * (k.proc l).timequant.toNat <
        (k.proc i).pass.toInt - (k.proc j).pass.toInt))
    (by decide +kernel)
  obtain ⟨j, -, hj⟩ := List.any_eq_true.1 hq
  obtain ⟨hi, hj, hri, hrj, hcnt, hgap⟩ := of_decide_eq_true hj
  exact ⟨k, i, j, hk, hi, hj, hri, hrj, hcnt, hgap⟩

end Xv6Kernel
