import Xv6Kernel.Proc.Step

/-!
# LWP groups, the process tree and shared page directories

A group is a main thread `m` (`m->lwpgroup == m`) and the threads on its list along `t_link`
(`groupList`); its threads share `m`'s page directory.  The group's bookkeeping is left behind
when its main thread exits with threads still alive:

* `reap_eq_ok`, `reap_frees_shared_pgdir` : `wait` frees the page directory of the zombie child
  it reaps and nothing else, so a thread of that child that is still alive keeps a page
  directory that has been freed, and a main thread that is unused (`exit` of a main thread
  neither waits for nor kills its threads);
* `allocproc_inherits_list` : `allocproc` makes its slot the main thread of a group of one but
  keeps the slot's `t_link`, so a slot reused after such an exit starts a group whose list is
  longer than its count.

`freed_pgdir_in_use` and `group_list_longer_than_count` are the two on one run from boot:
a program creates a thread and exits; init reaps it, and then forks a child into its slot.
-/

namespace Xv6Kernel

/-- The thread list from `m`: the first `NPROC` nodes along `t_link`. -/
def groupList (k : Kernel) (m : Slot) : List Slot := Chain.nodes k.tNext NPROC (some m)

/-- A node with a successor heads a list of at least two nodes. -/
theorem two_le_groupList_length {k : Kernel} {m t : Slot} (ht : (k.proc m).tLink = some t) :
    2 ≤ (groupList k m).length := by
  have hn : NPROC = 62 + 1 + 1 := rfl
  simp [groupList, hn, Chain.nodes, Kernel.tNext, ht]

/-! ### Reaping a child -/

/-- What `reap` does: it frees the child's page directory and clears its slot's process
fields. -/
theorem reap_eq_ok {k k' : Kernel} {j : Slot} (h : reap k j = .ok k') :
    ∃ d, (k.proc j).pgdir = some d ∧ k' = (k.setPgdir d none).setProc j { k.proc j with
      kstack := false, pid := 0, parent := none, killed := false, state := .unused } := by
  unfold reap at h
  by_cases hk : (k.proc j).kstack
  · simp only [hk, Bool.not_true, Bool.false_eq_true, if_false] at h
    cases hd : (k.proc j).pgdir with
    | none => simp [hd, Kernel.freevm] at h
    | some d =>
      simp only [hd, Kernel.freevm, except_ok_bind, except_pure_eq] at h
      exact ⟨d, rfl, (Except.ok.inj h).symm⟩
  · simp [hk] at h

/-- **`wait` frees a page directory that others still use.**  Any other proc that shares the
reaped child's page directory (one of its threads) is left as it was, naming a page directory
that has been freed. -/
theorem reap_frees_shared_pgdir {k k' : Kernel} {j x : Slot} {d : ℕ}
    (h : reap k j = .ok k') (hj : (k.proc j).pgdir = some d) (hx : x ≠ j) :
    k'.proc x = k.proc x ∧ k'.pgdirs d = none := by
  obtain ⟨d', hd', rfl⟩ := reap_eq_ok h
  rw [hj] at hd'
  cases hd'
  simp [hx]

/-! ### A slot reused by `allocproc` -/

/-- **A new process inherits the thread list of its slot.**  `allocproc` makes the slot the
main thread of a group of one (`thread_count = 1`) but keeps its `t_link`; when the slot's
last occupant left a thread linked, the new group's list has at least two nodes. -/
theorem allocproc_inherits_list {k k' : Kernel} {i t : Slot}
    (h : allocproc k = some (i, k')) (ht : (k.proc i).tLink = some t) :
    (k'.proc i).lwpgroup = some i ∧ (k'.proc i).threadCount = 1 ∧
      2 ≤ (groupList k' i).length := by
  unfold allocproc at h
  split at h
  · cases h
  · obtain ⟨rfl, rfl⟩ := Prod.mk.inj (Option.some.inj h)
    refine ⟨by simp, by simp, two_le_groupList_length (t := t) ?_⟩
    simp [ht]

/-! ### A run from boot -/

/-- The program creates a thread and exits; init, waiting, reaps it. -/
def exitWithThread : List Event :=
  bootShell ++ [.syscall cpu0 .threadCreate, .syscall cpu0 .exit, .scheduler cpu0, .resume cpu0]

/-- The thread outlives its group: it is runnable, its main thread's slot is unused and its
page directory has been freed. -/
theorem freed_pgdir_in_use :
    ∃ k i m d, Reachable 1 k ∧ (k.proc i).pid = -1 ∧ (k.proc i).state = .runnable ∧
      (k.proc i).lwpgroup = some m ∧ (k.proc m).state = .unused ∧
      (k.proc i).pgdir = some d ∧ k.pgdirs d = none := by
  obtain ⟨k, i, hk, hq⟩ := Reachable.slot_of_run 1 exitWithThread
    (fun k i => decide ((k.proc i).pid = -1 ∧ (k.proc i).state = .runnable ∧
      ∃ m, (k.proc i).lwpgroup = some m ∧ (k.proc m).state = .unused) &&
      (k.proc i).pgdir.any fun d => (k.pgdirs d).isNone)
    (by decide +kernel)
  simp only [Bool.and_eq_true, decide_eq_true_eq, Option.any_eq_true, Option.isNone_iff_eq_none]
    at hq
  obtain ⟨⟨hpid, hrun, m, hm, hmu⟩, d, hd, hfree⟩ := hq
  exact ⟨k, i, m, d, hk, hpid, hrun, hm, hmu, hd, hfree⟩

/-- Init then forks: the child gets the exited program's slot, whose `t_link` still names the
thread. -/
theorem group_list_longer_than_count :
    ∃ k m, Reachable 1 k ∧ (k.proc m).lwpgroup = some m ∧ (k.proc m).state = .runnable ∧
      ((groupList k m).length : ℤ) ≠ (k.proc m).threadCount := by
  obtain ⟨k, m, hk, hq⟩ := Reachable.slot_of_run 1 (exitWithThread ++ [.syscall cpu0 .fork])
    (fun k m => decide ((k.proc m).lwpgroup = some m ∧ (k.proc m).state = .runnable ∧
      ((groupList k m).length : ℤ) ≠ (k.proc m).threadCount))
    (by decide +kernel)
  exact ⟨k, m, hk, of_decide_eq_true hq⟩

end Xv6Kernel
