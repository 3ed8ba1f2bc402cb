import Xv6Kernel.Lib.Interleaving
import Xv6Kernel.Proc.Step

/-!
# Claiming a proc slot on several CPUs

Two calls take a free slot of `ptable` and make it an embryo: `allocproc` (from `fork` and
`userinit`) and `thread_create`.  `allocproc` finds the slot and claims it in one section under
`ptable.lock`.  `thread_create` does it in two: `find_unused` finds an unused slot under
`ptable.lock` and releases the lock, and only then does `thread_create` take the lock again
(`acquire_ptable`) and write `EMBRYO` into the slot, without looking at its state again.

The sections run on several CPUs interleaved (`Interleaving`): each CPU makes a list of these
calls, and its program point says, inside a `thread_create`, which slot `find_unused` gave.

* `allocproc_claims_unused`, `findUnused_unused` : within one section, the slot taken is
  unused.
* `claimOf` is the slot that a CPU's next section claims, if it claims one;
  `claimOf_embryo` : every claim leaves its slot an embryo, whatever state it was in.
* `slot_claimed_twice` : from a state reached on two CPUs, `find_unused` on CPU 1 and then
  `allocproc` on CPU 0 pick the same slot, and CPU 1 claims the slot that is already the embryo
  of `fork`'s child, which becomes a thread.
-/

namespace Xv6Kernel

/-! ### The sections -/

/-- `find_unused()`: the first unused slot, read under `ptable.lock`, which is released before
the slot is returned. -/
def findUnused (k : Kernel) : Option Slot :=
  (List.finRange NPROC).find? fun j => (k.proc j).state = .unused

/-- The section of `thread_create` from `acquire_ptable()`: the slot `p` that `find_unused`
returned becomes an embryo of the group of `curproc`, whatever state it is in. -/
def claimThread (k : Kernel) (p cur : Slot) : Kernel :=
  k.setProc p { k.proc p with
    state := .embryo, pid := -1, lwpgroup := some cur, waitingTid := -1, parent := none,
    timequant := 1, sLink := none, share := 0, stride := -1, pass := 0, kstack := true,
    context := .forkret }

theorem findUnused_unused {k : Kernel} {i : Slot} (h : findUnused k = some i) :
    (k.proc i).state = .unused := by
  have := List.find?_some h
  simpa using this

/-- **`allocproc` claims an unused slot**: it finds and claims the slot in one section. -/
theorem allocproc_claims_unused {k k' : Kernel} {i : Slot} (h : allocproc k = some (i, k')) :
    (k.proc i).state = .unused ∧ (k'.proc i).state = .embryo := by
  unfold allocproc at h
  split at h
  · cases h
  · rename_i j hj
    cases h
    exact ⟨findUnused_unused hj, by simp⟩

/-! ### The calls interleaved on several CPUs -/

/-- A call that claims a slot. -/
inductive Alloc
  | allocproc
  | threadCreate
  deriving DecidableEq, Repr

/-- Where a CPU is: inside a `thread_create`, the slot `find_unused` gave it, and the calls it
has still to make. -/
structure Claimer where
  found : Option Slot
  calls : List Alloc
  deriving DecidableEq, Repr

/-- One section of the calls of CPU `c`.  A `thread_create` whose `find_unused` finds no slot
returns `-1`; the claim of `thread_create` is by the proc running on `c`. -/
def claimProg (c : CpuId) : Claimer → Kernel → Except String (Claimer × Kernel)
  | ⟨some i, cs⟩, k =>
    match (k.cpus c).proc with
    | none => .error "thread_create: no proc"
    | some cur => .ok (⟨none, cs⟩, claimThread k i cur)
  | ⟨none, []⟩, k => .ok (⟨none, []⟩, k)
  | ⟨none, .allocproc :: cs⟩, k => .ok (⟨none, cs⟩, ((allocproc k).map Prod.snd).getD k)
  | ⟨none, .threadCreate :: cs⟩, k => .ok (⟨findUnused k, cs⟩, k)

/-- A configuration of the CPUs making their calls. -/
abbrev Claiming := Interleaving.Config CpuId Claimer Kernel

/-- The slot that the next section of CPU `c` claims, if it claims one. -/
def claimOf (s : Claiming) (c : CpuId) : Option Slot :=
  match s.pc c with
  | ⟨some i, _⟩ => some i
  | ⟨none, .allocproc :: _⟩ => (allocproc s.shared).map Prod.fst
  | _ => none

/-- **Every claim leaves its slot an embryo**, that of `allocproc` and that of `thread_create`
alike. -/
theorem claimOf_embryo {s s' : Claiming} {c : CpuId} {i : Slot} (hc : claimOf s c = some i)
    (h : Interleaving.step claimProg s c = .ok s') : (s'.shared.proc i).state = .embryo := by
  obtain ⟨hprog, -⟩ := Interleaving.step_eq_ok.1 h
  unfold claimOf at hc
  split at hc
  · -- inside `thread_create`: the claim of the slot `find_unused` gave
    rename_i j cs hpc
    cases hc
    rw [hpc] at hprog
    simp only [claimProg] at hprog
    split at hprog
    · cases hprog
    · obtain ⟨-, hsh⟩ := Prod.mk.inj (Except.ok.inj hprog)
      rw [← hsh]
      simp [claimThread]
  · -- `allocproc`, which claims the slot it finds
    rename_i cs hpc
    obtain ⟨⟨j, k'⟩, ha, hj⟩ := Option.map_eq_some_iff.1 hc
    cases hj
    rw [hpc] at hprog
    simp only [claimProg, ha, Option.map_some, Option.getD_some] at hprog
    obtain ⟨-, hsh⟩ := Prod.mk.inj (Except.ok.inj hprog)
    rw [← hsh]
    exact (allocproc_claims_unused ha).2
  · cases hc

/-! ### Two CPUs claim the same slot -/

/-- CPU 1. -/
def cpu1 : CpuId := 1

/-- On two CPUs: init runs on CPU 0, execs and forks; the child runs on CPU 1. -/
def twoRunning : List Event :=
  [.scheduler cpu0, .resume cpu0, .syscall cpu0 (.exec 8192), .syscall cpu0 .fork,
   .scheduler cpu1, .resume cpu1]

/-- CPU 0 calls `fork`, whose `allocproc` claims a slot; CPU 1 calls `thread_create`. -/
def forkAndCreate (k : Kernel) : Claiming :=
  ⟨fun c => if c = cpu0 then ⟨none, [.allocproc]⟩ else ⟨none, [.threadCreate]⟩, k⟩

/-- Whether, in `s`, CPU 1 is about to claim a slot that was unused in `k` and is now an
embryo with a pid, and its claim turns that embryo into a thread. -/
def overwritesEmbryo (k : Kernel) (s : Claiming) : Bool :=
  match claimOf s cpu1, Interleaving.step claimProg s cpu1 with
  | some i, .ok s' =>
    (k.proc i).state = .unused && (s.shared.proc i).state = .embryo &&
      (s.shared.proc i).pid ≠ -1 && (s'.shared.proc i).pid = -1
  | _, _ => false

/-- **A slot is claimed twice.**  CPU 1's `find_unused` returns the first unused slot, CPU 0's
`allocproc` claims that same slot for the child of `fork`, and CPU 1 then claims it again: the
child's embryo becomes a thread with pid `-1`. -/
theorem slot_claimed_twice :
    ∃ k s s' i, Reachable 2 k ∧
      Machine.Reach (Interleaving.step claimProg) (forkAndCreate k) s ∧
      (k.proc i).state = .unused ∧ claimOf s cpu1 = some i ∧ (s.shared.proc i).state = .embryo ∧
      (s.shared.proc i).pid ≠ -1 ∧ Interleaving.step claimProg s cpu1 = .ok s' ∧
      (s'.shared.proc i).state = .embryo ∧ (s'.shared.proc i).pid = -1 := by
  obtain ⟨k, hk, hr⟩ := Reachable.of_run 2 twoRunning
    (fun k => (Machine.run (Interleaving.step claimProg) (forkAndCreate k) [cpu1, cpu0]).toOption.map
      (overwritesEmbryo k) == some true) (by decide +kernel)
  obtain ⟨s, hs, ho⟩ := Machine.exists_reach_of_run (beq_iff_eq.1 hr)
  unfold overwritesEmbryo at ho
  split at ho
  · rename_i i s' hi hstep
    simp only [Bool.and_eq_true, decide_eq_true_eq] at ho
    obtain ⟨⟨⟨hu, he⟩, hpid⟩, hpid'⟩ := ho
    exact ⟨k, s, s', i, hk, hs, hu, hi, he, hpid, hstep, claimOf_embryo hi hstep, hpid'⟩
  · cases ho

end Xv6Kernel
