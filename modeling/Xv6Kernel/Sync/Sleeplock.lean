import Xv6Kernel.Proc.Step

/-!
# Sleep locks and their holders (`sleeplock.c`, `fs.c`, `bio.c`)

A sleep lock records its holder by pid: `acquiresleep` stores `myproc()->pid`, and
`holdingsleep` compares it with the caller's.  `iunlock`, `bwrite` and `brelse` refuse (panic)
when the caller does not hold the lock.  `thread_create` gives every LWP the pid `-1`, so any
LWP passes the test for a lock that another LWP holds.

* `sleeplock_other_lwp` : a lock that an LWP acquired is held, for `holdingsleep`, by every
  LWP, and `iunlock`, `bwrite` and `brelse` by another LWP go through.  `twoThreads` reaches a
  state with two live LWPs.

The spinlock inside the sleep lock, the sleep of a waiter and the buffer cache's list are not
modelled: the functions here are the updates and the tests of the lock's words.
-/

namespace Xv6Kernel

/-- `struct sleeplock`: `locked` and the holder's `pid`. -/
structure Sleeplock where
  locked : UInt32
  pid : ℤ
  deriving DecidableEq, Repr

/-- `initsleeplock`. -/
def Sleeplock.free : Sleeplock := ⟨0, 0⟩

/-- `acquiresleep(lk)` by a proc with pid `pid`: the lock, or `none` when it is held and the
caller sleeps. -/
def acquiresleep (lk : Sleeplock) (pid : ℤ) : Option Sleeplock :=
  if lk.locked ≠ 0 then none else some ⟨1, pid⟩

/-- `releasesleep(lk)`. -/
def releasesleep (_ : Sleeplock) : Sleeplock := ⟨0, 0⟩

/-- `holdingsleep(lk)` by a proc with pid `pid`. -/
def holdingsleep (lk : Sleeplock) (pid : ℤ) : Bool := lk.locked ≠ 0 && lk.pid = pid

/-- An inode of the cache, with the fields `iunlock` reads. -/
structure CachedInode where
  lock : Sleeplock
  ref : ℤ
  deriving DecidableEq, Repr

/-- `iunlock(ip)` by a proc with pid `pid`. -/
def iunlock (ip : CachedInode) (pid : ℤ) : Except String CachedInode :=
  if !holdingsleep ip.lock pid || ip.ref < 1 then .error "iunlock"
  else .ok { ip with lock := releasesleep ip.lock }

/-- A buffer of the cache, with the fields `bwrite` and `brelse` change. -/
structure Buf where
  lock : Sleeplock
  refcnt : ℤ
  /-- `B_DIRTY` in `b->flags`. -/
  dirty : Bool
  deriving DecidableEq, Repr

/-- `bwrite(b)` by a proc with pid `pid` (`iderw` is not modelled). -/
def bwrite (b : Buf) (pid : ℤ) : Except String Buf :=
  if !holdingsleep b.lock pid then .error "bwrite" else .ok { b with dirty := true }

/-- `brelse(b)` by a proc with pid `pid`: release, and one reference less. -/
def brelse (b : Buf) (pid : ℤ) : Except String Buf :=
  if !holdingsleep b.lock pid then .error "brelse"
  else .ok { b with lock := releasesleep b.lock, refcnt := b.refcnt - 1 }

/-- **A sleep lock that an LWP holds is held by every LWP.**  After the LWP in slot `i` acquires
a free lock, `holdingsleep` by the LWP in slot `j` is true, and `iunlock`, `bwrite` and `brelse`
by `j` do their work instead of refusing. -/
theorem sleeplock_other_lwp {k : Kernel} {i j : Slot} (hi : (k.proc i).pid = -1)
    (hj : (k.proc j).pid = -1) :
    ∃ lk, acquiresleep Sleeplock.free (k.proc i).pid = some lk ∧
      holdingsleep lk (k.proc j).pid = true ∧
      (∀ ref, 1 ≤ ref → iunlock ⟨lk, ref⟩ (k.proc j).pid = .ok ⟨Sleeplock.free, ref⟩) ∧
      (∀ refcnt dirty, bwrite ⟨lk, refcnt, dirty⟩ (k.proc j).pid = .ok ⟨lk, refcnt, true⟩) ∧
      (∀ refcnt dirty, brelse ⟨lk, refcnt, dirty⟩ (k.proc j).pid =
        .ok ⟨Sleeplock.free, refcnt - 1, dirty⟩) := by
  -- the acquire stores the pid `-1`, which is also the pid of `j`
  have hheld : holdingsleep ⟨1, -1⟩ (k.proc j).pid = true := by
    simp [holdingsleep, hj]
  refine ⟨⟨1, -1⟩, by simp [acquiresleep, Sleeplock.free, hi], hheld, ?_, ?_, ?_⟩
  · intro ref href
    have hpos : ¬ ref < 1 := not_lt.2 href
    simp [iunlock, hheld, hpos, releasesleep, Sleeplock.free]
  · intro refcnt dirty
    simp [bwrite, hheld]
  · intro refcnt dirty
    simp [brelse, hheld, releasesleep, Sleeplock.free]

/-- On one CPU: the shell's child creates two threads. -/
def twoThreads : List Event :=
  bootShell ++ [.syscall cpu0 .threadCreate, .syscall cpu0 .threadCreate]

theorem sleeplock_other_lwp_twoThreads :
    ∃ k i j, Reachable 1 k ∧ i ≠ j ∧ (k.proc i).state = .runnable ∧
      (k.proc j).state = .runnable ∧ (k.proc i).pid = -1 ∧ (k.proc j).pid = -1 ∧
      ∃ lk, acquiresleep Sleeplock.free (k.proc i).pid = some lk ∧
        holdingsleep lk (k.proc j).pid = true ∧
        (∀ ref, 1 ≤ ref → iunlock ⟨lk, ref⟩ (k.proc j).pid = .ok ⟨Sleeplock.free, ref⟩) ∧
        (∀ refcnt dirty, bwrite ⟨lk, refcnt, dirty⟩ (k.proc j).pid = .ok ⟨lk, refcnt, true⟩) ∧
        (∀ refcnt dirty, brelse ⟨lk, refcnt, dirty⟩ (k.proc j).pid =
          .ok ⟨Sleeplock.free, refcnt - 1, dirty⟩) := by
  obtain ⟨k, i, hk, hq⟩ := Reachable.slot_of_run 1 twoThreads
    (fun k i => (List.finRange NPROC).any fun j => decide (i ≠ j ∧
      (k.proc i).state = .runnable ∧ (k.proc j).state = .runnable ∧ (k.proc i).pid = -1 ∧
      (k.proc j).pid = -1))
    (by decide +kernel)
  obtain ⟨j, -, hj⟩ := List.any_eq_true.1 hq
  obtain ⟨hij, hri, hrj, hpi, hpj⟩ := of_decide_eq_true hj
  exact ⟨k, i, j, hk, hij, hri, hrj, hpi, hpj, sleeplock_other_lwp hpi hpj⟩

end Xv6Kernel
