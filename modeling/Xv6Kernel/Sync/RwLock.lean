import Mathlib.Data.Fintype.Basic
import Mathlib.Algebra.Order.BigOperators.Group.Finset
import Xv6Kernel.Lib.Interleaving

/-!
# The readers-writer lock (`rwlock.c`)

`rwlock_t` is two semaphores and a count: `lock` guards `readers`, and `writelock` is held by
one writer or by the readers as a group.  The first reader to come in takes `writelock` for the
group, while it holds `lock`; the last reader to leave gives it back, again under `lock`.

Threads `Fin n` make calls on one lock that `rwlock_init` has set up (both semaphores at `1`,
no readers), each thread a well-bracketed list of calls (`WellBracketed`), interleaved
(`Interleaving`).  A semaphore operation is atomic, as its spinlock makes it: `xem_wait` takes a
unit if there is one and otherwise waits, `xem_post` gives one back.  A thread's step runs one
semaphore operation and the code after it up to the next one; that code reads and writes
`readers` only while the thread holds `lock`.

A thread also carries the locks its calls have taken (`Thread.held`), innermost first, from the
return of an acquire to the start of its release: this is what the thread's own program knows,
and what "holding the lock" means in the statements.

The invariant `Inv` counts, over all threads:
* the holders of `lock` (`busy`): `lock + #busy = 1`;
* the increments of `readers` not yet undone (`incs`): `readers = Σ incs`;
* the holders of `writelock` (`writes`, and the readers as a group):
  `writelock + Σ writes + [readers > 0] = 1`, where a first reader still waiting for `writelock`
  counts `-1` and a last reader about to post it counts `1`.

`Moves` lists what one step of a thread can do; each part of the invariant is kept by each move
(`Moves.lock`, `Moves.readers`, `Moves.writelock`, ...), and `Inv.step`, `Inv.reach` carry it to
every reachable configuration.  `rwlock_exclusion` is the result: a writer excludes every other
writer and every reader, `readers` counts the increments not undone, `writelock` is `0` or `1`,
and it is `0` exactly when a writer or the readers hold it.
-/

namespace Xv6Kernel

namespace RwLock

/-- A call on the lock. -/
inductive Call
  | acquireRead
  | releaseRead
  | acquireWrite
  | releaseWrite
  deriving DecidableEq, Repr

/-- The kind of a lock a thread holds. -/
inductive Kind
  | read
  | write
  deriving DecidableEq, Repr

/-- The stack of held locks after the calls `cs` from the stack `st`: an acquire pushes its
kind, a release pops it; a release of a kind that is not innermost has no result. -/
def bracket : List Call → List Kind → Option (List Kind)
  | [], st => some st
  | .acquireRead :: cs, st => bracket cs (.read :: st)
  | .acquireWrite :: cs, st => bracket cs (.write :: st)
  | .releaseRead :: cs, .read :: st => bracket cs st
  | .releaseWrite :: cs, .write :: st => bracket cs st
  | _ :: _, _ => none

/-- Well-bracketed calls: every release releases the innermost lock held, of its own kind.
Locks may be left held at the end. -/
def WellBracketed (cs : List Call) : Prop :=
  (bracket cs []).isSome

instance : DecidablePred WellBracketed :=
  fun cs => inferInstanceAs (Decidable ((bracket cs []).isSome = true))

theorem bracket_releaseRead {cs : List Call} {st : List Kind}
    (h : (bracket (.releaseRead :: cs) st).isSome) :
    ∃ rest, st = .read :: rest ∧ (bracket cs rest).isSome := by
  match st, h with
  | .read :: rest, h => exact ⟨rest, rfl, h⟩

theorem bracket_releaseWrite {cs : List Call} {st : List Kind}
    (h : (bracket (.releaseWrite :: cs) st).isSome) :
    ∃ rest, st = .write :: rest ∧ (bracket cs rest).isSome := by
  match st, h with
  | .write :: rest, h => exact ⟨rest, rfl, h⟩

/-- Where a thread is: between calls, or inside a call after one of its semaphore operations. -/
inductive RwPc
  /-- Between calls; the next call starts with a semaphore operation. -/
  | idle
  /-- `rwlock_acquire_readlock` holding `lock`: `readers++; if(readers == 1)`. -/
  | readInc
  /-- `rwlock_acquire_readlock`: `xem_wait(&rwlock->writelock)`, as the first reader. -/
  | readWait
  /-- `rwlock_acquire_readlock`: `xem_post(&rwlock->lock)`, then return. -/
  | readPost
  /-- `rwlock_release_readlock` holding `lock`: `readers--; if(readers == 0)`. -/
  | unreadDec
  /-- `rwlock_release_readlock`: `xem_post(&rwlock->writelock)`, as the last reader. -/
  | unreadPostW
  /-- `rwlock_release_readlock`: `xem_post(&rwlock->lock)`, then return. -/
  | unreadPost
  deriving DecidableEq, Repr

/-- A thread: where it is, the calls it has still to make, and the locks it holds. -/
structure Thread where
  pc : RwPc
  calls : List Call
  held : List Kind
  deriving DecidableEq, Repr

/-- `rwlock_t`: the values of its semaphores `lock` and `writelock`, and `readers`. -/
structure Shared where
  lock : ℤ
  writelock : ℤ
  readers : ℤ
  deriving DecidableEq, Repr

/-- One step of a thread.  A call starts with its first semaphore operation: `xem_wait` on
`lock` for the read calls, on `writelock` for `rwlock_acquire_writelock`, and `xem_post` on
`writelock` for `rwlock_release_writelock`, the whole of those two calls.  An `xem_wait` with no
unit waits. -/
def rwStep : Thread → Shared → Except String (Thread × Shared)
  | ⟨.idle, [], h⟩, g => .ok (⟨.idle, [], h⟩, g)
  | ⟨.idle, .acquireRead :: cs, h⟩, g =>
    if 0 < g.lock then .ok (⟨.readInc, cs, h⟩, { g with lock := g.lock - 1 })
    else .ok (⟨.idle, .acquireRead :: cs, h⟩, g)
  | ⟨.idle, .releaseRead :: cs, h⟩, g =>
    if 0 < g.lock then .ok (⟨.unreadDec, cs, h.tail⟩, { g with lock := g.lock - 1 })
    else .ok (⟨.idle, .releaseRead :: cs, h⟩, g)
  | ⟨.idle, .acquireWrite :: cs, h⟩, g =>
    if 0 < g.writelock then .ok (⟨.idle, cs, .write :: h⟩, { g with writelock := g.writelock - 1 })
    else .ok (⟨.idle, .acquireWrite :: cs, h⟩, g)
  | ⟨.idle, .releaseWrite :: cs, h⟩, g =>
    .ok (⟨.idle, cs, h.tail⟩, { g with writelock := g.writelock + 1 })
  | ⟨.readInc, cs, h⟩, g =>
    .ok (⟨if g.readers + 1 = 1 then .readWait else .readPost, cs, h⟩,
      { g with readers := g.readers + 1 })
  | ⟨.readWait, cs, h⟩, g =>
    if 0 < g.writelock then .ok (⟨.readPost, cs, h⟩, { g with writelock := g.writelock - 1 })
    else .ok (⟨.readWait, cs, h⟩, g)
  | ⟨.readPost, cs, h⟩, g => .ok (⟨.idle, cs, .read :: h⟩, { g with lock := g.lock + 1 })
  | ⟨.unreadDec, cs, h⟩, g =>
    .ok (⟨if g.readers - 1 = 0 then .unreadPostW else .unreadPost, cs, h⟩,
      { g with readers := g.readers - 1 })
  | ⟨.unreadPostW, cs, h⟩, g =>
    .ok (⟨.unreadPost, cs, h⟩, { g with writelock := g.writelock + 1 })
  | ⟨.unreadPost, cs, h⟩, g => .ok (⟨.idle, cs, h⟩, { g with lock := g.lock + 1 })

variable {n : ℕ}

/-- Threads making their calls on one lock. -/
abbrev Rws (n : ℕ) := Interleaving.Config (Fin n) Thread Shared

/-- The interleaving of the threads' steps. -/
def step : Rws n → Fin n → Except String (Rws n) :=
  Interleaving.step fun _ => rwStep

/-- `rwlock_init`, and threads about to make the calls `progs`. -/
def start (progs : Fin n → List Call) : Rws n :=
  ⟨fun t => ⟨.idle, progs t, []⟩, ⟨1, 1, 0⟩⟩

/-! ### What a step can do -/

/-- The moves of a thread, one for each clause of `rwStep`, with a wait as `stay`. -/
inductive Moves : Thread → Shared → Thread → Shared → Prop
  | stay (th : Thread) (g : Shared) : Moves th g th g
  | readLock {cs h} (g : Shared) (hl : 0 < g.lock) :
      Moves ⟨.idle, .acquireRead :: cs, h⟩ g ⟨.readInc, cs, h⟩ { g with lock := g.lock - 1 }
  | unreadLock {cs h} (g : Shared) (hl : 0 < g.lock) :
      Moves ⟨.idle, .releaseRead :: cs, h⟩ g ⟨.unreadDec, cs, h.tail⟩ { g with lock := g.lock - 1 }
  | write {cs h} (g : Shared) (hw : 0 < g.writelock) :
      Moves ⟨.idle, .acquireWrite :: cs, h⟩ g ⟨.idle, cs, .write :: h⟩
        { g with writelock := g.writelock - 1 }
  | unwrite {cs h} (g : Shared) :
      Moves ⟨.idle, .releaseWrite :: cs, h⟩ g ⟨.idle, cs, h.tail⟩
        { g with writelock := g.writelock + 1 }
  | readInc {cs h} (g : Shared) :
      Moves ⟨.readInc, cs, h⟩ g ⟨if g.readers + 1 = 1 then .readWait else .readPost, cs, h⟩
        { g with readers := g.readers + 1 }
  | readWait {cs h} (g : Shared) (hw : 0 < g.writelock) :
      Moves ⟨.readWait, cs, h⟩ g ⟨.readPost, cs, h⟩ { g with writelock := g.writelock - 1 }
  | readPost {cs h} (g : Shared) :
      Moves ⟨.readPost, cs, h⟩ g ⟨.idle, cs, .read :: h⟩ { g with lock := g.lock + 1 }
  | unreadDec {cs h} (g : Shared) :
      Moves ⟨.unreadDec, cs, h⟩ g ⟨if g.readers - 1 = 0 then .unreadPostW else .unreadPost, cs, h⟩
        { g with readers := g.readers - 1 }
  | unreadPostW {cs h} (g : Shared) :
      Moves ⟨.unreadPostW, cs, h⟩ g ⟨.unreadPost, cs, h⟩ { g with writelock := g.writelock + 1 }
  | unreadPost {cs h} (g : Shared) :
      Moves ⟨.unreadPost, cs, h⟩ g ⟨.idle, cs, h⟩ { g with lock := g.lock + 1 }

/-- **Every step of `rwStep` is one of the `Moves`.** -/
theorem rwStep_moves {th th' : Thread} {g g' : Shared} (h : rwStep th g = .ok (th', g')) :
    Moves th g th' g' := by
  obtain ⟨pc, cs, hd⟩ := th
  cases pc with
  | idle =>
    match cs, h with
    | [], h =>
      cases h
      exact .stay _ _
    | .acquireRead :: cs, h =>
      simp only [rwStep] at h
      split_ifs at h with hl
      · cases h
        exact .readLock g hl
      · cases h
        exact .stay _ _
    | .releaseRead :: cs, h =>
      simp only [rwStep] at h
      split_ifs at h with hl
      · cases h
        exact .unreadLock g hl
      · cases h
        exact .stay _ _
    | .acquireWrite :: cs, h =>
      simp only [rwStep] at h
      split_ifs at h with hw
      · cases h
        exact .write g hw
      · cases h
        exact .stay _ _
    | .releaseWrite :: cs, h =>
      cases h
      exact .unwrite g
  | readInc =>
    cases h
    exact .readInc g
  | readWait =>
    simp only [rwStep] at h
    split_ifs at h with hw
    · cases h
      exact .readWait g hw
    · cases h
      exact .stay _ _
  | readPost =>
    cases h
    exact .readPost g
  | unreadDec =>
    cases h
    exact .unreadDec g
  | unreadPostW =>
    cases h
    exact .unreadPostW g
  | unreadPost =>
    cases h
    exact .unreadPost g

/-! ### What the invariant counts -/

/-- Whether the thread holds `lock`: it is inside a read call. -/
def busy (th : Thread) : ℤ :=
  if th.pc = .idle then 0 else 1

/-- The increments of `readers` by the thread not yet undone: one for each read lock it holds,
and one inside a read call between its increment and its decrement. -/
def incs (th : Thread) : ℤ :=
  th.held.count .read + if th.pc = .readWait ∨ th.pc = .readPost ∨ th.pc = .unreadDec then 1 else 0

/-- Whether the thread is the first reader, waiting for `writelock` for the group. -/
def waiting (th : Thread) : ℤ :=
  if th.pc = .readWait then 1 else 0

/-- Whether the thread is the last reader, about to post `writelock` for the group. -/
def posting (th : Thread) : ℤ :=
  if th.pc = .unreadPostW then 1 else 0

/-- The thread's part of `writelock`: one for each write lock it holds; as the last reader about
to post `writelock`, the readers' unit; as the first reader waiting for it, minus the readers'
unit, which `[readers > 0]` already counts. -/
def writes (th : Thread) : ℤ :=
  th.held.count .write + posting th - waiting th

/-- The locks the thread holds once its current call returns: a read lock is pushed when
`rwlock_acquire_readlock` returns. -/
def pending (th : Thread) : List Kind :=
  if th.pc = .readInc ∨ th.pc = .readWait ∨ th.pc = .readPost then .read :: th.held else th.held

/-- The thread's remaining calls are well bracketed from the locks it will hold. -/
def Balanced (th : Thread) : Prop :=
  (bracket th.calls (pending th)).isSome

variable {th th' : Thread} {g g' : Shared}

/-- `lock` is taken and given back by the read calls only. -/
theorem Moves.lock (h : Moves th g th' g') : g'.lock + busy th' = g.lock + busy th := by
  cases h with
  | readInc g => split_ifs <;> simp [busy]
  | unreadDec g => split_ifs <;> simp [busy]
  | _ => simp [busy]

theorem Moves.lock_nonneg (h : Moves th g th' g') (hl : 0 ≤ g.lock) : 0 ≤ g'.lock := by
  cases h with
  | readLock g hl' => show 0 ≤ g.lock - 1; omega
  | unreadLock g hl' => show 0 ≤ g.lock - 1; omega
  | readPost g => show 0 ≤ g.lock + 1; omega
  | unreadPost g => show 0 ≤ g.lock + 1; omega
  | _ => exact hl

/-- `readers` moves with the increments of the thread that holds `lock`. -/
theorem Moves.readers (h : Moves th g th' g') (hb : Balanced th) :
    g'.readers - incs th' = g.readers - incs th := by
  cases h with
  | unreadLock g hl =>
    -- the read lock released is the innermost one held
    obtain ⟨rest, hst, -⟩ := bracket_releaseRead (by simpa [Balanced, pending] using hb)
    subst hst
    simp [incs]
  | unwrite g =>
    -- the lock released is a write lock
    obtain ⟨rest, hst, -⟩ := bracket_releaseWrite (by simpa [Balanced, pending] using hb)
    subst hst
    simp [incs]
  | readInc g =>
    split_ifs <;> simp [incs]
  | unreadDec g =>
    split_ifs <;> simp [incs] <;> omega
  | _ => simp [incs]

/-- `writelock` moves with the holders it counts.  The first reader finds `readers` at `0` and
starts to wait for `writelock` for the group; the last reader takes it to `0` and is left to
post `writelock`. -/
theorem Moves.writelock (h : Moves th g th' g') (hb : Balanced th) (hr : 0 ≤ g.readers)
    (hdec : th.pc = .unreadDec → 1 ≤ g.readers) :
    g'.writelock + writes th' + (if 0 < g'.readers then 1 else 0) =
      g.writelock + writes th + (if 0 < g.readers then 1 else 0) := by
  cases h with
  | unreadLock g hl =>
    obtain ⟨rest, hst, -⟩ := bracket_releaseRead (by simpa [Balanced, pending] using hb)
    subst hst
    simp [writes, posting, waiting]
  | unwrite g =>
    obtain ⟨rest, hst, -⟩ := bracket_releaseWrite (by simpa [Balanced, pending] using hb)
    subst hst
    simp [writes, posting, waiting]
    omega
  | readInc g =>
    split_ifs <;> simp_all [writes, posting, waiting] <;> omega
  | unreadDec g =>
    have := hdec rfl
    split_ifs <;> simp_all [writes, posting, waiting] <;> omega
  | _ => simp [writes, posting, waiting] <;> omega

theorem Moves.writelock_nonneg (h : Moves th g th' g') (hw : 0 ≤ g.writelock) :
    0 ≤ g'.writelock := by
  cases h with
  | write g hw' => show 0 ≤ g.writelock - 1; omega
  | unwrite g => show 0 ≤ g.writelock + 1; omega
  | readWait g hw' => show 0 ≤ g.writelock - 1; omega
  | unreadPostW g => show 0 ≤ g.writelock + 1; omega
  | _ => exact hw

/-- The remaining calls stay well bracketed. -/
theorem Moves.balanced (h : Moves th g th' g') (hb : Balanced th) : Balanced th' := by
  cases h with
  | unreadLock g hl =>
    obtain ⟨rest, hst, hrest⟩ := bracket_releaseRead (by simpa [Balanced, pending] using hb)
    subst hst
    simpa [Balanced, pending] using hrest
  | unwrite g =>
    obtain ⟨rest, hst, hrest⟩ := bracket_releaseWrite (by simpa [Balanced, pending] using hb)
    subst hst
    simpa [Balanced, pending] using hrest
  | readInc g =>
    split_ifs <;> simpa [Balanced, pending] using hb
  | unreadDec g =>
    split_ifs <;> simpa [Balanced, pending] using hb
  | stay => exact hb
  | _ => simpa [Balanced, pending, bracket] using hb

/-- `readers` changes only inside a read call, where the thread holds `lock`. -/
theorem Moves.readers_of_idle (h : Moves th g th' g') (hi : busy th = 0) :
    g'.readers = g.readers := by
  cases h <;> simp_all [busy]

/-- A thread waits for `writelock` as the first reader: `readers` is `1`. -/
theorem Moves.first (h : Moves th g th' g') (hw : th'.pc = .readWait) :
    g'.readers = 1 ∨ (th.pc = .readWait ∧ g'.readers = g.readers) := by
  cases h with
  | stay => exact .inr ⟨hw, rfl⟩
  | readInc g =>
    -- the increment that took `readers` to `1`
    split_ifs at hw with h1
    exact .inl h1
  | unreadDec g => split_ifs at hw
  | _ => cases hw

/-- A thread posts `writelock` as the last reader: `readers` is `0`. -/
theorem Moves.last (h : Moves th g th' g') (hw : th'.pc = .unreadPostW) :
    g'.readers = 0 ∨ (th.pc = .unreadPostW ∧ g'.readers = g.readers) := by
  cases h with
  | stay => exact .inr ⟨hw, rfl⟩
  | unreadDec g =>
    -- the decrement that took `readers` to `0`
    split_ifs at hw with h0
    exact .inl h0
  | readInc g => split_ifs at hw
  | _ => cases hw

/-! ### The invariant -/

/-- **The invariant of the lock**, counted over the threads. -/
structure Inv (s : Rws n) : Prop where
  lock_nonneg : 0 ≤ s.shared.lock
  /-- `lock` is held by the threads inside a read call. -/
  lock_eq : s.shared.lock + ∑ t, busy (s.pc t) = 1
  /-- `readers` counts the increments not yet undone. -/
  readers_eq : s.shared.readers = ∑ t, incs (s.pc t)
  writelock_nonneg : 0 ≤ s.shared.writelock
  /-- `writelock` is held by the writers, or by the readers as a group. -/
  writelock_eq :
    s.shared.writelock + ∑ t, writes (s.pc t) + (if 0 < s.shared.readers then 1 else 0) = 1
  first : ∀ t, (s.pc t).pc = .readWait → s.shared.readers = 1
  last : ∀ t, (s.pc t).pc = .unreadPostW → s.shared.readers = 0
  balanced : ∀ t, Balanced (s.pc t)

theorem waiting_nonneg (th : Thread) : 0 ≤ waiting th := by
  unfold waiting
  split_ifs <;> omega

theorem posting_nonneg (th : Thread) : 0 ≤ posting th := by
  unfold posting
  split_ifs <;> omega

theorem busy_nonneg (th : Thread) : 0 ≤ busy th := by
  unfold busy
  split_ifs <;> omega

theorem incs_nonneg (th : Thread) : 0 ≤ incs th := by
  unfold incs
  split_ifs <;> omega

/-- Waiting for `writelock` and posting it are two places inside a read call. -/
theorem waiting_add_posting_le (th : Thread) : waiting th + posting th ≤ busy th := by
  unfold waiting posting busy
  split_ifs <;> simp_all

variable {s s' : Rws n}

/-- The readers hold `writelock` as a group: there are readers and the first of them is not
still waiting for it, or the last is about to post it. -/
def ReadersHold (s : Rws n) : Prop :=
  (0 < s.shared.readers ∧ ∀ t, (s.pc t).pc ≠ .readWait) ∨ ∃ t, (s.pc t).pc = .unreadPostW

theorem exists_of_sum_pos {f : Fin n → ℤ} (hf : ∀ t, 0 ≤ f t) (h : 0 < ∑ t, f t) :
    ∃ t, 0 < f t := by
  obtain ⟨t, -, ht⟩ := (Finset.sum_pos_iff_of_nonneg fun t _ => hf t).1 h
  exact ⟨t, ht⟩

namespace Inv

theorem readers_nonneg (hi : Inv s) : 0 ≤ s.shared.readers := by
  rw [hi.readers_eq]
  exact Finset.sum_nonneg fun t _ => incs_nonneg (s.pc t)

/-- A thread's increments are among those `readers` counts. -/
theorem incs_le (hi : Inv s) (t : Fin n) : incs (s.pc t) ≤ s.shared.readers := by
  rw [hi.readers_eq]
  exact Finset.single_le_sum (fun u _ => incs_nonneg (s.pc u)) (Finset.mem_univ t)

/-- **One thread at most holds `lock`.** -/
theorem busy_unique (hi : Inv s) {t u : Fin n} (ht : busy (s.pc t) = 1) (hu : busy (s.pc u) = 1) :
    t = u := by
  by_contra hne
  have h2 : busy (s.pc t) + busy (s.pc u) ≤ ∑ v, busy (s.pc v) :=
    Finset.add_le_sum (fun v _ => busy_nonneg (s.pc v)) (Finset.mem_univ t) (Finset.mem_univ u) hne
  have := hi.lock_eq
  have := hi.lock_nonneg
  omega

/-- A place inside a read call where `readers` has a fixed value keeps it across a step of `t`:
`t` reaches it as `hmoved` says, and a thread other than `t` that is there holds `lock`, so
`readers` has not moved. -/
theorem readers_at_step {t : Fin n} {p : RwPc} {v : ℤ} (hp : p ≠ .idle)
    (hall : ∀ u, (s.pc u).pc = p → s.shared.readers = v)
    (hmoved : (s'.pc t).pc = p →
      s'.shared.readers = v ∨ ((s.pc t).pc = p ∧ s'.shared.readers = s.shared.readers))
    (hother : ∀ u ≠ t, s'.pc u = s.pc u)
    (hreaders : ∀ u ≠ t, busy (s.pc u) = 1 → s'.shared.readers = s.shared.readers) :
    ∀ u, (s'.pc u).pc = p → s'.shared.readers = v := by
  intro u hu
  by_cases hut : u = t
  · subst hut
    rcases hmoved hu with h1 | ⟨hpu, heq⟩
    · exact h1
    · rw [heq]
      exact hall u hpu
  · rw [hother u hut] at hu
    rw [hreaders u hut (by simp [busy, hu, hp])]
    exact hall u hu

/-- **Each step keeps the invariant.** -/
theorem step (hi : Inv s) {t : Fin n} (h : RwLock.step s t = .ok s') : Inv s' := by
  obtain ⟨hprog, hother⟩ := Interleaving.step_eq_ok.1 h
  have hm := rwStep_moves hprog
  have hsum : ∀ w : Thread → ℤ, ∑ u, w (s'.pc u) = ∑ u, w (s.pc u) - w (s.pc t) + w (s'.pc t) :=
    fun w => Interleaving.sum_pc_step w h
  -- a thread other than `t` is where it was; if it is inside a read call, `t` is not, and then
  -- `readers` has not moved
  have hreaders : ∀ u ≠ t, busy (s.pc u) = 1 → s'.shared.readers = s.shared.readers := by
    intro u hut hu
    apply hm.readers_of_idle
    have : busy (s.pc t) ≠ 1 := fun ht => hut (hi.busy_unique hu ht)
    unfold busy at this ⊢
    split_ifs at this ⊢ <;> omega
  constructor
  · exact hm.lock_nonneg hi.lock_nonneg
  · rw [hsum busy]
    have := hm.lock
    have := hi.lock_eq
    omega
  · rw [hsum incs]
    have := hm.readers (hi.balanced t)
    have := hi.readers_eq
    omega
  · exact hm.writelock_nonneg hi.writelock_nonneg
  · rw [hsum writes]
    have hdec : (s.pc t).pc = .unreadDec → 1 ≤ s.shared.readers := fun hp =>
      le_trans (by simp [incs, hp]) (hi.incs_le t)
    have := hm.writelock (hi.balanced t) hi.readers_nonneg hdec
    have := hi.writelock_eq
    omega
  · exact readers_at_step (by decide) hi.first hm.first hother hreaders
  · exact readers_at_step (by decide) hi.last hm.last hother hreaders
  · intro u
    by_cases hut : u = t
    · subst hut
      exact hm.balanced (hi.balanced u)
    · rw [hother u hut]
      exact hi.balanced u

/-- The invariant holds after `rwlock_init`, for threads with well-bracketed calls. -/
theorem start {progs : Fin n → List Call} (hwb : ∀ t, WellBracketed (progs t)) :
    Inv (start progs) := by
  refine ⟨by simp [RwLock.start], ?_, ?_, by simp [RwLock.start], ?_, ?_, ?_, ?_⟩
  · simp [RwLock.start, busy]
  · simp [RwLock.start, incs]
  · simp [RwLock.start, writes, posting, waiting]
  · intro t ht
    cases ht
  · intro t ht
    cases ht
  · intro t
    simpa [Balanced, pending, RwLock.start, WellBracketed] using hwb t

/-- **The invariant holds in every reachable configuration.** -/
theorem reach {progs : Fin n → List Call} (hwb : ∀ t, WellBracketed (progs t))
    (hs : Machine.Reach RwLock.step (RwLock.start progs) s) : Inv s :=
  hs.invariant (Inv.start hwb) fun _ _ _ hi h => hi.step h

/-! ### Who holds `writelock` -/

theorem sum_writes (s : Rws n) : ∑ t, writes (s.pc t) =
    ∑ t, ((s.pc t).held.count .write : ℤ) + ∑ t, posting (s.pc t) - ∑ t, waiting (s.pc t) := by
  simp only [writes, Finset.sum_add_distrib, Finset.sum_sub_distrib]

/-- At most one thread waits for `writelock` or posts it for the readers: both are inside a read
call. -/
theorem waiting_add_posting (hi : Inv s) : ∑ t, waiting (s.pc t) + ∑ t, posting (s.pc t) ≤ 1 := by
  have h : ∑ t, (waiting (s.pc t) + posting (s.pc t)) ≤ ∑ t, busy (s.pc t) :=
    Finset.sum_le_sum fun t _ => waiting_add_posting_le (s.pc t)
  rw [Finset.sum_add_distrib] at h
  have := hi.lock_eq
  have := hi.lock_nonneg
  omega

/-- A first reader waits for `writelock` only while it is the only reader. -/
theorem waiting_le (hi : Inv s) :
    ∑ t, waiting (s.pc t) ≤ if 0 < s.shared.readers then 1 else 0 := by
  by_cases hw : ∃ t, (s.pc t).pc = .readWait
  · obtain ⟨t, ht⟩ := hw
    rw [if_pos (by rw [hi.first t ht]; decide)]
    have := hi.waiting_add_posting
    have := Finset.sum_nonneg fun u (_ : u ∈ Finset.univ) => posting_nonneg (s.pc u)
    omega
  · have h0 : ∑ t, waiting (s.pc t) = 0 :=
      Finset.sum_eq_zero fun t _ => by simp [waiting, not_exists.1 hw t]
    rw [h0]
    split_ifs <;> omega

/-- `writelock` with its holders written out, each part nonnegative: the write locks held, the
last reader's unit, and the readers' unit unless the first reader is still waiting for it. -/
theorem writelock_parts (hi : Inv s) :
    0 ≤ ∑ t, ((s.pc t).held.count .write : ℤ) ∧ 0 ≤ ∑ t, posting (s.pc t) ∧
    0 ≤ (if 0 < s.shared.readers then 1 else 0) - ∑ t, waiting (s.pc t) ∧
    s.shared.writelock + ∑ t, ((s.pc t).held.count .write : ℤ) + ∑ t, posting (s.pc t) +
      ((if 0 < s.shared.readers then 1 else 0) - ∑ t, waiting (s.pc t)) = 1 := by
  have := hi.writelock_eq
  rw [sum_writes] at this
  refine ⟨Finset.sum_nonneg fun t _ => Int.natCast_nonneg _,
    Finset.sum_nonneg fun t _ => posting_nonneg _, by have := hi.waiting_le; omega, by omega⟩

theorem one_le_count {k : Kind} {l : List Kind} (h : k ∈ l) : (1 : ℤ) ≤ l.count k := by
  exact_mod_cast List.count_pos_iff.2 h

theorem one_le_sum_count {k : Kind} {t : Fin n} (h : k ∈ (s.pc t).held) :
    1 ≤ ∑ u, ((s.pc u).held.count k : ℤ) :=
  (one_le_count h).trans (Finset.single_le_sum (fun _ _ => Int.natCast_nonneg _) (Finset.mem_univ t))

/-- While a thread holds a read lock no first reader waits: `readers` would count both. -/
theorem not_waiting_of_reader (hi : Inv s) {u : Fin n} (hu : Kind.read ∈ (s.pc u).held) (h : Fin n) :
    (s.pc h).pc ≠ .readWait := by
  intro hw
  have hr := hi.first h hw
  have hinc := one_le_count hu
  by_cases hhu : h = u
  · -- the waiting reader would count its own read lock and its increment
    subst hhu
    have := hi.incs_le h
    simp only [incs, hw, true_or, if_true] at this
    omega
  · have h2 : incs (s.pc h) + incs (s.pc u) ≤ ∑ v, incs (s.pc v) :=
      Finset.add_le_sum (fun v _ => incs_nonneg (s.pc v)) (Finset.mem_univ h) (Finset.mem_univ u) hhu
    have hh : incs (s.pc h) = (s.pc h).held.count .read + 1 := by simp [incs, hw]
    have hu' : (s.pc u).held.count .read ≤ incs (s.pc u) := by
      unfold incs
      split_ifs <;> omega
    rw [← hi.readers_eq, hr] at h2
    omega

/-- **A writer excludes every other writer.** -/
theorem writer_unique (hi : Inv s) {t u : Fin n} (ht : Kind.write ∈ (s.pc t).held)
    (hu : Kind.write ∈ (s.pc u).held) : t = u := by
  by_contra htu
  have h2 : ((s.pc t).held.count .write : ℤ) + (s.pc u).held.count .write ≤
      ∑ v, ((s.pc v).held.count .write : ℤ) :=
    Finset.add_le_sum (fun v _ => Int.natCast_nonneg _) (Finset.mem_univ t) (Finset.mem_univ u) htu
  have := one_le_count ht
  have := one_le_count hu
  obtain ⟨-, hP, hD, hsplit⟩ := hi.writelock_parts
  have := hi.writelock_nonneg
  omega

/-- **A writer excludes every reader.** -/
theorem writer_not_reader (hi : Inv s) {t u : Fin n} (ht : Kind.write ∈ (s.pc t).held)
    (hu : Kind.read ∈ (s.pc u).held) : False := by
  have hr : 0 < s.shared.readers := by
    have := one_le_count hu
    have := hi.incs_le u
    unfold incs at this
    split_ifs at this <;> omega
  have hw0 : ∑ v, waiting (s.pc v) = 0 :=
    Finset.sum_eq_zero fun v _ => by simp [waiting, hi.not_waiting_of_reader hu v]
  obtain ⟨-, hP, -, hsplit⟩ := hi.writelock_parts
  rw [hw0, if_pos hr] at hsplit
  have := one_le_sum_count ht
  have := hi.writelock_nonneg
  omega

/-- **`writelock` is `0` exactly when a writer or the readers hold it.** -/
theorem writelock_eq_zero_iff (hi : Inv s) :
    s.shared.writelock = 0 ↔ (∃ t, Kind.write ∈ (s.pc t).held) ∨ ReadersHold s := by
  obtain ⟨hC, hP, hD, hsplit⟩ := hi.writelock_parts
  have hwl := hi.writelock_nonneg
  have hW := Finset.sum_nonneg fun v (_ : v ∈ Finset.univ) => waiting_nonneg (s.pc v)
  constructor
  · intro h0
    by_cases hc : 0 < ∑ t, ((s.pc t).held.count .write : ℤ)
    · -- a writer holds it
      obtain ⟨t, ht⟩ := exists_of_sum_pos (fun t => Int.natCast_nonneg _) hc
      exact .inl ⟨t, List.count_pos_iff.1 (by exact_mod_cast ht)⟩
    by_cases hp : 0 < ∑ t, posting (s.pc t)
    · -- the last reader is about to post it
      obtain ⟨t, ht⟩ := exists_of_sum_pos (fun t => posting_nonneg _) hp
      refine .inr (.inr ⟨t, ?_⟩)
      by_contra hne
      simp [posting, hne] at ht
    · -- the readers hold it and none waits for it
      have hr : 0 < s.shared.readers := by
        by_contra hr
        rw [if_neg hr] at hsplit hD
        omega
      rw [if_pos hr] at hsplit
      refine .inr (.inl ⟨hr, fun t ht => ?_⟩)
      have := Finset.single_le_sum (fun v _ => waiting_nonneg (s.pc v)) (Finset.mem_univ t)
      rw [show waiting (s.pc t) = 1 by simp [waiting, ht]] at this
      omega
  · rintro (⟨t, ht⟩ | ⟨hr, hnw⟩ | ⟨t, ht⟩)
    · have := one_le_sum_count ht
      omega
    · have h0 : ∑ t, waiting (s.pc t) = 0 :=
        Finset.sum_eq_zero fun t _ => by simp [waiting, hnw t]
      rw [if_pos hr, h0] at hsplit
      omega
    · have := Finset.single_le_sum (fun v _ => posting_nonneg (s.pc v)) (Finset.mem_univ t)
      rw [show posting (s.pc t) = 1 by simp [posting, ht]] at this
      omega

/-- `writelock` is `0` or `1`. -/
theorem writelock_zero_or_one (hi : Inv s) : s.shared.writelock = 0 ∨ s.shared.writelock = 1 := by
  obtain ⟨hC, hP, hD, hsplit⟩ := hi.writelock_parts
  have := hi.writelock_nonneg
  omega

end Inv

/-- **Readers-writer exclusion.**  For threads whose calls on one lock are well bracketed, in
every interleaving: a thread holding the write lock excludes every other writer and every
reader; `readers` counts the increments not yet undone; `writelock` is `0` or `1`, and `0`
exactly when a writer or the readers hold it. -/
theorem rwlock_exclusion {progs : Fin n → List Call} (hwb : ∀ t, WellBracketed (progs t))
    (hs : Machine.Reach step (start progs) s) :
    (∀ t u, Kind.write ∈ (s.pc t).held →
      (u ≠ t → Kind.write ∉ (s.pc u).held) ∧ Kind.read ∉ (s.pc u).held) ∧
    s.shared.readers = ∑ t, incs (s.pc t) ∧
    (s.shared.writelock = 0 ∨ s.shared.writelock = 1) ∧
    (s.shared.writelock = 0 ↔ (∃ t, Kind.write ∈ (s.pc t).held) ∨ ReadersHold s) := by
  have hi := Inv.reach hwb hs
  refine ⟨fun t u ht => ⟨fun hut hu => hut (hi.writer_unique hu ht), fun hu => ?_⟩,
    hi.readers_eq, hi.writelock_zero_or_one, hi.writelock_eq_zero_iff⟩
  exact hi.writer_not_reader ht hu

/-- A writer and a reader, each taking its lock once. -/
def readerWriter : Fin 2 → List Call
  | 0 => [.acquireWrite, .releaseWrite]
  | 1 => [.acquireRead, .releaseRead]

/-- The reader takes its lock first, as the first reader: `lock`, `readers++`, `writelock`, and
the post of `lock`. -/
theorem rwlock_exclusion_readerIn :
    ∃ s, Machine.run step (start readerWriter) [1, 1, 1, 1] = .ok s ∧ Kind.read ∈ (s.pc 1).held ∧
      (∀ t u, Kind.write ∈ (s.pc t).held →
        (u ≠ t → Kind.write ∉ (s.pc u).held) ∧ Kind.read ∉ (s.pc u).held) ∧
      s.shared.readers = ∑ t, incs (s.pc t) ∧
      (s.shared.writelock = 0 ∨ s.shared.writelock = 1) ∧
      (s.shared.writelock = 0 ↔ (∃ t, Kind.write ∈ (s.pc t).held) ∨ ReadersHold s) := by
  obtain ⟨s, hrun, hread⟩ : ∃ s, Machine.run step (start readerWriter) [1, 1, 1, 1] = .ok s ∧
      Kind.read ∈ (s.pc 1).held := ⟨_, rfl, by decide⟩
  exact ⟨s, hrun, hread, rwlock_exclusion (by decide) (Machine.reach_of_run hrun)⟩

end RwLock

end Xv6Kernel
