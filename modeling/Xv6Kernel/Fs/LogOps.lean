import Mathlib
import Xv6Kernel.Lib.Interleaving
import Xv6Kernel.Fs.Log
import Xv6Kernel.Fs.PosIO
import Xv6Kernel.Proc.FileRefs

/-!
# Group commit across concurrent system calls (`begin_op`, `log_write`, `end_op`)

Every FS system call brackets its writes with `begin_op()` and `end_op()` and records each
block it modifies with `log_write()`.  One transaction holds the writes of all the calls that
overlap in time: the `end_op` of the last outstanding call commits.  `begin_op` sleeps while a
commit runs, and while the log might not take `MAXOPBLOCKS` more blocks for each outstanding
call and for this one (`log.lh.n + (log.outstanding+1)*MAXOPBLOCKS > LOGSIZE`).

Threads `Fin n` each run a list of operations, an operation being the blocks it passes to
`log_write` in order.  What the file-system code promises of an operation is `OpFits`: at most
`MAXOPBLOCKS` distinct blocks, none of them in the log.  A thread's step is the code between
two points where another thread can run: `begin_op` under `log.lock` (a sleep changes nothing),
the two tests of `log_write`, which it makes **before** it takes `log.lock`, its absorption
loop under the lock, `end_op` up to its release of the lock, `commit()`, and `end_op`'s
`log.committing = 0`.  The disk writes of `commit()` are those of `Log.commitWrites`; what
memory sees of it is the header emptied.

Two ghost fields follow the blocks: those the current operation of a thread has logged
(`Thread.done`) and those logged since the last commit (`Shared.logged`).

`Inv` counts over the threads: `outstanding` is the number of threads inside an operation,
`committing` is set exactly when one thread is committing, and then no thread is inside an
operation; and the **reservation**: `n` plus, for each operation in progress, the
`MAXOPBLOCKS` it was admitted for less the blocks it has logged, is at most `LOGSIZE`.

* `log_reserved` : in every reachable configuration the header lists distinct blocks, exactly
  those logged since the last commit, at most `LOGSIZE` of them, and a block new to the header
  always finds `n < LOGSIZE`.
* `log_panics` : the only panic reachable is `"too big a transaction"`: `end_op` never finds a
  commit running and `log_write` never runs outside a transaction.
* `commit_quiescent` : a commit starts only when every other thread is between operations,
  with the header the distinct blocks logged since the last commit; for a log of more than
  `LOGSIZE` blocks the header then fits in the log and lies outside it, as the crash atomicity
  of `Fs/Log` asks of it.
* `log_overflow_mkfs` : with the log mkfs lays out (`nlog = LOGSIZE` blocks from block `2`, the
  header one of them), two threads that pass the tests of `log_write` before either takes the
  lock bring the header to `LOGSIZE` entries, and the commit's `write_log` writes the block of
  the root directory's inode.
-/

namespace Xv6Kernel

namespace LogOps

/-- `log_write`'s loop over `log.lh.block[0..n-1]` and the store after it: a block already in
the header is stored over itself (absorption); a new one is stored at index `n`, and `n` grows. -/
def absorb (lh : List ℕ) (b : ℕ) : List ℕ :=
  if b ∈ lh then lh else lh ++ [b]

/-- The log as `begin_op`, `log_write` and `end_op` see it (`struct log`), with the blocks logged
since the last commit as ghost state. -/
structure Shared where
  /-- `log.start`: the header block. -/
  start : ℕ
  /-- `log.size`: the superblock's `nlog`, the header block included. -/
  size : ℕ
  /-- `log.outstanding`: the FS system calls executing. -/
  outstanding : ℤ
  /-- `log.committing`. -/
  committing : Bool
  /-- `log.lh.block[0..n-1]`; `log.lh.n` is its length. -/
  lh : List ℕ
  /-- Ghost: the blocks passed to `log_write` since the last commit. -/
  logged : List ℕ
  deriving DecidableEq, Repr

/-- Where a thread is. -/
inductive LogPc
  /-- Between operations, or asleep in `begin_op`. -/
  | idle
  /-- Inside an operation, between its calls of `log_write`. -/
  | op
  /-- In `log_write(b)`, past its tests and about to take `log.lock`. -/
  | record (b : ℕ)
  /-- In `end_op` of the last outstanding operation, about to call `commit()`. -/
  | commit
  /-- In `end_op`, `commit()` done, about to clear `log.committing`. -/
  | finish
  deriving DecidableEq, Repr

/-- A thread inside an operation: `begin_op` has counted it and its `end_op` has not. -/
def LogPc.inOp : LogPc → Bool
  | .op | .record _ => true
  | _ => false

/-- A thread committing: from `end_op`'s `log.committing = 1` to its `log.committing = 0`. -/
def LogPc.committer : LogPc → Bool
  | .commit | .finish => true
  | _ => false

/-- The block `log_write` is about to record. -/
def LogPc.pending : LogPc → List ℕ
  | .record b => [b]
  | _ => []

/-- A thread: where it is, what is left of its current operation, the operations after it, and
(ghost) the blocks its current operation has logged. -/
structure Thread where
  pc : LogPc
  cur : List ℕ
  ops : List (List ℕ)
  done : List ℕ
  deriving DecidableEq, Repr

/-- `begin_op`: `none` while it sleeps, because a commit is running or because this operation
might exhaust the log; otherwise the log with one more outstanding operation. -/
def beginOp (g : Shared) : Option Shared :=
  if g.committing then none
  else if (LOGSIZE : ℤ) < g.lh.length + (g.outstanding + 1) * MAXOPBLOCKS then none
  else some { g with outstanding := g.outstanding + 1 }

/-- The tests `log_write` makes before it takes `log.lock`. -/
def logWriteTests (g : Shared) : Except String Unit :=
  if LOGSIZE ≤ g.lh.length ∨ (g.size : ℤ) - 1 ≤ g.lh.length then .error "too big a transaction"
  else if g.outstanding < 1 then .error "log_write outside of trans"
  else .ok ()

/-- `log_write` under `log.lock`: block `b` goes into the header. -/
@[simps]
def logWrite (g : Shared) (b : ℕ) : Shared :=
  { g with lh := absorb g.lh b, logged := g.logged ++ [b] }

/-- `end_op` up to its release of `log.lock`: whether this call is to commit, and the log. -/
def endOp (g : Shared) : Except String (Bool × Shared) :=
  let g := { g with outstanding := g.outstanding - 1 }
  if g.committing then .error "log.committing"
  else if g.outstanding = 0 then .ok (true, { g with committing := true })
  else .ok (false, g)

/-- `commit()` as memory sees it: once the transaction is home, `log.lh.n = 0`. -/
def commit (g : Shared) : Shared :=
  if 0 < g.lh.length then { g with lh := [], logged := [] } else g

/-- The end of `end_op` after `commit()`: `log.committing = 0`, then `wakeup(&log)`. -/
@[simps]
def endCommit (g : Shared) : Shared := { g with committing := false }

/-- One step of a thread. -/
def logStep : Thread → Shared → Except String (Thread × Shared)
  | ⟨.idle, c, [], d⟩, g => .ok (⟨.idle, c, [], d⟩, g)
  | ⟨.idle, c, w :: ops, d⟩, g =>
    match beginOp g with
    | some g' => .ok (⟨.op, w, ops, []⟩, g')
    | none => .ok (⟨.idle, c, w :: ops, d⟩, g)
  | ⟨.op, b :: w, ops, d⟩, g =>
    match logWriteTests g with
    | .ok () => .ok (⟨.record b, w, ops, d⟩, g)
    | .error e => .error e
  | ⟨.op, [], ops, d⟩, g =>
    match endOp g with
    | .ok (true, g') => .ok (⟨.commit, [], ops, d⟩, g')
    | .ok (false, g') => .ok (⟨.idle, [], ops, d⟩, g')
    | .error e => .error e
  | ⟨.record b, w, ops, d⟩, g => .ok (⟨.op, w, ops, b :: d⟩, logWrite g b)
  | ⟨.commit, w, ops, d⟩, g => .ok (⟨.finish, w, ops, d⟩, commit g)
  | ⟨.finish, w, ops, d⟩, g => .ok (⟨.idle, w, ops, d⟩, endCommit g)

variable {n : ℕ}

/-- Threads running FS operations over one log. -/
abbrev Logs (n : ℕ) := Interleaving.Config (Fin n) Thread Shared

/-- The interleaving of the threads' steps. -/
def step : Logs n → Fin n → Except String (Logs n) :=
  Interleaving.step fun _ => logStep

/-- `initlog`, as memory sees it once `recover_from_log` has emptied the header. -/
def initlog (start size : ℕ) : Shared := ⟨start, size, 0, false, [], []⟩

/-- Threads about to run the operations `progs`, after `initlog`. -/
def boot (start size : ℕ) (progs : Fin n → List (List ℕ)) : Logs n :=
  ⟨fun t => ⟨.idle, [], progs t, []⟩, initlog start size⟩

/-- What the file-system code promises of an operation: at most `MAXOPBLOCKS` distinct blocks,
none of them in the log. -/
def OpFits (start size : ℕ) (w : List ℕ) : Prop :=
  (w.toFinset.card : ℤ) ≤ MAXOPBLOCKS ∧ ∀ b ∈ w, b < start ∨ start + size ≤ b

instance (start size : ℕ) (w : List ℕ) : Decidable (OpFits start size w) :=
  inferInstanceAs (Decidable (_ ∧ _))

/-! ### The small lemmas of each definition -/

theorem mem_absorb {lh : List ℕ} {b x : ℕ} : x ∈ absorb lh b ↔ x ∈ lh ∨ x = b := by
  unfold absorb
  split_ifs with h
  · exact ⟨.inl, fun hx => hx.elim id (· ▸ h)⟩
  · simp

theorem nodup_absorb {lh : List ℕ} (h : lh.Nodup) (b : ℕ) : (absorb lh b).Nodup := by
  unfold absorb
  split_ifs with hb
  · exact h
  · exact h.append (List.nodup_singleton b) (by simpa using hb)

theorem length_absorb_of_mem {lh : List ℕ} {b : ℕ} (h : b ∈ lh) :
    (absorb lh b).length = lh.length := by
  simp [absorb, h]

theorem length_absorb_of_not_mem {lh : List ℕ} {b : ℕ} (h : b ∉ lh) :
    (absorb lh b).length = lh.length + 1 := by
  simp [absorb, h]

@[simp] theorem commit_lh (g : Shared) : (commit g).lh = [] := by
  unfold commit
  split_ifs with h
  · rfl
  · exact List.eq_nil_of_length_eq_zero (by omega)

@[simp] theorem commit_start (g : Shared) : (commit g).start = g.start := by
  unfold commit; split_ifs <;> rfl

@[simp] theorem commit_size (g : Shared) : (commit g).size = g.size := by
  unfold commit; split_ifs <;> rfl

@[simp] theorem commit_outstanding (g : Shared) : (commit g).outstanding = g.outstanding := by
  unfold commit; split_ifs <;> rfl

@[simp] theorem commit_committing (g : Shared) : (commit g).committing = g.committing := by
  unfold commit; split_ifs <;> rfl

theorem beginOp_eq_some {g g' : Shared} : beginOp g = some g' ↔
    g.committing = false ∧ (g.lh.length : ℤ) + (g.outstanding + 1) * MAXOPBLOCKS ≤ LOGSIZE ∧
      g' = { g with outstanding := g.outstanding + 1 } := by
  unfold beginOp
  split_ifs with hc hroom
  · exact iff_of_false (by simp) fun h => absurd hc (by simp [h.1])
  · exact iff_of_false (by simp) fun h => absurd h.2.1 (not_le.2 hroom)
  · simp only [Option.some.injEq, Bool.not_eq_true] at hc ⊢
    simp only [hc, true_and]
    exact ⟨fun h => ⟨le_of_not_gt hroom, h.symm⟩, fun h => h.2.symm⟩

theorem endOp_of_committing {g : Shared} (hc : g.committing = true) :
    endOp g = .error "log.committing" := by
  simp [endOp, hc]

theorem endOp_of_last {g : Shared} (hc : g.committing = false) (h0 : g.outstanding - 1 = 0) :
    endOp g = .ok (true, { g with outstanding := g.outstanding - 1, committing := true }) := by
  simp [endOp, hc, h0]

theorem endOp_of_other {g : Shared} (hc : g.committing = false) (h0 : g.outstanding - 1 ≠ 0) :
    endOp g = .ok (false, { g with outstanding := g.outstanding - 1 }) := by
  simp [endOp, hc, h0]

/-- The tests of `log_write` pass in a log with room that counts an outstanding operation. -/
theorem logWriteTests_of_room {g : Shared} (hn : g.lh.length < LOGSIZE)
    (hsize : g.lh.length + 1 < g.size) (hout : 1 ≤ g.outstanding) : logWriteTests g = .ok () := by
  unfold logWriteTests
  rw [if_neg (by omega), if_neg (by omega)]

/-- Inside a transaction, the tests of `log_write` stop only on a full log. -/
theorem logWriteTests_error {g : Shared} {e : String} (h : logWriteTests g = .error e)
    (hout : 1 ≤ g.outstanding) :
    e = "too big a transaction" ∧ (LOGSIZE ≤ g.lh.length ∨ (g.size : ℤ) - 1 ≤ g.lh.length) := by
  unfold logWriteTests at h
  split_ifs at h with h₁ h₂
  · cases h
    exact ⟨rfl, h₁⟩
  · omega

/-! ### What a step can do -/

/-- The moves of a thread, one for each branch of `logStep`, with a sleep as `stay`. -/
inductive Moves : Thread → Shared → Thread → Shared → Prop
  | stay (th : Thread) (g : Shared) : Moves th g th g
  | begin {c w ops d} (g : Shared) (hc : g.committing = false)
      (hroom : (g.lh.length : ℤ) + (g.outstanding + 1) * MAXOPBLOCKS ≤ LOGSIZE) :
      Moves ⟨.idle, c, w :: ops, d⟩ g ⟨.op, w, ops, []⟩ { g with outstanding := g.outstanding + 1 }
  | tests {b w ops d} (g : Shared) (h : logWriteTests g = .ok ()) :
      Moves ⟨.op, b :: w, ops, d⟩ g ⟨.record b, w, ops, d⟩ g
  | record {b w ops d} (g : Shared) :
      Moves ⟨.record b, w, ops, d⟩ g ⟨.op, w, ops, b :: d⟩ (logWrite g b)
  | endLast {ops d} (g : Shared) (hc : g.committing = false) (h0 : g.outstanding - 1 = 0) :
      Moves ⟨.op, [], ops, d⟩ g ⟨.commit, [], ops, d⟩
        { g with outstanding := g.outstanding - 1, committing := true }
  | endOther {ops d} (g : Shared) (hc : g.committing = false) (h0 : g.outstanding - 1 ≠ 0) :
      Moves ⟨.op, [], ops, d⟩ g ⟨.idle, [], ops, d⟩ { g with outstanding := g.outstanding - 1 }
  | doCommit {w ops d} (g : Shared) :
      Moves ⟨.commit, w, ops, d⟩ g ⟨.finish, w, ops, d⟩ (commit g)
  | finish {w ops d} (g : Shared) :
      Moves ⟨.finish, w, ops, d⟩ g ⟨.idle, w, ops, d⟩ (endCommit g)

/-- **Every step of `logStep` is one of the `Moves`.** -/
theorem logStep_moves {th th' : Thread} {g g' : Shared} (h : logStep th g = .ok (th', g')) :
    Moves th g th' g' := by
  obtain ⟨pc, c, ops, d⟩ := th
  cases pc with
  | idle =>
    cases ops with
    | nil =>
      cases h
      exact .stay _ _
    | cons w ops =>
      simp only [logStep] at h
      cases hb : beginOp g with
      | none =>
        rw [hb] at h
        cases h
        exact .stay _ _
      | some g₁ =>
        rw [hb] at h
        cases h
        obtain ⟨hc, hroom, rfl⟩ := beginOp_eq_some.1 hb
        exact .begin g hc hroom
  | op =>
    cases c with
    | nil =>
      simp only [logStep] at h
      cases hc : g.committing
      · by_cases h0 : g.outstanding - 1 = 0
        · rw [endOp_of_last hc h0] at h
          cases h
          exact .endLast g hc h0
        · rw [endOp_of_other hc h0] at h
          cases h
          exact .endOther g hc h0
      · rw [endOp_of_committing hc] at h
        cases h
    | cons b w =>
      simp only [logStep] at h
      cases ht : logWriteTests g with
      | error e =>
        rw [ht] at h
        cases h
      | ok u =>
        rw [ht] at h
        cases h
        exact .tests g ht
  | record b =>
    cases h
    exact .record g
  | commit =>
    cases h
    exact .doCommit g
  | finish =>
    cases h
    exact .finish g

/-- A step stops only in `log_write`'s tests, or in `end_op` during a commit. -/
theorem logStep_error {th : Thread} {g : Shared} {e : String} (h : logStep th g = .error e) :
    th.pc = .op ∧ ((∃ b w, th.cur = b :: w ∧ logWriteTests g = .error e) ∨
      (th.cur = [] ∧ g.committing = true)) := by
  obtain ⟨pc, c, ops, d⟩ := th
  cases pc with
  | idle =>
    cases ops with
    | nil => cases h
    | cons w ops =>
      simp only [logStep] at h
      cases hb : beginOp g <;> simp [hb] at h
  | op =>
    refine ⟨rfl, ?_⟩
    cases c with
    | nil =>
      cases hc : g.committing
      · simp only [logStep] at h
        by_cases h0 : g.outstanding - 1 = 0
        · rw [endOp_of_last hc h0] at h
          cases h
        · rw [endOp_of_other hc h0] at h
          cases h
      · exact .inr ⟨rfl, rfl⟩
    | cons b w =>
      simp only [logStep] at h
      cases ht : logWriteTests g with
      | error e' =>
        rw [ht] at h
        cases h
        exact .inl ⟨b, w, rfl, rfl⟩
      | ok u =>
        rw [ht] at h
        cases h
  | record b => cases h
  | commit => cases h
  | finish => cases h

/-! ### Counting over the threads -/

/-- A thread inside an operation counts `1` in `log.outstanding`. -/
def Thread.busy (th : Thread) : ℤ := if th.pc.inOp then 1 else 0

/-- A committing thread counts `1`. -/
def Thread.commits (th : Thread) : ℤ := if th.pc.committer then 1 else 0

/-- What is left of an operation's reservation: the `MAXOPBLOCKS` it was admitted for less the
distinct blocks it has logged. -/
def Thread.room (th : Thread) : ℤ :=
  if th.pc.inOp then MAXOPBLOCKS - th.done.toFinset.card else 0

/-- The blocks of a thread's current operation: logged, being logged, and still to log. -/
def Thread.blocks (th : Thread) : List ℕ := th.done ++ th.pc.pending ++ th.cur

theorem Thread.room_of_not_inOp {th : Thread} (h : th.pc.inOp = false) : th.room = 0 := by
  simp [Thread.room, h]

/-- A thread keeps the promise of `OpFits`: its operations to come, and its current one. -/
structure Thread.Fits (start size : ℕ) (th : Thread) : Prop where
  ops : ∀ w ∈ th.ops, OpFits start size w
  cur : th.pc.inOp = true → OpFits start size th.blocks

theorem OpFits.congr {start size : ℕ} {w w' : List ℕ} (h : ∀ x, x ∈ w ↔ x ∈ w')
    (hw : OpFits start size w) : OpFits start size w' := by
  have hset : w.toFinset = w'.toFinset := Finset.ext fun x => by simp [h x]
  exact ⟨hset ▸ hw.1, fun b hb => hw.2 b ((h b).2 hb)⟩

theorem Thread.busy_nonneg (th : Thread) : 0 ≤ th.busy := by
  unfold Thread.busy
  split_ifs <;> omega

theorem Thread.commits_nonneg (th : Thread) : 0 ≤ th.commits := by
  unfold Thread.commits
  split_ifs <;> omega

theorem Thread.card_done_le (th : Thread) : th.done.toFinset.card ≤ th.blocks.toFinset.card :=
  Finset.card_le_card fun x hx => by
    simp only [List.mem_toFinset, Thread.blocks, List.mem_append] at hx ⊢
    exact .inl (.inl hx)

theorem Thread.Fits.room_nonneg {start size : ℕ} {th : Thread} (hf : th.Fits start size) :
    0 ≤ th.room := by
  unfold Thread.room
  split_ifs with h
  · have := (hf.cur h).1
    have := th.card_done_le
    omega
  · rfl

theorem Thread.room_le (th : Thread) : th.room ≤ MAXOPBLOCKS * th.busy := by
  unfold Thread.room Thread.busy
  split_ifs <;> simp

theorem single_le_sum_busy (s : Logs n) (t : Fin n) : (s.pc t).busy ≤ ∑ u, (s.pc u).busy :=
  Finset.single_le_sum (fun u _ => (s.pc u).busy_nonneg) (Finset.mem_univ t)

/-! ### The invariant -/

/-- Blocks outside the log. -/
def Shared.Outside (g : Shared) (b : ℕ) : Prop := b < g.start ∨ g.start + g.size ≤ b

/-- The invariant of every reachable configuration. -/
structure Inv (s : Logs n) : Prop where
  outstanding_eq : s.shared.outstanding = ∑ t, (s.pc t).busy
  commits_eq : ∑ t, (s.pc t).commits = if s.shared.committing then 1 else 0
  quiet : s.shared.committing = true → s.shared.outstanding = 0
  nodup : s.shared.lh.Nodup
  mem_lh : ∀ b, b ∈ s.shared.lh ↔ b ∈ s.shared.logged
  done_mem : ∀ t, (s.pc t).pc.inOp = true → ∀ b ∈ (s.pc t).done, b ∈ s.shared.lh
  reserved : (s.shared.lh.length : ℤ) + ∑ t, (s.pc t).room ≤ LOGSIZE
  fits : ∀ t, (s.pc t).Fits s.shared.start s.shared.size
  outside : ∀ b ∈ s.shared.lh, s.shared.Outside b

/-! ### What each move does to the parts of the invariant -/

namespace Moves

variable {th th' : Thread} {g g' : Shared}

theorem start_eq (h : Moves th g th' g') : g'.start = g.start := by
  cases h <;> simp

theorem size_eq (h : Moves th g th' g') : g'.size = g.size := by
  cases h <;> simp

theorem busy (h : Moves th g th' g') : g'.outstanding - g.outstanding = th'.busy - th.busy := by
  cases h <;> simp [Thread.busy, LogPc.inOp]

theorem commits (h : Moves th g th' g') (hc : th.pc.committer = true → g.committing = true) :
    ((if g'.committing then 1 else 0) : ℤ) - (if g.committing then 1 else 0) =
      th'.commits - th.commits := by
  cases h <;> simp_all [Thread.commits, LogPc.committer]

theorem quiet (h : Moves th g th' g') (hq : g.committing = true → g.outstanding = 0) :
    g'.committing = true → g'.outstanding = 0 := by
  cases h <;> simp_all

theorem nodup (h : Moves th g th' g') (hn : g.lh.Nodup) : g'.lh.Nodup := by
  cases h with
  | record g => exact nodup_absorb hn _
  | doCommit g => simp
  | _ => exact hn

theorem mem_lh (h : Moves th g th' g') (hm : ∀ b, b ∈ g.lh ↔ b ∈ g.logged) :
    ∀ b, b ∈ g'.lh ↔ b ∈ g'.logged := by
  cases h with
  | @record b w ops d g =>
    intro x
    simp [mem_absorb, hm x]
  | doCommit g =>
    unfold LogOps.commit
    split_ifs
    · simp
    · exact hm
  | _ => exact hm

/-- The blocks an operation in progress has logged stay in the header. -/
theorem done_mem (h : Moves th g th' g') (hd : th.pc.inOp = true → ∀ b ∈ th.done, b ∈ g.lh) :
    th'.pc.inOp = true → ∀ b ∈ th'.done, b ∈ g'.lh := by
  cases h with
  | stay => exact hd
  | begin g hc hroom => simp
  | tests g ht => exact hd
  | @record b w ops d g =>
    intro _ x hx
    rw [logWrite_lh, mem_absorb]
    rcases List.mem_cons.1 hx with rfl | hx
    · exact .inr rfl
    · exact .inl (hd rfl x hx)
  | _ => simp [LogPc.inOp]

/-- Only `commit()` takes blocks out of the header. -/
theorem lh_mono (h : Moves th g th' g') (hc : th.pc ≠ .commit) : ∀ b ∈ g.lh, b ∈ g'.lh := by
  cases h with
  | @record b w ops d g =>
    intro x hx
    rw [logWrite_lh, mem_absorb]
    exact .inl hx
  | doCommit g => exact absurd rfl hc
  | _ => exact fun _ hx => hx

/-- A move spends no more of the log than its operation had reserved, except `begin_op`, which
reserves `MAXOPBLOCKS` for a new operation when there is room for them. -/
theorem reserve (h : Moves th g th' g') (hf : th.Fits g.start g.size)
    (hd : th.pc.inOp = true → ∀ b ∈ th.done, b ∈ g.lh) :
    (g'.lh.length : ℤ) + th'.room ≤ g.lh.length + th.room ∨
      ((g.lh.length : ℤ) + (g.outstanding + 1) * MAXOPBLOCKS ≤ LOGSIZE ∧ g'.lh = g.lh ∧
        th.room = 0 ∧ th'.room = MAXOPBLOCKS) := by
  cases h with
  | stay => exact .inl le_rfl
  | begin g hc hroom =>
    exact .inr ⟨hroom, rfl, Thread.room_of_not_inOp rfl, by simp [Thread.room, LogPc.inOp]⟩
  | tests g ht => exact .inl (by simp [Thread.room, LogPc.inOp])
  | @record b w ops d g =>
    left
    by_cases hb : b ∈ g.lh
    · -- absorbed: the header keeps its length
      have hcard : d.toFinset.card ≤ (insert b d.toFinset).card :=
        Finset.card_le_card (Finset.subset_insert _ _)
      rw [logWrite_lh, length_absorb_of_mem hb]
      simp only [Thread.room, LogPc.inOp, if_true, List.toFinset_cons]
      omega
    · -- appended: `b` is new to the operation too, so its reservation pays for it
      have hbd : b ∉ d.toFinset := by simpa using fun h => hb (hd rfl b h)
      rw [logWrite_lh, length_absorb_of_not_mem hb]
      simp only [Thread.room, LogPc.inOp, if_true, List.toFinset_cons,
        Finset.card_insert_of_notMem hbd]
      push_cast
      omega
  | @endLast ops d g hc h0 =>
    have h0' : Thread.room ⟨.commit, [], ops, d⟩ = 0 := Thread.room_of_not_inOp rfl
    exact .inl (by simpa [h0'] using hf.room_nonneg)
  | @endOther ops d g hc h0 =>
    have h0' : Thread.room ⟨.idle, [], ops, d⟩ = 0 := Thread.room_of_not_inOp rfl
    exact .inl (by simpa [h0'] using hf.room_nonneg)
  | doCommit g => exact .inl (by simp [Thread.room, LogPc.inOp])
  | finish g => exact .inl (by simp [Thread.room, LogPc.inOp])

theorem fits {start size : ℕ} (h : Moves th g th' g') (hf : th.Fits start size) :
    th'.Fits start size := by
  cases h with
  | stay => exact hf
  | @begin c w ops d g hc hroom =>
    refine ⟨fun w' hw' => hf.ops w' (List.mem_cons_of_mem _ hw'), fun _ => ?_⟩
    exact (hf.ops w List.mem_cons_self).congr fun x => by simp [Thread.blocks, LogPc.pending]
  | @tests b w ops d g ht =>
    exact ⟨hf.ops, fun _ => (hf.cur rfl).congr fun x => by simp [Thread.blocks, LogPc.pending]⟩
  | @record b w ops d g =>
    refine ⟨hf.ops, fun _ => (hf.cur rfl).congr fun x => ?_⟩
    simp only [Thread.blocks, LogPc.pending, List.mem_append, List.mem_cons,
      List.not_mem_nil, or_false, List.append_nil]
    tauto
  | _ => exact ⟨hf.ops, fun h => by simp [LogPc.inOp] at h⟩

theorem outside (h : Moves th g th' g') (hf : th.Fits g.start g.size)
    (ho : ∀ b ∈ g.lh, g.Outside b) : ∀ b ∈ g'.lh, g'.Outside b := by
  cases h with
  | @record b w ops d g =>
    intro x hx
    rcases mem_absorb.1 (logWrite_lh g b ▸ hx) with hx | rfl
    · exact ho x hx
    · exact (hf.cur rfl).2 x (by simp [Thread.blocks, LogPc.pending])
  | doCommit g => simp
  | _ => exact ho

end Moves

/-! ### Consequences of the invariant -/

namespace Inv

variable {s : Logs n} (hi : Inv s)
include hi

theorem outstanding_pos {t : Fin n} (ht : (s.pc t).pc.inOp = true) : 1 ≤ s.shared.outstanding := by
  have h := single_le_sum_busy s t
  rw [← hi.outstanding_eq] at h
  simpa [Thread.busy, ht] using h

/-- No commit runs while a thread is inside an operation. -/
theorem committing_eq_false {t : Fin n} (ht : (s.pc t).pc.inOp = true) :
    s.shared.committing = false := by
  cases hc : s.shared.committing
  · rfl
  · have := hi.quiet hc
    have := hi.outstanding_pos ht
    omega

theorem not_inOp_of_committing (hc : s.shared.committing = true) (u : Fin n) :
    (s.pc u).pc.inOp = false := by
  cases hu : (s.pc u).pc.inOp
  · rfl
  · rw [hi.committing_eq_false hu] at hc
    cases hc

theorem committing_of_committer {t : Fin n} (ht : (s.pc t).pc.committer = true) :
    s.shared.committing = true := by
  have h : (s.pc t).commits ≤ ∑ u, (s.pc u).commits :=
    Finset.single_le_sum (fun u _ => (s.pc u).commits_nonneg) (Finset.mem_univ t)
  rw [hi.commits_eq] at h
  cases hc : s.shared.committing
  · simp [hc, Thread.commits, ht] at h
  · rfl

/-- While a thread commits, every other thread is between operations. -/
theorem idle_of_committer {t : Fin n} (ht : (s.pc t).pc.committer = true) {u : Fin n}
    (hu : u ≠ t) : (s.pc u).pc = .idle := by
  have hc := hi.committing_of_committer ht
  have hsum := hi.commits_eq
  rw [hc, if_pos rfl, ← Finset.add_sum_erase _ _ (Finset.mem_univ t)] at hsum
  have ht1 : (s.pc t).commits = 1 := by simp [Thread.commits, ht]
  have hrest : ∑ x ∈ Finset.univ.erase t, (s.pc x).commits = 0 := by omega
  have hu0 := (Finset.sum_eq_zero_iff_of_nonneg fun x _ => (s.pc x).commits_nonneg).1 hrest u
    (Finset.mem_erase.2 ⟨hu, Finset.mem_univ u⟩)
  have hop := hi.not_inOp_of_committing hc u
  -- neither inside an operation nor committing
  simp only [Thread.commits] at hu0
  cases hp : (s.pc u).pc <;> simp_all [LogPc.committer, LogPc.inOp]

theorem sum_room_le : ∑ t, (s.pc t).room ≤ MAXOPBLOCKS * s.shared.outstanding := by
  rw [hi.outstanding_eq, Finset.mul_sum]
  exact Finset.sum_le_sum fun t _ => (s.pc t).room_le

theorem sum_room_nonneg : 0 ≤ ∑ t, (s.pc t).room :=
  Finset.sum_nonneg fun t _ => (hi.fits t).room_nonneg

theorem length_le : s.shared.lh.length ≤ LOGSIZE := by
  have := hi.reserved
  have := hi.sum_room_nonneg
  omega

/-- A block of an operation in progress that the operation has not logged yet finds room in the
header: the operation's reservation is not spent. -/
theorem length_lt_of_fresh {t : Fin n} (ht : (s.pc t).pc.inOp = true) {b : ℕ}
    (hb : b ∈ (s.pc t).blocks) (hbd : b ∉ (s.pc t).done) : s.shared.lh.length < LOGSIZE := by
  have hfit := ((hi.fits t).cur ht).1
  have hsub : insert b (s.pc t).done.toFinset ⊆ (s.pc t).blocks.toFinset := by
    intro x hx
    rcases Finset.mem_insert.1 hx with rfl | hx
    · exact List.mem_toFinset.2 hb
    · simp only [List.mem_toFinset, Thread.blocks, List.mem_append] at hx ⊢
      exact .inl (.inl hx)
  have hcard := Finset.card_le_card hsub
  rw [Finset.card_insert_of_notMem (by simpa using hbd)] at hcard
  have hroom : 1 ≤ (s.pc t).room := by
    simp only [Thread.room, ht, if_true]
    omega
  have hle : (s.pc t).room ≤ ∑ u, (s.pc u).room :=
    Finset.single_le_sum (fun u _ => (hi.fits u).room_nonneg) (Finset.mem_univ t)
  have := hi.reserved
  omega

/-- **Each step keeps the invariant.** -/
theorem step {s' : Logs n} {t : Fin n} (h : LogOps.step s t = .ok s') : Inv s' := by
  obtain ⟨hprog, hother⟩ := Interleaving.step_eq_ok.1 h
  have hm := logStep_moves hprog
  have hsum : ∀ w : Thread → ℤ, ∑ u, w (s'.pc u) = ∑ u, w (s.pc u) - w (s.pc t) + w (s'.pc t) :=
    fun w => Interleaving.sum_pc_step w h
  have hfit := hi.fits t
  have hdone := hi.done_mem t
  have hstart := hm.start_eq
  have hsize := hm.size_eq
  constructor
  · rw [hsum Thread.busy]
    have := hm.busy
    have := hi.outstanding_eq
    omega
  · rw [hsum Thread.commits]
    have := hm.commits hi.committing_of_committer
    have := hi.commits_eq
    omega
  · exact hm.quiet hi.quiet
  · exact hm.nodup hi.nodup
  · exact hm.mem_lh hi.mem_lh
  · intro u hu
    by_cases hut : u = t
    · subst hut
      exact hm.done_mem hdone hu
    · rw [hother u hut] at hu ⊢
      intro b hb
      -- `t` does not commit while `u` is inside an operation
      refine hm.lh_mono (fun hc => ?_) b (hi.done_mem u hu b hb)
      have hcm := hi.committing_of_committer (t := t) (by rw [hc]; rfl)
      rw [hi.not_inOp_of_committing hcm u] at hu
      cases hu
  · rw [hsum Thread.room]
    rcases hm.reserve hfit hdone with hle | ⟨hroom, hlh, h0, h1⟩
    · have := hi.reserved
      omega
    · have hsr := hi.sum_room_le
      have := hi.reserved
      rw [hlh, h0, h1]
      rw [show MAXOPBLOCKS = 10 from rfl] at hroom hsr ⊢
      omega
  · intro u
    rw [hstart, hsize]
    by_cases hut : u = t
    · subst hut
      exact hm.fits hfit
    · rw [hother u hut]
      exact hi.fits u
  · intro b hb
    exact hm.outside hfit hi.outside b hb

end Inv

/-- The invariant holds after `initlog`, for operations that keep the promise of `OpFits`. -/
theorem Inv.boot {start size : ℕ} {progs : Fin n → List (List ℕ)}
    (hprogs : ∀ t, ∀ w ∈ progs t, OpFits start size w) : Inv (boot start size progs) := by
  refine ⟨?_, ?_, by simp [LogOps.boot, initlog], by simp [LogOps.boot, initlog], by simp [LogOps.boot, initlog],
    by simp [LogOps.boot, LogPc.inOp], ?_, fun t => ⟨hprogs t, by simp [LogOps.boot, LogPc.inOp]⟩,
    by simp [LogOps.boot, initlog]⟩
  · simp [LogOps.boot, initlog, Thread.busy, LogPc.inOp]
  · simp [LogOps.boot, initlog, Thread.commits, LogPc.committer]
  · simp [LogOps.boot, initlog, Thread.room, LogPc.inOp]

/-- **The invariant holds in every reachable configuration.** -/
theorem Inv.reach {start size : ℕ} {progs : Fin n → List (List ℕ)}
    (hprogs : ∀ t, ∀ w ∈ progs t, OpFits start size w) {s : Logs n}
    (hs : Machine.Reach LogOps.step (LogOps.boot start size progs) s) : Inv s :=
  hs.invariant (Inv.boot hprogs) fun _ _ _ hi h => hi.step h

/-- `log.start` and `log.size` stay as `initlog` set them. -/
theorem start_size_reach {start size : ℕ} {progs : Fin n → List (List ℕ)} {s : Logs n}
    (hs : Machine.Reach step (boot start size progs) s) :
    s.shared.start = start ∧ s.shared.size = size := by
  refine hs.invariant (I := fun s => s.shared.start = start ∧ s.shared.size = size) ⟨rfl, rfl⟩ ?_
  rintro s t s' ⟨hst, hsz⟩ h
  have hm := logStep_moves (Interleaving.step_eq_ok.1 h).1
  exact ⟨hm.start_eq.trans hst, hm.size_eq.trans hsz⟩

/-! ### The guarantees of the log -/

section Guarantees

variable {start size : ℕ} {progs : Fin n → List (List ℕ)}

/-- **The reservation of `begin_op` keeps the header within `LOGSIZE`.**  In every configuration
reached by operations that keep the promise of `OpFits`, the header lists distinct blocks,
exactly those logged since the last commit, at most `LOGSIZE` of them; and a block that
`log_write` is about to add to the header finds it with fewer than `LOGSIZE` entries, so that
`log.lh.block[n]` is inside the array. -/
theorem log_reserved (hprogs : ∀ t, ∀ w ∈ progs t, OpFits start size w) {s : Logs n}
    (hs : Machine.Reach step (boot start size progs) s) :
    s.shared.lh.Nodup ∧ (∀ b, b ∈ s.shared.lh ↔ b ∈ s.shared.logged) ∧
      s.shared.lh.length ≤ LOGSIZE ∧
      ∀ t b, (s.pc t).pc = .record b → b ∉ s.shared.lh → s.shared.lh.length < LOGSIZE := by
  have hi := Inv.reach hprogs hs
  refine ⟨hi.nodup, hi.mem_lh, hi.length_le, fun t b ht hb => ?_⟩
  have hop : (s.pc t).pc.inOp = true := by rw [ht]; rfl
  -- `b` is new to the header, so new to the operation, whose reservation pays for it
  have hbd : b ∉ (s.pc t).done := fun h => hb (hi.done_mem t hop b h)
  exact hi.length_lt_of_fresh hop (by simp [Thread.blocks, ht, LogPc.pending]) hbd

/-- **The only panic is a full log.**  In every configuration reached by operations that keep
the promise of `OpFits`, a step that stops is a `log_write` that panics with
`"too big a transaction"`: `end_op` never finds a commit running, and `log_write` is never
outside a transaction.  For a log of more than `LOGSIZE` blocks, the panic comes only when an
operation logs again a block it has logged, with `LOGSIZE` blocks in the header. -/
theorem log_panics (hprogs : ∀ t, ∀ w ∈ progs t, OpFits start size w) {s : Logs n}
    (hs : Machine.Reach step (boot start size progs) s) {t : Fin n} {e : String}
    (h : step s t = .error e) :
    e = "too big a transaction" ∧ ∃ b w, (s.pc t).pc = .op ∧ (s.pc t).cur = b :: w ∧
      (LOGSIZE < size → b ∈ (s.pc t).done ∧ s.shared.lh.length = LOGSIZE) := by
  have hi := Inv.reach hprogs hs
  obtain ⟨hpc, hcase⟩ := logStep_error (Interleaving.step_eq_error.1 h)
  have hop : (s.pc t).pc.inOp = true := by rw [hpc]; rfl
  rcases hcase with ⟨b, w, hcur, ht⟩ | ⟨-, hcm⟩
  · -- the tests failed: the header is full by `LOGSIZE` or by the size of the log
    obtain ⟨he, hfull⟩ := logWriteTests_error ht (hi.outstanding_pos hop)
    refine ⟨he, b, w, hpc, hcur, fun hsize => ?_⟩
    have hle := hi.length_le
    have hsz := (start_size_reach hs).2
    have hlen : s.shared.lh.length = LOGSIZE := by omega
    refine ⟨?_, hlen⟩
    by_contra hbd
    have := hi.length_lt_of_fresh hop (by simp [Thread.blocks, hcur]) hbd
    omega
  · -- `end_op` of a thread inside an operation: no commit is running
    rw [hi.committing_eq_false hop] at hcm
    cases hcm

/-- **A commit writes whole operations.**  In every configuration reached by operations that keep
the promise of `OpFits`, when a thread is about to call `commit()` no operation is outstanding
and every other thread is between operations; the header lists, once each, the blocks logged
since the last commit.  For a log of more than `LOGSIZE` blocks the header fits in the log after
its header block and lies outside the log, as the crash atomicity of `commit()` asks. -/
theorem commit_quiescent (hprogs : ∀ t, ∀ w ∈ progs t, OpFits start size w) {s : Logs n}
    (hs : Machine.Reach step (boot start size progs) s) {t : Fin n}
    (ht : (s.pc t).pc = .commit) :
    s.shared.outstanding = 0 ∧ (∀ u ≠ t, (s.pc u).pc = .idle) ∧ s.shared.lh.Nodup ∧
      (∀ b, b ∈ s.shared.lh ↔ b ∈ s.shared.logged) ∧
      (LOGSIZE < size → Log.Outside start size s.shared.lh) := by
  have hi := Inv.reach hprogs hs
  have htc : (s.pc t).pc.committer = true := by rw [ht]; rfl
  have hc := hi.committing_of_committer htc
  obtain ⟨hst, hsz⟩ := start_size_reach hs
  refine ⟨hi.quiet hc, fun u hu => hi.idle_of_committer htc hu, hi.nodup, hi.mem_lh,
    fun hsize => ⟨?_, fun b hb => ?_⟩⟩
  · have := hi.length_le
    omega
  · have := hi.outside b hb
    rwa [Shared.Outside, hst, hsz] at this

end Guarantees

/-! ### Runs -/

/-- One operation that logs block `40`. -/
def oneWrite : Fin 1 → List (List ℕ) := fun _ => [[40]]

/-- Three operations of `MAXOPBLOCKS` distinct blocks each: blocks `100` to `129`, outside the
log mkfs lays out. -/
def tenBlocks : Fin 3 → List (List ℕ) := fun t => [(List.range 10).map (100 + 10 * t.val + ·)]

theorem tenBlocks_fit : ∀ t, ∀ w ∈ tenBlocks t, OpFits 2 LOGSIZE w := by
  decide

theorem log_reserved_oneWrite :
    ∃ s : Logs 1, Machine.Reach step (boot 2 31 oneWrite) s ∧ (s.pc 0).pc = .record 40 ∧
      (s.shared.lh.Nodup ∧ (∀ b, b ∈ s.shared.lh ↔ b ∈ s.shared.logged) ∧
        s.shared.lh.length ≤ LOGSIZE ∧
        ∀ t b, (s.pc t).pc = .record b → b ∉ s.shared.lh → s.shared.lh.length < LOGSIZE) := by
  have hrun : (Machine.run step (boot 2 31 oneWrite) [0, 0]).toOption.map
      (fun s => (s.pc 0).pc == .record 40) = some true := by decide +kernel
  obtain ⟨s, hs, hp⟩ := Machine.exists_reach_of_run hrun
  exact ⟨s, hs, beq_iff_eq.1 hp, log_reserved (by decide) hs⟩

/-- With mkfs's log, three operations of `MAXOPBLOCKS` blocks one after the other: the last
`log_write` of the third finds `n = 29 = log.size - 1` and panics. -/
theorem log_panics_tenBlocks :
    ∃ (s : Logs 3) (e : String), Machine.Reach step (boot 2 LOGSIZE tenBlocks) s ∧
      step s 2 = .error e ∧
      (e = "too big a transaction" ∧ ∃ b w, (s.pc 2).pc = .op ∧ (s.pc 2).cur = b :: w ∧
        (LOGSIZE < LOGSIZE → b ∈ (s.pc 2).done ∧ s.shared.lh.length = LOGSIZE)) := by
  have hrun : (Machine.run step (boot 2 LOGSIZE tenBlocks)
      ([0, 1, 2] ++ List.replicate 20 0 ++ List.replicate 20 1 ++ List.replicate 18 2)).toOption.map
      (fun s => (step s 2).toBool == false) = some true := by decide +kernel
  obtain ⟨s, hs, hp⟩ := Machine.exists_reach_of_run hrun
  cases he : step s 2 with
  | error e => exact ⟨s, e, hs, he, log_panics tenBlocks_fit hs he⟩
  | ok s' => simp [he, Except.toBool] at hp

theorem commit_quiescent_oneWrite :
    ∃ s : Logs 1, Machine.Reach step (boot 2 31 oneWrite) s ∧ (s.pc 0).pc = .commit ∧
      (s.shared.outstanding = 0 ∧ (∀ u ≠ 0, (s.pc u).pc = .idle) ∧ s.shared.lh.Nodup ∧
        (∀ b, b ∈ s.shared.lh ↔ b ∈ s.shared.logged) ∧
        (LOGSIZE < 31 → Log.Outside 2 31 s.shared.lh)) := by
  have hrun : (Machine.run step (boot 2 31 oneWrite) [0, 0, 0, 0]).toOption.map
      (fun s => (s.pc 0).pc == .commit) = some true := by decide +kernel
  obtain ⟨s, hs, hp⟩ := Machine.exists_reach_of_run hrun
  have ht : (s.pc 0).pc = .commit := beq_iff_eq.1 hp
  exact ⟨s, hs, ht, commit_quiescent (by decide) hs ht⟩

/-- `write_log` writes the last logged block of a header of `k + 1` blocks to log block
`start + tail + k + 1`. -/
theorem mem_writeLog_append {β : Type*} (start tail : ℕ) (cache : ℕ → β) (lh : List ℕ) (b : ℕ) :
    (start + tail + lh.length + 1, cache b) ∈ Log.writeLog start cache tail (lh ++ [b]) := by
  induction lh generalizing tail with
  | nil => simp [Log.writeLog]
  | cons a lh ih =>
    have h := ih (tail + 1)
    rw [show start + (tail + 1) + lh.length + 1 = start + tail + (a :: lh).length + 1 by
      simp only [List.length_cons]; omega] at h
    exact List.mem_cons_of_mem _ h

/-- All three operations of `tenBlocks` begin; the first logs its ten blocks and the others nine
each; the second and the third then pass the tests of `log_write` for their tenth block before
either takes `log.lock`, and record it; the three end, the third last. -/
def raceRun : List (Fin 3) :=
  [0, 1, 2] ++ List.replicate 20 0 ++ List.replicate 18 1 ++ List.replicate 18 2 ++
    [1, 2, 1, 2, 0, 1, 2]

/-- **The log mkfs lays out can overflow.**  mkfs gives the log `nlog = LOGSIZE` blocks from
block `2`, the header one of them, so `LOGSIZE - 1` blocks after it; `begin_op` admits three
operations of `MAXOPBLOCKS` blocks.  When two of them pass the tests of `log_write` with
`n = LOGSIZE - 2` before either takes `log.lock`, both record their block: the commit that
follows has `LOGSIZE` blocks in its header, and `write_log` writes the last of them over the
block that holds the root directory's inode. -/
theorem log_overflow_mkfs :
    ∃ s, Machine.Reach step (boot 2 LOGSIZE tenBlocks) s ∧ (s.pc 2).pc = .commit ∧
      s.shared.lh.length = LOGSIZE ∧
      ∀ (β : Type) (cache : ℕ → β), ∃ b ∈ s.shared.lh,
        (IBLOCK ROOTINO mkfsSuperblock, cache b) ∈ Log.writeLog 2 cache 0 s.shared.lh := by
  have hrun : (Machine.run step (boot 2 LOGSIZE tenBlocks) raceRun).toOption.map
      (fun s => (s.pc 2).pc == .commit && s.shared.lh ==
        (List.range 10).map (100 + ·) ++ (List.range 9).map (110 + ·) ++
          (List.range 9).map (120 + ·) ++ [119] ++ [129]) = some true := by decide +kernel
  obtain ⟨s, hs, hp⟩ := Machine.exists_reach_of_run hrun
  simp only [Bool.and_eq_true, beq_iff_eq] at hp
  obtain ⟨hpc, hlh⟩ := hp
  refine ⟨s, hs, hpc, by rw [hlh]; rfl, fun β cache => ⟨129, by simp [hlh], ?_⟩⟩
  rw [hlh]
  exact mem_writeLog_append 2 0 cache _ 129

end LogOps

end Xv6Kernel
