import Xv6Kernel.Lib.DiskWrites

/-!
# The write-ahead log across a crash (`log.c`)

`commit()` writes the logged blocks' cached contents to the log blocks after the header
(`write_log`), writes the header with their numbers (`write_head`, the commit point), copies the
log blocks to their home blocks (`install_trans`) and writes an empty header.  At boot
`recover_from_log()` reads the header, copies the log blocks it names home, and writes an empty
header.  Each of these is a sequence of single-block disk writes (`LogWrite`); a crash lets a
prefix of them through.

The disk is seen as the header block at `log.start` and the contents of the other blocks; the
logged blocks lie outside the log (`Outside`), as no block of the log passes through
`log_write`.

* `log_crash_atomic` : a crash after any prefix of `commit`'s writes, then recovery, leaves every
  logged block with its contents from before the transaction or every one with its contents
  after it, the header empty and every other block as it was; and a recovery interrupted by a
  crash and run again leaves the same disk as one uninterrupted recovery.
-/

namespace Xv6Kernel

namespace Log

open DiskWrites

variable {β : Type*}

/-- The disk as the log sees it. -/
structure LogDisk (β : Type*) where
  /-- The header block: `n` and `block[0..n-1]`. -/
  hdr : List ℕ
  /-- The contents of the other blocks. -/
  blk : ℕ → β

/-- One `bwrite` of the log code. -/
inductive LogWrite (β : Type*)
  /-- A block filled with `v`. -/
  | block (b : ℕ) (v : β)
  /-- Block `dst` after a `memmove` from block `src` as read from the disk. -/
  | copy (dst src : ℕ)
  /-- `write_head` of the header `lh`. -/
  | head (lh : List ℕ)

/-- The disk after one write. -/
def LogWrite.apply : LogWrite β → LogDisk β → LogDisk β
  | .block b v, d => { d with blk := Function.update d.blk b v }
  | .copy dst src, d => { d with blk := Function.update d.blk dst (d.blk src) }
  | .head lh, d => { d with hdr := lh }

/-- The disk after a list of writes. -/
def applyAll (ws : List (LogWrite β)) (d : LogDisk β) : LogDisk β :=
  ws.foldl (fun d w => w.apply d) d

/-- `write_log`: the cached contents of the `tail`-th logged block to log block
`start + tail + 1`. -/
def writeLog (start : ℕ) (cache : ℕ → β) : ℕ → List ℕ → List (ℕ × β)
  | _, [] => []
  | tail, b :: lh => (start + tail + 1, cache b) :: writeLog start cache (tail + 1) lh

/-- `install_trans`: log block `start + tail + 1` onto the `tail`-th logged block. -/
def installTrans (start : ℕ) : ℕ → List ℕ → List (ℕ × ℕ)
  | _, [] => []
  | tail, b :: lh => (b, start + tail + 1) :: installTrans start (tail + 1) lh

/-- The writes of `install_trans` for the header `lh`. -/
def installWrites (start : ℕ) (lh : List ℕ) : List (LogWrite β) :=
  (installTrans start 0 lh).map fun c => .copy c.1 c.2

/-- The writes of `commit()` for the logged blocks `lh`, whose contents are in the cache. -/
def commitWrites (start : ℕ) (lh : List ℕ) (cache : ℕ → β) : List (LogWrite β) :=
  if 0 < lh.length then
    (writeLog start cache 0 lh).map (fun p => .block p.1 p.2) ++ .head lh ::
      (installWrites start lh ++ [.head []])
  else []

/-- The writes of `recover_from_log()` for the header `lh` it read. -/
def recoverWrites (start : ℕ) (lh : List ℕ) : List (LogWrite β) :=
  installWrites start lh ++ [.head []]

/-- `recover_from_log()`. -/
def recover (start : ℕ) (d : LogDisk β) : LogDisk β :=
  applyAll (recoverWrites start d.hdr) d

/-- The disk a crash leaves after the first `k` writes of `commit()`. -/
def crashCommit (start : ℕ) (lh : List ℕ) (cache : ℕ → β) (d : LogDisk β) (k : ℕ) : LogDisk β :=
  applyAll ((commitWrites start lh cache).take k) d

/-- The disk a crash leaves after the first `j` writes of `recover_from_log()`. -/
def crashRecover (start : ℕ) (d : LogDisk β) (j : ℕ) : LogDisk β :=
  applyAll ((recoverWrites start d.hdr).take j) d

/-- The logged blocks fit in the log and lie outside it. -/
def Outside (start size : ℕ) (lh : List ℕ) : Prop :=
  lh.length < size ∧ ∀ b ∈ lh, b < start ∨ start + size ≤ b

/-! ### Writes of each kind -/

theorem applyAll_append (ws vs : List (LogWrite β)) (d : LogDisk β) :
    applyAll (ws ++ vs) d = applyAll vs (applyAll ws d) :=
  List.foldl_append

theorem applyAll_blocks (ws : List (ℕ × β)) (d : LogDisk β) :
    applyAll (ws.map fun p => .block p.1 p.2) d = ⟨d.hdr, applyW ws d.blk⟩ := by
  induction ws generalizing d with
  | nil => rfl
  | cons w ws ih => exact ih _

theorem applyAll_copies (cs : List (ℕ × ℕ)) (d : LogDisk β) :
    applyAll (cs.map fun c => .copy c.1 c.2) d = ⟨d.hdr, copyW cs d.blk⟩ := by
  induction cs generalizing d with
  | nil => rfl
  | cons c cs ih => exact ih _

@[simp] theorem applyAll_head (lh : List ℕ) (d : LogDisk β) :
    applyAll [.head lh] d = { d with hdr := lh } := rfl

/-! ### Where the writes go -/

theorem mem_writeLog {start tail : ℕ} {cache : ℕ → β} {lh : List ℕ} {p : ℕ × β}
    (h : p ∈ writeLog start cache tail lh) :
    start + tail + 1 ≤ p.1 ∧ p.1 < start + tail + 1 + lh.length := by
  induction lh generalizing tail with
  | nil => cases h
  | cons b lh ih =>
    rcases List.mem_cons.1 h with rfl | h
    · simp
    · have := ih h
      simp only [List.length_cons]
      omega

theorem mem_installTrans {start tail : ℕ} {lh : List ℕ} {c : ℕ × ℕ}
    (h : c ∈ installTrans start tail lh) :
    c.1 ∈ lh ∧ start + tail + 1 ≤ c.2 ∧ c.2 < start + tail + 1 + lh.length := by
  induction lh generalizing tail with
  | nil => cases h
  | cons b lh ih =>
    rcases List.mem_cons.1 h with rfl | h
    · simp
    · obtain ⟨hmem, hlo, hhi⟩ := ih h
      simp only [List.length_cons, List.mem_cons]
      exact ⟨.inr hmem, by omega, by omega⟩

/-- `install_trans` writes no log block it reads. -/
theorem installTrans_disjoint {start size : ℕ} {lh : List ℕ} (hout : Outside start size lh) :
    ∀ c ∈ installTrans start 0 lh, ∀ c' ∈ installTrans start 0 lh, c.1 ≠ c'.2 := by
  intro c hc c' hc' heq
  obtain ⟨hmem, -, -⟩ := mem_installTrans hc
  obtain ⟨-, hlo, hhi⟩ := mem_installTrans hc'
  have := hout.2 c.1 hmem
  have := hout.1
  omega

/-- `install_trans` writes the logged blocks. -/
theorem installTrans_fst (start tail : ℕ) (lh : List ℕ) :
    (installTrans start tail lh).map Prod.fst = lh := by
  induction lh generalizing tail with
  | nil => rfl
  | cons b lh ih => simp [installTrans, ih]

theorem length_installTrans (start tail : ℕ) (lh : List ℕ) :
    (installTrans start tail lh).length = lh.length := by
  simpa using congrArg List.length (installTrans_fst start tail lh)

/-- After `write_log`, `install_trans` reads the cached contents of the block it writes. -/
theorem installTrans_reads (start : ℕ) (cache : ℕ → β) (lh : List ℕ) (tail : ℕ) (blk : ℕ → β) :
    (installTrans start tail lh).map (fun c => (c.1, applyW (writeLog start cache tail lh) blk c.2)) =
      lh.map fun b => (b, cache b) := by
  induction lh generalizing tail blk with
  | nil => rfl
  | cons b lh ih =>
    -- the later log writes go to later log blocks
    have hlater : applyW (writeLog start cache (tail + 1) lh)
        (Function.update blk (start + tail + 1) (cache b)) (start + tail + 1) = cache b := by
      rw [applyW_other _ _ fun p hp => by have := (mem_writeLog hp).1; omega]
      simp
    simp only [installTrans, writeLog, List.map_cons, applyW, hlater, ih]

/-! ### Recovery -/

/-- Recovery of a disk with an empty header changes nothing. -/
theorem recover_clean (start : ℕ) {d : LogDisk β} (h : d.hdr = []) : recover start d = d := by
  obtain ⟨hdr, blk⟩ := d
  subst h
  rfl

/-- Recovery copies the log blocks its header names home and empties the header. -/
theorem recover_eq (start : ℕ) (d : LogDisk β) :
    recover start d = ⟨[], copyW (installTrans start 0 d.hdr) d.blk⟩ := by
  rw [recover, recoverWrites, installWrites, applyAll_append, applyAll_copies]
  rfl

/-- **Recovery may crash and be run again**: a crash after any prefix of its writes, then a
whole recovery, leaves the disk one recovery leaves. -/
theorem recover_after_crash {start size : ℕ} {d : LogDisk β} (hout : Outside start size d.hdr)
    (j : ℕ) : recover start (crashRecover start d j) = recover start d := by
  unfold crashRecover
  have hlen : (installWrites (β := β) start d.hdr).length = d.hdr.length := by
    simp [installWrites, length_installTrans]
  by_cases hj : j ≤ d.hdr.length
  · -- the header still names the logged blocks: the copies are redone
    rw [recoverWrites, List.take_append_of_le_length (by omega), installWrites, ← List.map_take,
      applyAll_copies, recover_eq, recover_eq]
    simp only [LogDisk.mk.injEq, true_and]
    exact copyW_take_then_all (installTrans_disjoint hout) j d.blk
  · -- the crash came after the header was emptied
    rw [List.take_of_length_le (by simp [recoverWrites]; omega)]
    refine recover_clean start ?_
    show (recover start d).hdr = []
    rw [recover_eq]

/-! ### A crash during `commit` -/

section Commit

variable {start size : ℕ} {lh : List ℕ} {cache : ℕ → β} {d : LogDisk β}

/-- The disk once `write_log` is done. -/
def logged (start : ℕ) (lh : List ℕ) (cache : ℕ → β) (d : LogDisk β) : ℕ → β :=
  applyW (writeLog start cache 0 lh) d.blk

theorem length_writeLog (start tail : ℕ) (cache : ℕ → β) (lh : List ℕ) :
    (writeLog start cache tail lh).length = lh.length := by
  induction lh generalizing tail with
  | nil => rfl
  | cons b lh ih => simp [writeLog, ih]

/-- **Where a crash during `commit` can leave the disk**: with some log blocks written and the
header still empty; with the header written and some logged blocks installed; or after the
whole commit. -/
theorem crash_commit_cases (hclean : d.hdr = []) (hpos : 0 < lh.length) (k : ℕ) :
    crashCommit start lh cache d k = ⟨[], applyW ((writeLog start cache 0 lh).take k) d.blk⟩ ∨
    (∃ m, crashCommit start lh cache d k =
        ⟨lh, copyW ((installTrans start 0 lh).take m) (logged start lh cache d)⟩) ∨
    crashCommit start lh cache d k =
      ⟨[], copyW (installTrans start 0 lh) (logged start lh cache d)⟩ := by
  have hL : ((writeLog start cache 0 lh).map fun p => LogWrite.block p.1 p.2).length =
      lh.length := by
    simp [length_writeLog]
  -- the disk once the header is written
  have hhead : applyAll ((writeLog start cache 0 lh).map (fun p => LogWrite.block p.1 p.2) ++
      [.head lh]) d = ⟨lh, logged start lh cache d⟩ := by
    rw [applyAll_append, applyAll_blocks]
    rfl
  rw [crashCommit, commitWrites, if_pos hpos]
  by_cases hk : k ≤ lh.length
  · -- the crash came during `write_log`
    left
    rw [List.take_append_of_le_length (by omega), ← List.map_take, applyAll_blocks, hclean]
  · obtain ⟨m, rfl⟩ : ∃ m, k = lh.length + (m + 1) := ⟨k - lh.length - 1, by omega⟩
    rw [List.take_append, List.take_of_length_le (by omega), hL, Nat.add_sub_cancel_left,
      List.take_succ_cons, ← List.singleton_append, ← List.append_assoc]
    by_cases hm : m ≤ lh.length
    · -- the crash came during `install_trans`
      right; left
      refine ⟨m, ?_⟩
      rw [List.take_append_of_le_length (by simp [installWrites, length_installTrans]; omega),
        applyAll_append, hhead, installWrites, ← List.map_take, applyAll_copies]
    · -- the crash came after the last write
      right; right
      rw [List.take_of_length_le (by simp [installWrites, length_installTrans]; omega),
        applyAll_append, applyAll_append, hhead, installWrites, applyAll_copies]
      rfl

/-- `write_log` writes only log blocks. -/
theorem writeLog_ne {b : ℕ} (hout : Outside start size lh) (hb : b < start ∨ start + size ≤ b)
    {p : ℕ × β} (hp : p ∈ writeLog start cache 0 lh) : p.1 ≠ b := by
  have := mem_writeLog hp
  have := hout.1
  omega

/-- After the whole commit, each logged block holds its cached contents. -/
theorem committed_logged (hnodup : lh.Nodup) (hout : Outside start size lh) {b : ℕ}
    (hb : b ∈ lh) : copyW (installTrans start 0 lh) (logged start lh cache d) b = cache b := by
  rw [copyW_eq_applyW (installTrans_disjoint hout), logged, installTrans_reads]
  have hnd : ((lh.map fun b => (b, cache b)).map Prod.fst).Nodup := by
    rwa [List.map_map, show Prod.fst ∘ (fun b => (b, cache b)) = id from rfl, List.map_id]
  exact applyW_mem hnd _ (List.mem_map_of_mem hb)

/-- After the whole commit, every block outside the log that is not logged is as it was. -/
theorem committed_other (hout : Outside start size lh) {b : ℕ} (hb : b ∉ lh)
    (hb' : b < start ∨ start + size ≤ b) :
    copyW (installTrans start 0 lh) (logged start lh cache d) b = d.blk b := by
  rw [copyW_eq_applyW (installTrans_disjoint hout), applyW_other, logged,
    applyW_other _ _ fun p hp => writeLog_ne hout hb' hp]
  intro p hp hpb
  obtain ⟨c, hc, rfl⟩ := List.mem_map.1 hp
  exact hb (hpb ▸ (mem_installTrans hc).1)

/-- The four facts of `log_crash_atomic` for a crashed disk `D`, from what its recovery
writes. -/
theorem atomic_of_recover {D : LogDisk β} {blk : ℕ → β} (hrec : recover start D = ⟨[], blk⟩)
    (hhdr : Outside start size D.hdr)
    (hlh : (∀ b ∈ lh, blk b = d.blk b) ∨ ∀ b ∈ lh, blk b = cache b)
    (hother : ∀ b, b ∉ lh → b < start ∨ start + size ≤ b → blk b = d.blk b) (j : ℕ) :
    (recover start D).hdr = [] ∧
    ((∀ b ∈ lh, (recover start D).blk b = d.blk b) ∨ ∀ b ∈ lh, (recover start D).blk b = cache b) ∧
    (∀ b, b ∉ lh → b < start ∨ start + size ≤ b → (recover start D).blk b = d.blk b) ∧
    recover start (crashRecover start D j) = recover start D := by
  rw [recover_after_crash hhdr, hrec]
  exact ⟨rfl, hlh, hother, rfl⟩

end Commit

/-- **The log makes a transaction atomic across crashes.**  For distinct logged blocks that fit
in the log and lie outside it, on a disk whose header is empty when `commit()` starts: crash
after any prefix of `commit`'s disk writes and recover at the next boot.  Every logged block
then holds its contents from before the transaction, or every one holds its contents after it;
the header is empty; every other block outside the log is as it was.  A recovery that itself
crashes after any prefix of its writes and is run again leaves the same disk. -/
theorem log_crash_atomic {start size : ℕ} {lh : List ℕ} {cache : ℕ → β} {d : LogDisk β}
    (hclean : d.hdr = []) (hnodup : lh.Nodup) (hout : Outside start size lh) (k j : ℕ) :
    (recover start (crashCommit start lh cache d k)).hdr = [] ∧
    ((∀ b ∈ lh, (recover start (crashCommit start lh cache d k)).blk b = d.blk b) ∨
      ∀ b ∈ lh, (recover start (crashCommit start lh cache d k)).blk b = cache b) ∧
    (∀ b, b ∉ lh → b < start ∨ start + size ≤ b →
      (recover start (crashCommit start lh cache d k)).blk b = d.blk b) ∧
    recover start (crashRecover start (crashCommit start lh cache d k) j) =
      recover start (crashCommit start lh cache d k) := by
  have hempty : Outside start size ([] : List ℕ) := ⟨by have := hout.1; simp only [List.length_nil]; omega, by simp⟩
  rcases Nat.eq_zero_or_pos lh.length with hn | hpos
  · -- an empty transaction: `commit` writes nothing
    obtain rfl : lh = [] := List.length_eq_zero_iff.1 hn
    obtain ⟨hdr, blk⟩ := d
    obtain rfl : hdr = [] := hclean
    have hdc : crashCommit start [] cache ⟨[], blk⟩ k = ⟨[], blk⟩ := by
      simp [crashCommit, commitWrites, applyAll]
    rw [hdc]
    have hrec : recover start (⟨[], blk⟩ : LogDisk β) = ⟨[], blk⟩ := recover_clean start rfl
    refine atomic_of_recover hrec hempty ?_ (fun b _ _ => rfl) j
    exact .inl fun b hb => by cases hb
  rcases crash_commit_cases hclean hpos k with h | ⟨m, h⟩ | h
  · -- a crash during `write_log`: the header is empty, so recovery installs nothing
    refine atomic_of_recover (by rw [h, recover_clean start rfl]) (by rw [h]; exact hempty)
      (.inl fun b hb => ?_) (fun b _ hb => ?_) j
    · exact applyW_other _ _ fun p hp => writeLog_ne hout (hout.2 b hb) (List.mem_of_mem_take hp)
    · exact applyW_other _ _ fun p hp => writeLog_ne hout hb (List.mem_of_mem_take hp)
  · -- a crash during `install_trans`: recovery installs every logged block again
    have hrec : recover start (crashCommit start lh cache d k) =
        ⟨[], copyW (installTrans start 0 lh) (logged start lh cache d)⟩ := by
      rw [h, recover_eq, copyW_take_then_all (installTrans_disjoint hout)]
    refine atomic_of_recover hrec (by rw [h]; exact hout)
      (.inr fun b hb => committed_logged hnodup hout hb) (fun b hb hb' => committed_other hout hb hb') j
  · -- a crash after the last write: the transaction is home
    refine atomic_of_recover (by rw [h, recover_clean start rfl]) (by rw [h]; exact hempty)
      (.inr fun b hb => committed_logged hnodup hout hb) (fun b hb hb' => committed_other hout hb hb') j

/-- Two logged blocks and a crash just after the first is installed. -/
theorem log_crash_atomic_midInstall :
    (⟨[], fun _ => 0⟩ : LogDisk ℕ).hdr = [] ∧ [40, 41].Nodup ∧ Outside 2 30 [40, 41] ∧
    ((recover 2 (crashCommit 2 [40, 41] (fun b => b + 100) ⟨[], fun _ => 0⟩ 4)).hdr = [] ∧
    ((∀ b ∈ [40, 41],
        (recover 2 (crashCommit 2 [40, 41] (fun b => b + 100) ⟨[], fun _ => 0⟩ 4)).blk b = 0) ∨
      ∀ b ∈ [40, 41],
        (recover 2 (crashCommit 2 [40, 41] (fun b => b + 100) ⟨[], fun _ => 0⟩ 4)).blk b = b + 100) ∧
    (∀ b, b ∉ [40, 41] → b < 2 ∨ 2 + 30 ≤ b →
      (recover 2 (crashCommit 2 [40, 41] (fun b => b + 100) ⟨[], fun _ => 0⟩ 4)).blk b = 0) ∧
    recover 2 (crashRecover 2 (crashCommit 2 [40, 41] (fun b => b + 100) ⟨[], fun _ => 0⟩ 4) 1) =
      recover 2 (crashCommit 2 [40, 41] (fun b => b + 100) ⟨[], fun _ => 0⟩ 4)) :=
  ⟨rfl, by decide, ⟨by decide, by decide⟩, log_crash_atomic rfl (by decide) ⟨by decide, by decide⟩ 4 1⟩

end Log

end Xv6Kernel
