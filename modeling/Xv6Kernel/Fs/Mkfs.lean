import Xv6Kernel.Fs.Ownership

/-!
# The block map that mkfs writes (`mkfs.c`)

`iappend(inum, xp, n)` appends `n` bytes to inode `inum` of the image, taking new blocks from
`freeblock` on.  It knows the direct blocks and the single indirect block only: for a file block
`fbn ≥ NDIRECT` it reads the block of `addrs[NDIRECT]` into `uint indirect[NINDIRECT]` and uses
`indirect[fbn - NDIRECT]`, for every `fbn` below `MAXFILE`, the bound its `assert` checks.  The
kernel's `bmap` puts file block `NDIRECT + NINDIRECT` and those after it under `addrs[11]` and
`addrs[12]` (`region`).

The index past the end of `indirect` reads and writes mkfs's stack; the model stops there.

* `iappendBlock_ok` : below file block `NDIRECT + NINDIRECT`, the block of a file block is found.
* `iappendLoop_error` : a loop that reaches file block `NDIRECT + NINDIRECT` stops there.
* `iappend_past_single_indirect` : appending more than `(NDIRECT + NINDIRECT) * BSIZE` bytes to
  an empty inode indexes `indirect` out of bounds, at the file block that the kernel looks up
  under `addrs[11]`.

mkfs's `main` (the root directory, the copy of each host file by `read` and `iappend` of at
most `BSIZE` bytes at a time) is not modelled: every file it copies is appended to a new, empty
inode, and appending in pieces reaches the same file blocks.
-/

namespace Xv6Kernel

variable (sb : Superblock)

/-- `if(xint(din.addrs[s]) == 0) din.addrs[s] = xint(freeblock++)`: the dinode and the next
free block. -/
def allocAddr (din : Dinode) (fb : ℕ) (s : Fin 13) : Dinode × ℕ :=
  if (din.addrs s).toNat = 0 then ({ din with addrs := Function.update din.addrs s fb.toUInt32 }, fb + 1)
  else (din, fb)

/-- `if(indirect[j] == 0)`, set it to `xint(freeblock++)` and `wsect` the indirect block `ind`:
the image and the next free block. -/
def allocEntry (d : Disk) (ind j fb : ℕ) : Disk × ℕ :=
  if entry d ind j = 0 then (setEntry d ind j fb, fb + 1) else (d, fb)

/-- The block that `iappend` finds for file block `fbn` of the dinode `din`, taking the missing
ones from `freeblock` (`fb`): the block, the image, the dinode and the next free block. -/
def iappendBlock (d : Disk) (din : Dinode) (fb fbn : ℕ) :
    Except String (ℕ × Disk × Dinode × ℕ) :=
  if h : fbn < NDIRECT then
    let s : Fin 13 := ⟨fbn, lt_slots_of_lt_NDIRECT h⟩
    let r := allocAddr din fb s
    .ok ((r.1.addrs s).toNat, d, r.1, r.2)
  else
    let r := allocAddr din fb 10
    let ind := (r.1.addrs 10).toNat
    -- `indirect[fbn - NDIRECT]` of `uint indirect[NINDIRECT]`
    if NINDIRECT ≤ fbn - NDIRECT then .error "iappend: indirect index out of bounds"
    else
      let e := allocEntry d ind (fbn - NDIRECT) r.2
      .ok (entry e.1 ind (fbn - NDIRECT), e.1, r.1, e.2)

/-- The loop of `iappend`, at file offset `off` with `n` bytes of `src` left from `p`: the image,
the dinode, the next free block and the final offset. -/
def iappendLoop (src : ℕ → UInt8) (d : Disk) (din : Dinode) (fb off p n : ℕ) :
    Except String (Disk × Dinode × ℕ × ℕ) :=
  if hn : n = 0 then .ok (d, din, fb, off)
  else
    let fbn := off / BSIZE
    if fbn < MAXFILE then do
      let (x, d, din, fb) ← iappendBlock d din fb fbn
      let n1 := min n ((fbn + 1) * BSIZE - off)
      -- `rsect(x, buf)`, `bcopy(p, buf + off - fbn * BSIZE, n1)`, `wsect(x, buf)`
      let d := Function.update d x
        (Bytes.copy (d x) (off - fbn * BSIZE) (fun i => src (p + i)) n1)
      have : 0 < min n ((off / BSIZE + 1) * BSIZE - off) := by
        have := Nat.lt_mul_div_succ off (show 0 < BSIZE by decide)
        rw [Nat.mul_comm] at this
        omega
      iappendLoop src d din fb (off + n1) (p + n1) (n - n1)
    else .error "iappend: assert(fbn < MAXFILE)"
termination_by n

/-- `iappend(inum, xp, n)` with `src` the bytes at `xp`, from the image `d` and `freeblock`
`fb`: `rinode`, the loop, then the new size and `winode`. -/
def iappend (d : Disk) (fb inum : ℕ) (src : ℕ → UInt8) (n : ℕ) : Except String (Disk × ℕ) := do
  let din := dinodeAt sb d inum
  let (d, din, fb, off) ← iappendLoop src d din fb din.size.toNat 0 n
  return (setDinodeAt sb d inum { din with size := off.toUInt32 }, fb)

variable {sb}

/-- Below file block `NDIRECT + NINDIRECT`, `iappend` finds the block of a file block. -/
theorem iappendBlock_ok (d : Disk) (din : Dinode) (fb : ℕ) {fbn : ℕ}
    (h : fbn < NDIRECT + NINDIRECT) :
    ∃ x d' din' fb', iappendBlock d din fb fbn = .ok (x, d', din', fb') := by
  unfold iappendBlock
  by_cases hd : fbn < NDIRECT
  · rw [dif_pos hd]
    exact ⟨_, _, _, _, rfl⟩
  · have hi : ¬ NINDIRECT ≤ fbn - NDIRECT := by omega
    simp [hd, hi]

/-- From file block `NDIRECT + NINDIRECT` on, `iappend` indexes past the end of `indirect`. -/
theorem iappendBlock_error {d : Disk} {din : Dinode} {fb fbn : ℕ} (h : NDIRECT + NINDIRECT ≤ fbn) :
    iappendBlock d din fb fbn = .error "iappend: indirect index out of bounds" := by
  have hd : ¬ fbn < NDIRECT := by omega
  have hi : NINDIRECT ≤ fbn - NDIRECT := by omega
  simp [iappendBlock, hd, hi]

/-- **A loop that reaches file block `NDIRECT + NINDIRECT` stops there.**  From an offset at or
before the start of that block, with bytes left past it, every chunk ends at or before the start
of the block, until the loop asks for it. -/
theorem iappendLoop_error (src : ℕ → UInt8) :
    ∀ n (d : Disk) (din : Dinode) (fb off p : ℕ), off ≤ (NDIRECT + NINDIRECT) * BSIZE →
      (NDIRECT + NINDIRECT) * BSIZE < off + n →
      iappendLoop src d din fb off p n = .error "iappend: indirect index out of bounds" := by
  intro n
  induction n using Nat.strong_induction_on with
  | _ n ih =>
    intro d din fb off p hoff hn
    have hn0 : n ≠ 0 := by omega
    have hmax : off / BSIZE < MAXFILE := by
      simp only [MAXFILE_eq, NDIRECT, NINDIRECT, BSIZE_eq] at hoff ⊢
      omega
    unfold iappendLoop
    rw [dif_neg hn0, if_pos hmax]
    by_cases hlast : off = (NDIRECT + NINDIRECT) * BSIZE
    · -- the loop asks for file block `NDIRECT + NINDIRECT`
      have hfbn : NDIRECT + NINDIRECT ≤ off / BSIZE := by
        rw [hlast, Nat.mul_div_cancel _ (by decide)]
      simp [iappendBlock_error hfbn]
    · -- a chunk of a block before it: the loop goes on from the end of the chunk
      have hfbn : off / BSIZE < NDIRECT + NINDIRECT := by
        simp only [NDIRECT, NINDIRECT, BSIZE_eq] at hoff hlast ⊢
        omega
      obtain ⟨x, d', din', fb', hb⟩ := iappendBlock_ok d din fb hfbn
      have hend : (off / BSIZE + 1) * BSIZE ≤ (NDIRECT + NINDIRECT) * BSIZE :=
        Nat.mul_le_mul_right _ hfbn
      have hle : off < (off / BSIZE + 1) * BSIZE := by
        have := Nat.lt_mul_div_succ off (show 0 < BSIZE by decide)
        rw [Nat.mul_comm] at this
        exact this
      simp only [hb, except_ok_bind]
      apply ih
      · omega
      · omega
      · omega

/-- **mkfs cannot write a file past the single indirect block.**  Appending more than
`(NDIRECT + NINDIRECT) * BSIZE` bytes to an empty inode indexes `indirect` past its end at file
block `NDIRECT + NINDIRECT`, which the kernel's `bmap` looks up under `addrs[11]`. -/
theorem iappend_past_single_indirect {d : Disk} {fb inum n : ℕ} {src : ℕ → UInt8}
    (hsize : (dinodeAt sb d inum).size = 0) (hn : (NDIRECT + NINDIRECT) * BSIZE < n) :
    iappend sb d fb inum src n = .error "iappend: indirect index out of bounds" ∧
      region (NDIRECT + NINDIRECT) = some (11, 0) := by
  refine ⟨?_, by decide⟩
  have hloop := iappendLoop_error src n d (dinodeAt sb d inum) fb (dinodeAt sb d inum).size.toNat 0
    (by simp [hsize]) (by simp [hsize, hn])
  simp [iappend, hloop]

/-- Inode 1 of the image mkfs lays out, appended a file one byte longer than the direct and single
indirect blocks hold. -/
theorem iappend_past_single_indirect_emptyImage :
    (dinodeAt mkfsSuperblock (emptyImage mkfsSuperblock) 1).size = 0 ∧
      (NDIRECT + NINDIRECT) * BSIZE < (NDIRECT + NINDIRECT) * BSIZE + 1 ∧
      iappend mkfsSuperblock (emptyImage mkfsSuperblock) mkfsSuperblock.nmeta 1 (fun _ => 0)
          ((NDIRECT + NINDIRECT) * BSIZE + 1) = .error "iappend: indirect index out of bounds" ∧
      region (NDIRECT + NINDIRECT) = some (11, 0) := by
  have hsize : (dinodeAt mkfsSuperblock (emptyImage mkfsSuperblock) 1).size = 0 := by decide
  have hn : (NDIRECT + NINDIRECT) * BSIZE < (NDIRECT + NINDIRECT) * BSIZE + 1 := by omega
  exact ⟨hsize, hn, iappend_past_single_indirect hsize hn⟩

end Xv6Kernel
