import Xv6Kernel.Lib.Bytes

/-!
# The on-disk format (`fs.h`)

The disk is an array of blocks of `BSIZE` bytes.  mkfs lays it out as

  `[ boot block | super block | log | inode blocks | free bit map | data blocks ]`

and the superblock records where each part starts.  The kernel reads three kinds of record out
of the blocks, all little-endian:

* a `struct dinode` of 64 bytes, `IPB` to an inode block (`getDinode`, `setDinode`);
* a block number of 4 bytes, `NINDIRECT` to an indirect block;
* one bit per block in the bitmap blocks, `BPB` to a block.

`getDinode_setDinode` is the round trip of the dinode format, and `setDinode_of_not_mem` says
that writing a dinode changes only its own 64 bytes.  `Superblock.Valid` is the layout mkfs
builds: inode blocks, then bitmap blocks, then data blocks.
-/

namespace Xv6Kernel

open Bytes

/-! ### Constants -/

/-- `BSIZE`: the block size. -/
def BSIZE : ℕ := 512

/-- `NDIRECT`: the direct block addresses of an inode. -/
def NDIRECT : ℕ := 10

/-- `NINDIRECT = BSIZE / sizeof(uint)`: the block addresses in an indirect block. -/
def NINDIRECT : ℕ := BSIZE / 4

/-- `NDINDIRECT`: the blocks below the double-indirect block. -/
def NDINDIRECT : ℕ := NINDIRECT * NINDIRECT

/-- `NTINDIRECT`: the blocks below the triple-indirect block. -/
def NTINDIRECT : ℕ := NINDIRECT * NINDIRECT * NINDIRECT

/-- `MAXFILE`: the largest file, in blocks. -/
def MAXFILE : ℕ := NDIRECT + NINDIRECT + NDINDIRECT + NTINDIRECT

/-- `sizeof(struct dinode)`. -/
def DINODESZ : ℕ := 64

/-- `IPB`: dinodes per block. -/
def IPB : ℕ := BSIZE / DINODESZ

/-- `BPB`: bitmap bits per block. -/
def BPB : ℕ := BSIZE * 8

theorem BSIZE_eq : BSIZE = 512 := rfl
theorem NDIRECT_eq : NDIRECT = 10 := rfl
theorem NINDIRECT_eq : NINDIRECT = 128 := rfl
theorem NDINDIRECT_eq : NDINDIRECT = 16384 := rfl
theorem NTINDIRECT_eq : NTINDIRECT = 2097152 := rfl
theorem MAXFILE_eq : MAXFILE = 2113674 := rfl

/-- `T_FILE`: the type of a file inode. -/
def T_FILE : UInt16 := 2

/-- `T_DEV`: the type of a device inode. -/
def T_DEV : UInt16 := 3

/-! ### The superblock -/

/-- `struct superblock`, without the log's fields, which no modelled function reads. -/
structure Superblock where
  /-- Size of the file system image, in blocks. -/
  size : ℕ
  /-- Number of data blocks. -/
  nblocks : ℕ
  /-- Number of inodes. -/
  ninodes : ℕ
  /-- First inode block. -/
  inodestart : ℕ
  /-- First bitmap block. -/
  bmapstart : ℕ

/-- `IBLOCK(i, sb)`: the block holding inode `i`. -/
def IBLOCK (i : ℕ) (sb : Superblock) : ℕ := i / IPB + sb.inodestart

/-- `BBLOCK(b, sb)`: the bitmap block holding the bit of block `b`. -/
def BBLOCK (b : ℕ) (sb : Superblock) : ℕ := b / BPB + sb.bmapstart

namespace Superblock

/-- The metadata blocks `[0, nmeta)`: boot, super, log, inode and bitmap blocks. -/
def nmeta (sb : Superblock) : ℕ := sb.size - sb.nblocks

/-- The layout mkfs writes: the inodes' blocks lie below the bitmap, the bitmap's below the
data blocks, and block numbers fit in a `uint`. -/
structure Valid (sb : Superblock) : Prop where
  inodes_below_bitmap : sb.inodestart + sb.ninodes / IPB < sb.bmapstart
  bitmap_below_data : sb.bmapstart + sb.size / BPB < sb.nmeta
  size_le : sb.size ≤ 2 ^ 32

variable {sb : Superblock}

theorem Valid.iblock_lt_bmapstart (h : sb.Valid) {i : ℕ} (hi : i < sb.ninodes) :
    IBLOCK i sb < sb.bmapstart := by
  have := Nat.div_le_div_right (c := IPB) hi.le
  have := h.inodes_below_bitmap
  simp only [IBLOCK]
  omega

theorem Valid.bblock_lt_nmeta (h : sb.Valid) {b : ℕ} (hb : b < sb.size) : BBLOCK b sb < sb.nmeta := by
  have := Nat.div_le_div_right (c := BPB) hb.le
  have := h.bitmap_below_data
  simp only [BBLOCK]
  omega

theorem bmapstart_le_bblock (b : ℕ) : sb.bmapstart ≤ BBLOCK b sb := by
  simp [BBLOCK]

end Superblock

/-! ### Dinodes -/

/-- `struct dinode`.  The `short` fields are kept as their bit patterns, which is all the
kernel compares them by (`type == 0`, `type == T_DEV`, `nlink == 0`). -/
structure Dinode where
  type : UInt16
  major : UInt16
  minor : UInt16
  nlink : UInt16
  size : UInt32
  /-- `addrs[NDIRECT + 3]`. -/
  addrs : Fin 13 → UInt32

/-- A zeroed dinode (`memset(dip, 0, sizeof(*dip))`). -/
def Dinode.zero : Dinode := ⟨0, 0, 0, 0, 0, fun _ => 0⟩

/-- The dinode at byte `o` of a block. -/
def getDinode (m : ℕ → UInt8) (o : ℕ) : Dinode where
  type := (getLE m o 2).toUInt16
  major := (getLE m (o + 2) 2).toUInt16
  minor := (getLE m (o + 4) 2).toUInt16
  nlink := (getLE m (o + 6) 2).toUInt16
  size := (getLE m (o + 8) 4).toUInt32
  addrs i := (getLE m (o + 12 + 4 * i) 4).toUInt32

/-- The block with the dinode `x` written at byte `o`. -/
def setDinode (m : ℕ → UInt8) (o : ℕ) (x : Dinode) : ℕ → UInt8 :=
  let m := setLE m o 2 x.type.toNat
  let m := setLE m (o + 2) 2 x.major.toNat
  let m := setLE m (o + 4) 2 x.minor.toNat
  let m := setLE m (o + 6) 2 x.nlink.toNat
  let m := setLE m (o + 8) 4 x.size.toNat
  setWords m (o + 12) (fun i => if h : i < 13 then (x.addrs ⟨i, h⟩).toNat else 0) 13

theorem setDinode_of_not_mem {m : ℕ → UInt8} {o y : ℕ} {x : Dinode}
    (h : y < o ∨ o + DINODESZ ≤ y) : setDinode m o x y = m y := by
  simp only [DINODESZ] at h
  simp only [setDinode]
  rw [setWords_of_not_mem (by omega)]
  rcases h with h | h
  · rw [setLE_of_lt (by omega), setLE_of_lt (by omega), setLE_of_lt (by omega),
      setLE_of_lt (by omega), setLE_of_lt h]
  · rw [setLE_of_le (by omega), setLE_of_le (by omega), setLE_of_le (by omega),
      setLE_of_le (by omega), setLE_of_le (by omega)]

/-- A dinode depends only on its own 64 bytes. -/
theorem getDinode_congr {m m' : ℕ → UInt8} {o : ℕ}
    (h : ∀ y, o ≤ y → y < o + DINODESZ → m y = m' y) : getDinode m o = getDinode m' o := by
  simp only [DINODESZ] at h
  have hr : ∀ off len, o ≤ off → off + len ≤ o + 64 → getLE m off len = getLE m' off len :=
    fun off len h₁ h₂ => getLE_congr fun y hy₁ hy₂ => h y (by omega) (by omega)
  simp only [getDinode]
  rw [hr o 2 (by omega) (by omega), hr (o + 2) 2 (by omega) (by omega),
    hr (o + 4) 2 (by omega) (by omega), hr (o + 6) 2 (by omega) (by omega),
    hr (o + 8) 4 (by omega) (by omega)]
  congr 1
  funext i
  rw [hr (o + 12 + 4 * i) 4 (by omega) (by omega)]

theorem toUInt16_toNat_mod (x : UInt16) : (x.toNat % 2 ^ 16).toUInt16 = x := by
  rw [Nat.mod_eq_of_lt x.toNat_lt]
  exact UInt16.ofNat_toNat

theorem toUInt32_toNat_mod (x : UInt32) : (x.toNat % 2 ^ 32).toUInt32 = x := by
  rw [Nat.mod_eq_of_lt x.toNat_lt]
  exact UInt32.ofNat_toNat

/-- **The dinode format round trip.** -/
@[simp] theorem getDinode_setDinode (m : ℕ → UInt8) (o : ℕ) (x : Dinode) :
    getDinode (setDinode m o x) o = x := by
  obtain ⟨ty, ma, mi, nl, sz, ad⟩ := x
  simp only [getDinode, setDinode]
  -- each field lies in its own bytes, so every other write is disjoint from it
  rw [getLE_setWords_of_disjoint (by omega), getLE_setLE_of_disjoint (by omega),
    getLE_setLE_of_disjoint (by omega), getLE_setLE_of_disjoint (by omega),
    getLE_setLE_of_disjoint (by omega), getLE_setLE]
  rw [getLE_setWords_of_disjoint (by omega), getLE_setLE_of_disjoint (by omega),
    getLE_setLE_of_disjoint (by omega), getLE_setLE_of_disjoint (by omega), getLE_setLE]
  rw [getLE_setWords_of_disjoint (by omega), getLE_setLE_of_disjoint (by omega),
    getLE_setLE_of_disjoint (by omega), getLE_setLE]
  rw [getLE_setWords_of_disjoint (by omega), getLE_setLE_of_disjoint (by omega), getLE_setLE]
  rw [getLE_setWords_of_disjoint (by omega), getLE_setLE]
  have haddrs : (fun i : Fin 13 => (getLE (setWords (setLE (setLE (setLE (setLE (setLE m o 2
      ty.toNat) (o + 2) 2 ma.toNat) (o + 4) 2 mi.toNat) (o + 6) 2 nl.toNat) (o + 8) 4 sz.toNat)
      (o + 12) (fun i => if h : i < 13 then (ad ⟨i, h⟩).toNat else 0) 13)
      (o + 12 + 4 * i) 4).toUInt32) = ad := by
    funext i
    rw [getLE_setWords i.isLt, dif_pos i.isLt, toUInt32_toNat_mod]
  rw [haddrs]
  simp only [show (256 : ℕ) ^ 2 = 2 ^ 16 from rfl, show (256 : ℕ) ^ 4 = 2 ^ 32 from rfl,
    toUInt16_toNat_mod, toUInt32_toNat_mod]

end Xv6Kernel
