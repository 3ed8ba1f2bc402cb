import Xv6Kernel.Lib.Except
import Xv6Kernel.Lib.Machine
import Xv6Kernel.Fs.Alloc

/-!
# Inodes and their content (`fs.c`)

An in-memory inode `Inode` is the copy of a dinode that `ilock` reads; the cache is
write-through, and `iupdate` writes the copy back.  The block map of an inode is its 13
addresses: 10 direct blocks, then the roots of trees of depth 1, 2 and 3 (single, double and
triple indirect).  The source spells out each depth; the model writes the code once for a tree
of depth `k`, which does the same reads, allocations and frees in the same order:

* `bmapWalk`, `bmapSlot`, `bmap` : the block of file block `bn`, allocating the missing
  blocks on the way (`bmap`'s four regions are its four branches);
* `freeTree`, `freeSlot`, `itrunc` : the three nested loops of `itrunc`;
* `writeLoop`/`writei`, `readLoop`/`readi` : the byte loops, `m = min(n - tot, BSIZE -
  off % BSIZE)` bytes at a time.

`FsEvent` and `fsStep` make the file system a machine: `ialloc`, a `writei` to an inode,
an `iupdate` of the fields that the callers of `iupdate` change (`major`, `minor`, `nlink`),
and the `iput` of the last reference to an inode.  Device inodes (`T_DEV`) go to a device
driver, which is not modelled.
-/

namespace Xv6Kernel

open Bytes

/-- `struct inode`: an inode's number and its copy of the dinode.  The device is the one disk,
and the reference count, lock and `valid` flag are those of an inode held by the caller. -/
structure Inode where
  inum : ℕ
  type : UInt16
  major : UInt16
  minor : UInt16
  nlink : UInt16
  size : UInt32
  addrs : Fin 13 → UInt32

/-- The dinode fields of an in-memory inode. -/
def Inode.toDinode (ip : Inode) : Dinode := ⟨ip.type, ip.major, ip.minor, ip.nlink, ip.size, ip.addrs⟩

/-- The in-memory copy of the dinode `x` of inode `inum`. -/
def Inode.ofDinode (inum : ℕ) (x : Dinode) : Inode :=
  ⟨inum, x.type, x.major, x.minor, x.nlink, x.size, x.addrs⟩

@[simp] theorem Inode.ofDinode_toDinode (ip : Inode) : Inode.ofDinode ip.inum ip.toDinode = ip := rfl

variable (sb : Superblock)

/-- The dinode of inode `inum` on the disk. -/
def dinodeAt (d : Disk) (inum : ℕ) : Dinode :=
  getDinode (d (IBLOCK inum sb)) (inum % IPB * DINODESZ)

/-- The disk with the dinode of inode `inum` replaced. -/
def setDinodeAt (d : Disk) (inum : ℕ) (x : Dinode) : Disk :=
  Function.update d (IBLOCK inum sb) (setDinode (d (IBLOCK inum sb)) (inum % IPB * DINODESZ) x)

/-- `iupdate(ip)`. -/
def iupdate (d : Disk) (ip : Inode) : Disk := setDinodeAt sb d ip.inum ip.toDinode

/-- `ilock(ip)` of an inode whose copy is not yet valid: read the dinode; a free one is
`panic("ilock: no type")`. -/
def ilock (d : Disk) (inum : ℕ) : Except String Inode :=
  if (dinodeAt sb d inum).type = 0 then .error "ilock: no type"
  else .ok (Inode.ofDinode inum (dinodeAt sb d inum))

/-- `ialloc(dev, type)`: the first free dinode from inode 1, zeroed and given the type. -/
def ialloc (d : Disk) (type : UInt16) : Except String (ℕ × Disk) :=
  match (List.range' 1 (sb.ninodes - 1)).find? (fun inum => (dinodeAt sb d inum).type = 0) with
  | none => .error "ialloc: no inodes"
  | some inum => .ok (inum, setDinodeAt sb d inum { Dinode.zero with type := type })

/-! ### `bmap` -/

/-- The walk of `bmap` down the tree of depth `k` under block `p`, to index `idx` below it:
entry `idx / NINDIRECT ^ (k - 1)` of `p`, allocated if zero (`a[j] = addr = balloc(dev);
log_write(bp)`), then the rest of the index below that entry. -/
def bmapWalk : Disk → ℕ → ℕ → ℕ → Except String (ℕ × Disk)
  | d, 0, p, _ => .ok (p, d)
  | d, k + 1, p, idx => do
    let j := idx / NINDIRECT ^ k
    let (a, d) ← if entry d p j = 0 then do
        let (a, d) ← balloc sb d
        pure (a, setEntry d p j a)
      else pure (entry d p j, d)
    bmapWalk d k a (idx % NINDIRECT ^ k)

/-- One region of `bmap`: slot `s` of `addrs`, allocated if zero, heads a tree of depth `k`;
`idx` is the index in the region. -/
def bmapSlot (d : Disk) (ip : Inode) (s : Fin 13) (k idx : ℕ) :
    Except String (ℕ × Disk × Inode) := do
  let (a, d, ip) ← if ip.addrs s = 0 then do
      let (a, d) ← balloc sb d
      pure (a, d, { ip with addrs := Function.update ip.addrs s a.toUInt32 })
    else pure ((ip.addrs s).toNat, d, ip)
  let (a, d) ← bmapWalk sb d k a idx
  pure (a, d, ip)

/-- `bmap(ip, bn)`: the disk block of block `bn` of the file, allocated if absent. -/
def bmap (d : Disk) (ip : Inode) (bn : ℕ) : Except String (ℕ × Disk × Inode) :=
  if h : bn < NDIRECT then bmapSlot sb d ip ⟨bn, by simp only [NDIRECT] at h; omega⟩ 0 0
  else
    let bn := bn - NDIRECT
    if bn < NINDIRECT then bmapSlot sb d ip 10 1 bn
    else
      let bn := bn - NINDIRECT
      if bn < NDINDIRECT then bmapSlot sb d ip 11 2 bn
      else
        let bn := bn - NDINDIRECT
        if bn < NTINDIRECT then bmapSlot sb d ip 12 3 bn
        else .error "bmap: out of range"

/-! ### `itrunc` and `iput` -/

/-- The frees of `itrunc` in the tree of depth `k` under block `p`: the subtree of every
nonzero entry, then `p`.  The entries are read as the loop reaches them. -/
def freeTree : Disk → ℕ → ℕ → Except String Disk
  | d, 0, p => bfree sb d p
  | d, k + 1, p => do
    let d ← (List.range NINDIRECT).foldlM (fun d j =>
      if entry d p j = 0 then pure d else freeTree d k (entry d p j)) d
    bfree sb d p

/-- The depth of the tree under slot `s`: data blocks for the direct slots, then the single,
double and triple indirect blocks. -/
def slotDepth (s : Fin 13) : ℕ := if s.val < NDIRECT then 0 else s.val - 9

/-- `itrunc`'s code for slot `s`: free its tree and clear the slot. -/
def freeSlot (d : Disk) (ip : Inode) (s : Fin 13) : Except String (Disk × Inode) :=
  if ip.addrs s = 0 then .ok (d, ip)
  else do
    let d ← freeTree sb d (slotDepth s) (ip.addrs s).toNat
    pure (d, { ip with addrs := Function.update ip.addrs s 0 })

/-- `itrunc(ip)`. -/
def itrunc (d : Disk) (ip : Inode) : Except String (Disk × Inode) := do
  let (d, ip) ← (List.finRange 13).foldlM (fun (di : Disk × Inode) s => freeSlot sb di.1 di.2 s)
    (d, ip)
  let ip := { ip with size := 0 }
  pure (iupdate sb d ip, ip)

/-- `iput(ip)` of the last reference to a valid inode: without links it is truncated and
freed (`type = 0`). -/
def iput (d : Disk) (ip : Inode) : Except String (Disk × Inode) :=
  if ip.nlink = 0 then do
    let (d, ip) ← itrunc sb d ip
    let ip := { ip with type := 0 }
    pure (iupdate sb d ip, ip)
  else .ok (d, ip)

/-! ### `readi` and `writei` -/

theorem chunk_pos {n tot : ℕ} (off : ℕ) (h : tot < n) : 0 < min (n - tot) (BSIZE - off % BSIZE) := by
  have := Nat.mod_lt off (show 0 < BSIZE by decide)
  omega

/-- The loop of `writei` after `tot` of the `n` bytes of `src`, at file offset `off`: the
final disk, inode and offset. -/
def writeLoop (src : ℕ → UInt8) (n : ℕ) (d : Disk) (ip : Inode) (tot off : ℕ) :
    Except String (Disk × Inode × ℕ) :=
  if h : tot < n then do
    let (b, d, ip) ← bmap sb d ip (off / BSIZE)
    let m := min (n - tot) (BSIZE - off % BSIZE)
    let d := Function.update d b (copy (d b) (off % BSIZE) (fun x => src (tot + x)) m)
    have := chunk_pos off h
    writeLoop src n d ip (tot + m) (off + m)
  else .ok (d, ip, off)
termination_by n - tot

/-- `writei(ip, src, off, n)` of a file or directory: the count written, or `-1`. -/
def writei (d : Disk) (ip : Inode) (src : ℕ → UInt8) (off n : UInt32) :
    Except String (ℤ × Disk × Inode) := do
  if ip.type = T_DEV then throw "writei: device i/o is not modelled"
  if off > ip.size ∨ off + n < off then return (-1, d, ip)
  if off.toNat + n.toNat > MAXFILE * BSIZE then return (-1, d, ip)
  let (d, ip, off) ← writeLoop sb src n.toNat d ip 0 off.toNat
  if 0 < n ∧ ip.size.toNat < off then
    let ip := { ip with size := off.toUInt32 }
    return (n.toNat, iupdate sb d ip, ip)
  return (n.toNat, d, ip)

/-- The loop of `readi` after `tot` of `n` bytes, at file offset `off`, into `dst`. -/
def readLoop (n : ℕ) (d : Disk) (ip : Inode) (dst : ℕ → UInt8) (tot off : ℕ) :
    Except String (Disk × Inode × (ℕ → UInt8)) :=
  if h : tot < n then do
    let (b, d, ip) ← bmap sb d ip (off / BSIZE)
    let m := min (n - tot) (BSIZE - off % BSIZE)
    let dst := copy dst tot (fun x => d b (off % BSIZE + x)) m
    have := chunk_pos off h
    readLoop n d ip dst (tot + m) (off + m)
  else .ok (d, ip, dst)
termination_by n - tot

/-- `readi(ip, dst, off, n)` of a file or directory: the count read, or `-1`, and the bytes
of `dst`.  Its `bmap` calls allocate nothing when the file has no holes, but the model keeps
what they return. -/
def readi (d : Disk) (ip : Inode) (dst : ℕ → UInt8) (off n : UInt32) :
    Except String (ℤ × (ℕ → UInt8) × Disk × Inode) := do
  if ip.type = T_DEV then throw "readi: device i/o is not modelled"
  if off > ip.size ∨ off + n < off then return (-1, dst, d, ip)
  let n := if off + n > ip.size then ip.size - off else n
  let (d, ip, dst) ← readLoop sb n.toNat d ip dst 0 off.toNat
  return (n.toNat, dst, d, ip)

/-! ### The file system as a machine -/

/-- An operation of the file system on the disk. -/
inductive FsEvent
  /-- `ialloc(dev, type)`. -/
  | ialloc (type : UInt16)
  /-- `writei` of `n` bytes of `src` at `off` to inode `inum`, locked. -/
  | writei (inum : ℕ) (src : ℕ → UInt8) (off n : UInt32)
  /-- A caller's change of `major`, `minor` and `nlink` of inode `inum`, then `iupdate`. -/
  | iupdate (inum : ℕ) (major minor nlink : UInt16)
  /-- `iput` of the last reference to inode `inum`. -/
  | iput (inum : ℕ)

/-- One operation.  An inode number is below `sb.ninodes` (the others are never named); each
operation on an inode starts from the copy `ilock` reads. -/
def fsStep (d : Disk) : FsEvent → Except String Disk
  | .ialloc type => Prod.snd <$> ialloc sb d type
  | .writei inum src off n =>
    if inum < sb.ninodes then do
      let ip ← ilock sb d inum
      let (_, d, _) ← writei sb d ip src off n
      pure d
    else .ok d
  | .iupdate inum major minor nlink =>
    if inum < sb.ninodes then do
      let ip ← ilock sb d inum
      pure (iupdate sb d { ip with major := major, minor := minor, nlink := nlink })
    else .ok d
  | .iput inum =>
    if inum < sb.ninodes then do
      let ip ← ilock sb d inum
      let (d, _) ← iput sb d ip
      pure d
    else .ok d

/-! ### The dinodes on the disk -/

variable {sb}

@[simp] theorem dinodeAt_setDinodeAt_self (d : Disk) (inum : ℕ) (x : Dinode) :
    dinodeAt sb (setDinodeAt sb d inum x) inum = x := by
  simp [dinodeAt, setDinodeAt]

/-- Writing one dinode leaves the others, in its block or in another. -/
theorem dinodeAt_setDinodeAt_of_ne {d : Disk} {inum j : ℕ} (x : Dinode) (h : j ≠ inum) :
    dinodeAt sb (setDinodeAt sb d inum x) j = dinodeAt sb d j := by
  unfold dinodeAt setDinodeAt
  by_cases hb : IBLOCK j sb = IBLOCK inum sb
  · rw [hb, Function.update_self]
    apply getDinode_congr
    intro y h₁ h₂
    -- two dinodes of one block lie in disjoint byte ranges
    have hmod : j % IPB ≠ inum % IPB := fun hm => h (by
      simp only [IBLOCK, Nat.add_right_cancel_iff] at hb
      rw [← Nat.div_add_mod j IPB, ← Nat.div_add_mod inum IPB, hb, hm])
    rw [← hb]
    apply setDinode_of_not_mem
    simp only [IPB, BSIZE, DINODESZ] at hmod h₁ h₂ ⊢
    omega
  · rw [Function.update_of_ne hb]

theorem setDinodeAt_of_ne {d : Disk} {inum q : ℕ} (x : Dinode) (h : q ≠ IBLOCK inum sb) :
    setDinodeAt sb d inum x q = d q :=
  Function.update_of_ne h _ _

theorem dinodeAt_congr {d d' : Disk} {inum : ℕ} (h : d' (IBLOCK inum sb) = d (IBLOCK inum sb)) :
    dinodeAt sb d' inum = dinodeAt sb d inum := by
  simp only [dinodeAt, h]

end Xv6Kernel
