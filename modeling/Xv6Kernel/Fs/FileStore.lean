import Mathlib.Data.List.Find
import Xv6Kernel.Fs.Inode

/-!
# The file store the inodes implement

What the inode layer is for, in its own terms: a store that maps inode numbers to files, a
file being its type, its device numbers, its link count and its bytes.  Blocks, bitmaps and
block maps do not appear.  `fileStep` is what each operation of `FsEvent` does to the store:

* `ialloc(type)` makes an empty file at the first free inode number from 1;
* `writei` of `n` bytes at `off` replaces the bytes `[off, off + n)`, extending the file when
  the write ends past it (`splice`); a write that starts past the end, or that would end past
  the largest file, changes nothing (and `writei` returns `-1`);
* an `iupdate` sets the device numbers and the link count;
* the last `iput` of a file without links removes it.

The errors are those of an operation on a free inode (`ilock: no type`), of a full inode table
and of device files, whose i/o goes to a driver.  Nothing here can run out of blocks: that is
the one error of the disk that the store does not have.
-/

namespace Xv6Kernel

/-! ### Splicing bytes into a file -/

section Splice

variable {α : Type*}

/-- `bytes` written over `data` from `off`: the data before `off`, then `bytes`, then what is
left of the data after them. -/
def splice (data : List α) (off : ℕ) (bytes : List α) : List α :=
  data.take off ++ bytes ++ data.drop (off + bytes.length)

variable {data bytes : List α} {off : ℕ}

theorem length_splice (h : off ≤ data.length) :
    (splice data off bytes).length = max data.length (off + bytes.length) := by
  simp only [splice, List.length_append, List.length_take, List.length_drop]
  omega

/-- **A splice, element by element**: the elements of `bytes` in their range and those of
`data` elsewhere. -/
theorem getElem?_splice (h : off ≤ data.length) (k : ℕ) :
    (splice data off bytes)[k]? =
      if off ≤ k ∧ k < off + bytes.length then bytes[k - off]? else data[k]? := by
  have htake : (data.take off).length = off := by simp only [List.length_take]; omega
  unfold splice
  by_cases hk : k < off
  · -- in the part before `off`
    rw [List.getElem?_append_left (by simp only [List.length_append]; omega),
      List.getElem?_append_left (by omega), List.getElem?_take, if_pos hk, if_neg (by omega)]
  by_cases hk' : k < off + bytes.length
  · -- in the range of `bytes`
    rw [List.getElem?_append_left (by simp only [List.length_append]; omega),
      List.getElem?_append_right (by omega), htake, if_pos ⟨by omega, hk'⟩]
  · -- after it, in the rest of the data
    rw [List.getElem?_append_right (by simp only [List.length_append]; omega), List.getElem?_drop,
      if_neg (by omega)]
    congr 1
    simp only [List.length_append]
    omega

example : splice [1, 2, 3] 1 [7, 8, 9] = [1, 7, 8, 9] := rfl

end Splice

/-! ### Files and the store -/

/-- A file as `stat` and `readi` show it: its type, device numbers, link count and bytes. -/
structure File where
  type : UInt16
  major : UInt16
  minor : UInt16
  nlink : UInt16
  data : List UInt8
  deriving DecidableEq

/-- The file `ialloc` makes: the type, no links and no bytes. -/
def File.new (type : UInt16) : File := ⟨type, 0, 0, 0, []⟩

/-- The store: the file of each inode number that is allocated. -/
abbrev Files := ℕ → Option File

/-- What a write of `n` bytes of `src` at `off` does to the file `f` at `inum`: a device is not
written, a write from past the end or to past the largest file is rejected, and any other
write splices the bytes in. -/
def writeFile (fs : Files) (inum : ℕ) (f : File) (src : ℕ → UInt8) (off n : UInt32) :
    Except String Files :=
  if f.type = T_DEV then .error "writei: device i/o is not modelled"
  else if f.data.length < off.toNat ∨ MAXFILE * BSIZE < off.toNat + n.toNat then .ok fs
  else .ok (Function.update fs inum
    (some { f with data := splice f.data off.toNat ((List.range n.toNat).map src) }))

variable (ninodes : ℕ)

/-- **What each operation does to the store** with `ninodes` inode numbers.  An operation on
an inode number from `ninodes` on does nothing, as `fsStep` says; a new file of type `0` is
not a file. -/
def fileStep (fs : Files) : FsEvent → Except String Files
  | .ialloc type =>
    match (List.range' 1 (ninodes - 1)).find? (fun inum => (fs inum).isNone) with
    | none => .error "ialloc: no inodes"
    | some inum => .ok (if type = 0 then fs else Function.update fs inum (some (File.new type)))
  | .writei inum src off n =>
    if inum < ninodes then
      match fs inum with
      | none => .error "ilock: no type"
      | some f => writeFile fs inum f src off n
    else .ok fs
  | .iupdate inum major minor nlink =>
    if inum < ninodes then
      match fs inum with
      | none => .error "ilock: no type"
      | some f => .ok (Function.update fs inum
          (some { f with major := major, minor := minor, nlink := nlink }))
    else .ok fs
  | .iput inum =>
    if inum < ninodes then
      match fs inum with
      | none => .error "ilock: no type"
      | some f => .ok (if f.nlink = 0 then Function.update fs inum none else fs)
    else .ok fs

/-- The errors of the store: a full inode table, an operation on a free inode, a device. -/
def FileError (e : String) : Prop :=
  e = "ialloc: no inodes" ∨ e = "ilock: no type" ∨ e = "writei: device i/o is not modelled"

variable {ninodes}

/-- Every error of the store is one of `FileError`. -/
theorem fileStep_error {fs : Files} {ev : FsEvent} {e : String}
    (h : fileStep ninodes fs ev = .error e) : FileError e := by
  cases ev with
  | ialloc type =>
    simp only [fileStep] at h
    split at h
    · cases h
      exact .inl rfl
    · cases h
  | writei inum src off n =>
    simp only [fileStep] at h
    split_ifs at h with hlt
    split at h
    · cases h
      exact .inr (.inl rfl)
    · simp only [writeFile] at h
      split_ifs at h
      cases h
      exact .inr (.inr rfl)
  | iupdate inum major minor nlink =>
    simp only [fileStep] at h
    split_ifs at h with hlt
    split at h
    · cases h
      exact .inr (.inl rfl)
    · cases h
  | iput inum =>
    simp only [fileStep] at h
    split_ifs at h with hlt
    split at h
    · cases h
      exact .inr (.inl rfl)
    · cases h

/-- The bytes of a write, as the store sees them. -/
theorem getElem?_write_bytes (src : ℕ → UInt8) (n i : ℕ) :
    ((List.range n).map src)[i]? = if i < n then some (src i) else none := by
  split_ifs with h
  · rw [List.getElem?_map, List.getElem?_range h, Option.map_some]
  · rw [List.getElem?_eq_none (by simp only [List.length_map, List.length_range]; omega)]

end Xv6Kernel
