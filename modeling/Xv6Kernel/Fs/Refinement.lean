import Xv6Kernel.Fs.Content
import Xv6Kernel.Fs.FileStore
import Xv6Kernel.Lib.Refinement

/-!
# The disk implements the file store

`files sb d` reads the store of `FileStore` off a disk: the file of each allocated inode below
`ninodes`, with its bytes read through its block map up to its size (`fileData`, whose bytes
are the `content` of the file).  `fsStep_refines` : from every disk with the invariant `Inv`,
each operation of `fsStep` does to the store what `fileStep` says, or stops with the error at
which `fileStep` stops, or finds the disk full (`balloc: out of blocks`), the one error the
store does not have.  There is one lemma per operation:

* `ialloc_tracks` : the first free dinode is the first free inode number of the store;
* `writei_tracks` : a device, a rejected write, or the bytes of the file spliced, from
  `wroteContent_within` and `wroteContent_past_end`;
* `iupdate_tracks` : the dinode written back has the new fields over the same bytes;
* `iput_tracks` : the `iput` of an inode without links removes its file.

Each changes one inode and leaves the other inodes' dinodes and blocks, so their files are as
they were (`Inv.files_other`).  Over whole runs (`Machine.Refines.run`) this gives
`fs_run_refines`; and since the store stops only with a `FileError`, no run from a disk with
the invariant stops with `freeing free block` or `bmap: out of range` (`fs_run_errors`).
-/

namespace Xv6Kernel

open Machine

/-- The bytes of the file `ip`, up to its size, read through its block map. -/
def fileData (d : Disk) (ip : Inode) : List UInt8 := (List.range ip.size.toNat).map (fileByte d ip)

/-- The file of the inode `ip`. -/
def fileOf (d : Disk) (ip : Inode) : File := ⟨ip.type, ip.major, ip.minor, ip.nlink, fileData d ip⟩

/-- The store a disk holds: the file of each allocated inode below `ninodes`. -/
def files (sb : Superblock) (d : Disk) : Files := fun inum =>
  if inum < sb.ninodes ∧ (dinodeAt sb d inum).type ≠ 0 then some (fileOf d (inodeAt sb d inum))
  else none

/-- The error of the disk that the store does not have: no free block is left. -/
def DiskFull (e : String) : Prop := e = "balloc: out of blocks"

variable {sb : Superblock} {d d' : Disk} {ip ip' : Inode} {inum : ℕ}

/-! ### Reading the store off the disk -/

/-- The bytes of a file are its content. -/
theorem getElem?_fileData (d : Disk) (ip : Inode) (k : ℕ) : (fileData d ip)[k]? = content d ip k := by
  unfold fileData content
  split_ifs with hk
  · rw [List.getElem?_map, List.getElem?_range hk, Option.map_some]
  · rw [List.getElem?_eq_none (by simp only [List.length_map, List.length_range]; omega)]

theorem length_fileData (d : Disk) (ip : Inode) : (fileData d ip).length = ip.size.toNat := by
  simp only [fileData, List.length_map, List.length_range]

theorem fileData_congr (h : content d' ip' = content d ip) : fileData d' ip' = fileData d ip :=
  List.ext_getElem? fun k => by rw [getElem?_fileData, getElem?_fileData, h]

/-- The content of a file depends on its addresses and size only. -/
theorem content_of_addrs (ha : ip'.addrs = ip.addrs) (hs : ip'.size = ip.size) :
    content d ip' = content d ip := by
  funext k
  simp only [content, hs, fileByte_of_addrs ha]

/-- **The bytes after a write** that replaced `[off, off + n)` of a file by `src`, from an
offset within the file: the old bytes with `src` spliced in. -/
theorem fileData_of_replaced {src : ℕ → UInt8} {off n : ℕ} (hoff : off ≤ ip.size.toNat)
    (h : ∀ k, content d' ip' k =
      if off ≤ k ∧ k < off + n then some (src (k - off)) else content d ip k) :
    fileData d' ip' = splice (fileData d ip) off ((List.range n).map src) := by
  apply List.ext_getElem?
  intro k
  rw [getElem?_fileData, h k, getElem?_splice (by rw [length_fileData]; exact hoff),
    List.length_map, List.length_range, getElem?_fileData]
  split_ifs with hk
  · rw [getElem?_write_bytes, if_pos (by omega)]
  · rfl

theorem files_of_free (h : (dinodeAt sb d inum).type = 0) : files sb d inum = none :=
  if_neg fun h' => h'.2 h

theorem files_of_ge (h : sb.ninodes ≤ inum) : files sb d inum = none :=
  if_neg fun h' => absurd h'.1 (Nat.not_lt.2 h)

theorem files_of_type (hlt : inum < sb.ninodes) (h : (dinodeAt sb d inum).type ≠ 0) :
    files sb d inum = some (fileOf d (inodeAt sb d inum)) :=
  if_pos ⟨hlt, h⟩

/-- Below `ninodes`, the free inode numbers of the store are those of the free dinodes. -/
theorem files_isNone (hlt : inum < sb.ninodes) :
    (files sb d inum).isNone = decide ((dinodeAt sb d inum).type = 0) := by
  by_cases h : (dinodeAt sb d inum).type = 0
  · rw [files_of_free h, decide_eq_true h]
    rfl
  · rw [files_of_type hlt h, decide_eq_false h]
    rfl

/-- A file whose dinode is as it was, with its content as it was when it is allocated, is as
it was. -/
theorem files_congr {j : ℕ} (hdin : dinodeAt sb d' j = dinodeAt sb d j)
    (hc : (dinodeAt sb d j).type ≠ 0 → content d' (inodeAt sb d' j) = content d (inodeAt sb d j)) :
    files sb d' j = files sb d j := by
  by_cases ht : (dinodeAt sb d j).type = 0
  · rw [files_of_free ht, files_of_free (by rw [hdin]; exact ht)]
  · have hc' := hc ht
    rw [inodeAt_congr hdin] at hc'
    have hf : fileOf d' (inodeAt sb d' j) = fileOf d (inodeAt sb d j) := by
      rw [inodeAt_congr hdin, fileOf, fileOf, fileData_congr hc']
    simp only [files, hdin, hf]

/-- The store after a dinode write, at the inode written. -/
theorem files_setDinodeAt_self (hlt : inum < sb.ninodes) (x : Dinode) :
    files sb (setDinodeAt sb d inum x) inum =
      if x.type = 0 then none else some (fileOf (setDinodeAt sb d inum x) (Inode.ofDinode inum x)) := by
  by_cases h0 : x.type = 0
  · rw [if_pos h0, files_of_free (by rw [dinodeAt_setDinodeAt_self]; exact h0)]
  · rw [if_neg h0, files_of_type hlt (by rw [dinodeAt_setDinodeAt_self]; exact h0), inodeAt,
      dinodeAt_setDinodeAt_self]

/-! ### A change to one inode -/

section One

variable (hi : Inv sb d)
  (hdin : ∀ j < sb.ninodes, j ≠ inum → dinodeAt sb d' j = dinodeAt sb d j)
  (hrest : ∀ q ∈ restUsed sb d inum, d' q = d q)
include hi hdin hrest

/-- **The other files.**  On a disk with the invariant, a change that leaves the dinodes of the
inodes other than `inum` and the blocks they own leaves their files. -/
theorem Inv.files_other {j : ℕ} (hne : j ≠ inum) : files sb d' j = files sb d j := by
  by_cases hj : j < sb.ninodes
  · exact files_congr (hdin j hj hne) fun ht => hi.content_other hj hne ht (hdin j hj hne) hrest
  · rw [files_of_ge (Nat.le_of_not_lt hj), files_of_ge (Nat.le_of_not_lt hj)]

/-- So the store changes at `inum` at most. -/
theorem Inv.files_eq_update : files sb d' = Function.update (files sb d) inum (files sb d' inum) := by
  funext j
  by_cases hj : j = inum
  · rw [hj, Function.update_self]
  · rw [Function.update_of_ne hj, hi.files_other hdin hrest hj]

/-- A dinode written back over such a change: the store changes at `inum` only, to the file of
the new dinode. -/
theorem Inv.files_setDinodeAt (hv : sb.Valid) (hlt : inum < sb.ninodes) (x : Dinode) :
    files sb (setDinodeAt sb d' inum x) = Function.update (files sb d) inum
      (if x.type = 0 then none
        else some (fileOf (setDinodeAt sb d' inum x) (Inode.ofDinode inum x))) := by
  rw [← files_setDinodeAt_self hlt x]
  obtain ⟨hdin', hrest'⟩ := hi.setDinodeAt_frame hv hlt x hdin hrest
  exact hi.files_eq_update hdin' hrest'

end One

/-- A dinode write leaves the content of an allocated file: its blocks lie past the metadata. -/
theorem Inv.content_setDinodeAt (hv : sb.Valid) (hi : Inv sb d) (hlt : inum < sb.ninodes)
    (ht : (dinodeAt sb d inum).type ≠ 0) (x : Dinode) :
    content (setDinodeAt sb d inum x) (inodeAt sb d inum) = content d (inodeAt sb d inum) :=
  content_congr (hi.noHoles inum hlt ht) fun q hq =>
    setDinodeAt_of_ge hv hlt x ((hi.owns_inode hlt ht).bounds q (List.mem_append_right _ hq)).1

/-- **The store after a write** that `WroteContent` describes, with the other dinodes as they
were and the fields of the inode kept: the file's bytes with those of `src` spliced in, and
the other files as they were. -/
theorem files_of_wrote {src : ℕ → UInt8} {off n : ℕ} (hlt : inum < sb.ninodes)
    (ht : (dinodeAt sb d inum).type ≠ 0) (wc : WroteContent sb d d' inum ip' off n src)
    (hdin : ∀ j < sb.ninodes, j ≠ inum → dinodeAt sb d' j = dinodeAt sb d j)
    (hf : ∃ a s, ip' = { inodeAt sb d inum with addrs := a, size := s })
    (hoff : off ≤ (inodeAt sb d inum).size.toNat) :
    files sb d' = Function.update (files sb d) inum
      (some { fileOf d (inodeAt sb d inum) with
        data := splice (fileData d (inodeAt sb d inum)) off ((List.range n).map src) }) := by
  obtain ⟨a, s, rfl⟩ := hf
  funext j
  by_cases hj : j = inum
  · -- the inode keeps its type, so its file is there, with the bytes of the write
    have ht' : (dinodeAt sb d' inum).type ≠ 0 := by
      have htype : (dinodeAt sb d' inum).type = (dinodeAt sb d inum).type :=
        (congrArg Inode.type wc.inode).symm
      rw [htype]
      exact ht
    rw [hj, Function.update_self, files_of_type hlt ht', ← wc.inode, fileOf, fileOf,
      fileData_of_replaced hoff wc.replaced]
  · rw [Function.update_of_ne hj]
    by_cases hj' : j < sb.ninodes
    · exact files_congr (hdin j hj' hj) fun htj => wc.others j hj' hj htj
    · rw [files_of_ge (Nat.le_of_not_lt hj'), files_of_ge (Nat.le_of_not_lt hj')]

/-! ### The operations -/

/-- The first free dinode from inode 1 is the first free inode number of the store. -/
theorem find?_files (d : Disk) :
    (List.range' 1 (sb.ninodes - 1)).find? (fun inum => (files sb d inum).isNone) =
      (List.range' 1 (sb.ninodes - 1)).find? (fun inum => decide ((dinodeAt sb d inum).type = 0)) :=
  List.find?_congr fun j hj => files_isNone (by have := List.mem_range'_1.1 hj; omega)

/-- An operation that starts with `ilock` of a free inode stops there. -/
theorem tracks_ilock_free {k : Inode → Except String Disk} (ht : (dinodeAt sb d inum).type = 0) :
    Tracks (files sb) DiskFull (ilock sb d inum >>= k) (.error "ilock: no type") := by
  rw [ilock_of_free ht, except_error_bind]
  exact .of_error

/-- An operation on an inode number below `ninodes` that starts with `ilock` tracks the store's
operation on the file there once it does so from an allocated inode: a free inode stops both
with `ilock`'s error. -/
theorem tracks_ilock (hlt : inum < sb.ninodes) {k : Inode → Except String Disk}
    {k' : File → Except String Files}
    (hk : (dinodeAt sb d inum).type ≠ 0 →
      Tracks (files sb) DiskFull (k (inodeAt sb d inum)) (k' (fileOf d (inodeAt sb d inum)))) :
    Tracks (files sb) DiskFull (ilock sb d inum >>= k)
      (match files sb d inum with
        | none => .error "ilock: no type"
        | some f => k' f) := by
  by_cases ht : (dinodeAt sb d inum).type = 0
  · rw [files_of_free ht]
    exact tracks_ilock_free ht
  · rw [ilock_of_type ht, except_ok_bind, files_of_type hlt ht]
    exact hk ht

section Operations

variable (hv : sb.Valid) (hi : Inv sb d)
include hv hi

theorem ialloc_tracks (type : UInt16) :
    Tracks (files sb) DiskFull (fsStep sb d (.ialloc type))
      (fileStep sb.ninodes (files sb d) (.ialloc type)) := by
  have hfs : fsStep sb d (.ialloc type) = Prod.snd <$> ialloc sb d type := rfl
  cases hf : (List.range' 1 (sb.ninodes - 1)).find? (fun inum => decide ((dinodeAt sb d inum).type = 0)) with
  | none =>
    -- no free dinode, and no free inode number
    rw [hfs, ialloc, hf, except_map_error]
    simp only [fileStep, find?_files, hf]
    exact .of_error
  | some inum =>
    have h : ialloc sb d type = .ok (inum, setDinodeAt sb d inum { Dinode.zero with type := type }) := by
      rw [ialloc, hf]
    obtain ⟨-, hlt, hfree, -⟩ := ialloc_eq_ok h
    rw [hfs, h, except_map_ok]
    simp only [fileStep, find?_files, hf]
    rw [tracks_ok, hi.files_setDinodeAt (fun _ _ _ => rfl) (fun _ _ => rfl) hv hlt]
    congr 1
    by_cases h0 : type = 0
    · -- a dinode of type `0` is still free
      rw [if_pos h0, if_pos h0, ← files_of_free hfree, Function.update_eq_self]
    · rw [if_neg h0, if_neg h0]
      rfl

theorem writei_tracks (inum : ℕ) (src : ℕ → UInt8) (off n : UInt32) :
    Tracks (files sb) DiskFull (fsStep sb d (.writei inum src off n))
      (fileStep sb.ninodes (files sb d) (.writei inum src off n)) := by
  simp only [fsStep, fileStep]
  split_ifs with hlt
  swap
  · rfl
  refine tracks_ilock hlt fun ht => ?_
  set ip := inodeAt sb d inum with hip
  have hlen : (fileOf d ip).data.length = ip.size.toNat := length_fileData d ip
  have htype : (fileOf d ip).type = ip.type := rfl
  by_cases hdev : ip.type = T_DEV
  · rw [writei_dev hdev, except_error_bind, writeFile, if_pos (htype.trans hdev)]
    exact .of_error
  by_cases hrej : ip.size.toNat < off.toNat ∨ MAXFILE * BSIZE < off.toNat + n.toNat
  · rw [writei_rejected hdev hrej, except_ok_bind, writeFile, if_neg (htype ▸ hdev),
      if_pos (by rw [hlen]; exact hrej)]
    rfl
  -- a write that `writei_spec` describes
  rw [writeFile, if_neg (htype ▸ hdev), if_neg (by rw [hlen]; exact hrej)]
  have hoff' : off.toNat ≤ ip.size.toNat := by omega
  have hmax : off.toNat + n.toNat ≤ MAXFILE * BSIZE := by omega
  rcases writei_spec hv (hi.owns_inode hlt ht) hdev (UInt32.le_iff_toNat_le.2 hoff') hmax with
    he | ⟨d₁, ip₁, A, w, hw⟩
  · rw [he, except_error_bind]
    exact .of_spare (show DiskFull _ from rfl) _
  have hdin₁ : ∀ j < sb.ninodes, dinodeAt sb d₁ j = dinodeAt sb d j :=
    fun j hj => w.dinodeAt_eq hv hi hlt ht hj
  -- the two ends of `writei`: the inode written back when the file grew, or not
  split_ifs at hw with hg
  · have wc := wroteContent_past_end hv hi hlt ht hdev w hoff' hg hmax hw
    have hinum : ip₁.inum = inum := by
      rw [w.fields]
      rfl
    -- the write back of the grown inode leaves the other dinodes
    have hdin : ∀ j < sb.ninodes, j ≠ inum → dinodeAt sb
        (iupdate sb d₁ { ip₁ with size := (off.toNat + n.toNat).toUInt32 }) j = dinodeAt sb d j :=
      fun j hj hne => by
        rw [iupdate, show ({ ip₁ with size := (off.toNat + n.toNat).toUInt32 } : Inode).inum = inum
          from hinum, dinodeAt_setDinodeAt_of_ne _ hne, hdin₁ j hj]
    rw [hw, except_ok_bind, except_pure_eq, tracks_ok, files_of_wrote hlt ht wc hdin
      ⟨ip₁.addrs, (off.toNat + n.toNat).toUInt32, by rw [w.fields]⟩ hoff']
    rfl
  · have wc := wroteContent_within hv hi hlt ht hdev w (Nat.le_of_not_lt hg) hw
    rw [hw, except_ok_bind, except_pure_eq, tracks_ok,
      files_of_wrote hlt ht wc (fun j hj _ => hdin₁ j hj) ⟨ip₁.addrs, ip.size, w.fields⟩ hoff']
    rfl

theorem iupdate_tracks (inum : ℕ) (major minor nlink : UInt16) :
    Tracks (files sb) DiskFull (fsStep sb d (.iupdate inum major minor nlink))
      (fileStep sb.ninodes (files sb d) (.iupdate inum major minor nlink)) := by
  simp only [fsStep, fileStep]
  split_ifs with hlt
  swap
  · rfl
  refine tracks_ilock hlt fun ht => ?_
  rw [except_pure_eq, tracks_ok, iupdate]
  set ip := inodeAt sb d inum with hip
  set ip'' : Inode := { ip with major := major, minor := minor, nlink := nlink }
  rw [show ip''.inum = inum from rfl,
    hi.files_setDinodeAt (fun _ _ _ => rfl) (fun _ _ => rfl) hv hlt,
    if_neg (show ¬ ip''.toDinode.type = 0 from ht)]
  -- the fields are the new ones, the bytes those of the same blocks
  have hc : content (setDinodeAt sb d inum ip''.toDinode) ip'' = content d ip := by
    rw [content_of_addrs rfl rfl]
    exact hi.content_setDinodeAt hv hlt ht _
  show _ = Except.ok (Function.update (files sb d) inum (some (fileOf _ ip'')))
  rw [fileOf, fileOf, fileData_congr hc]

theorem iput_tracks (inum : ℕ) :
    Tracks (files sb) DiskFull (fsStep sb d (.iput inum))
      (fileStep sb.ninodes (files sb d) (.iput inum)) := by
  simp only [fsStep, fileStep]
  split_ifs with hlt
  swap
  · rfl
  refine tracks_ilock hlt fun ht => ?_
  by_cases hn : (inodeAt sb d inum).nlink = 0
  · -- the inode is truncated, then freed: its file goes
    obtain ⟨d₁, hput, -, hframe, -⟩ := iput_eq hv hi hlt ht hn
    obtain ⟨hdin, hrest⟩ := iput_frame hv hi hlt hframe
    rw [hput, except_ok_bind, except_pure_eq, tracks_ok,
      if_pos (show (fileOf d (inodeAt sb d inum)).nlink = 0 from hn), iupdate,
      show ({ truncated (inodeAt sb d inum) with type := 0 } : Inode).inum = inum from rfl,
      hi.files_setDinodeAt hdin hrest hv hlt]
    split_ifs with h0
    · rfl
    · exact absurd rfl h0
  · rw [iput, if_neg hn, except_ok_bind, except_pure_eq, tracks_ok,
      if_neg (show ¬ (fileOf d (inodeAt sb d inum)).nlink = 0 from hn)]

theorem fsStep_tracks (e : FsEvent) :
    Tracks (files sb) DiskFull (fsStep sb d e) (fileStep sb.ninodes (files sb d) e) := by
  cases e with
  | ialloc type => exact ialloc_tracks hv hi type
  | writei inum src off n => exact writei_tracks hv hi inum src off n
  | iupdate inum major minor nlink => exact iupdate_tracks hv hi inum major minor nlink
  | iput inum => exact iput_tracks hv hi inum

end Operations

/-- **The disk refines the file store**, from the disks with the invariant, up to a full disk. -/
theorem fsStep_refines (hv : sb.Valid) :
    Refines (fsStep sb) (fileStep sb.ninodes) (Inv sb) (files sb) DiskFull where
  inv _ hi h := fsStep_inv hv hi h
  tracks e hi := fsStep_tracks hv hi e

/-! ### Whole runs -/

/-- **Every run of the file system is a run of the file store.**  From a disk with the
invariant, a run of `ialloc`, `writei`, `iupdate` and `iput` that does not stop ends in a disk
holding the store where the same run of `fileStep` ends; a run that stops either finds the disk
full or stops with the error at which the run of the store stops. -/
theorem fs_run_refines (hv : sb.Valid) (hi : Inv sb d) (es : List FsEvent) :
    Tracks (files sb) DiskFull (run (fsStep sb) d es) (run (fileStep sb.ninodes) (files sb d) es) :=
  (fsStep_refines hv).run es hi

theorem fs_run_refines_emptyImage :
    mkfsSuperblock.Valid ∧ Inv mkfsSuperblock (emptyImage mkfsSuperblock) ∧
      Tracks (files mkfsSuperblock) DiskFull
        (run (fsStep mkfsSuperblock) (emptyImage mkfsSuperblock)
          [.ialloc T_FILE, .writei 1 (fun k => k.toUInt8) 0 600])
        (run (fileStep mkfsSuperblock.ninodes) (files mkfsSuperblock (emptyImage mkfsSuperblock))
          [.ialloc T_FILE, .writei 1 (fun k => k.toUInt8) 0 600]) :=
  have h₀ := emptyImage_inv mkfsSuperblock_valid (by decide)
  ⟨mkfsSuperblock_valid, h₀, fs_run_refines mkfsSuperblock_valid h₀ _⟩

/-- **No run of the file system panics but for a full disk or a caller's error.**  From a disk
with the invariant, a run stops only when the disk or the inode table is full, an operation
names a free inode, or a device is written.  In particular no block is ever freed twice
(`freeing free block`) and `bmap` is never asked for a block past the largest file
(`bmap: out of range`). -/
theorem fs_run_errors (hv : sb.Valid) (hi : Inv sb d) {es : List FsEvent} {e : String}
    (h : run (fsStep sb) d es = .error e) : DiskFull e ∨ FileError e :=
  (fsStep_refines hv).run_error (fun _ _ _ he => fileStep_error he) hi h

theorem fs_run_errors_emptyImage :
    mkfsSuperblock.Valid ∧ Inv mkfsSuperblock (emptyImage mkfsSuperblock) ∧
      run (fsStep mkfsSuperblock) (emptyImage mkfsSuperblock) [.iput 1] = .error "ilock: no type" ∧
      (DiskFull "ilock: no type" ∨ FileError "ilock: no type") :=
  have h₀ := emptyImage_inv mkfsSuperblock_valid (by decide)
  have hr : run (fsStep mkfsSuperblock) (emptyImage mkfsSuperblock) [.iput 1] =
      .error "ilock: no type" := by
    rfl
  ⟨mkfsSuperblock_valid, h₀, hr, fs_run_errors mkfsSuperblock_valid h₀ hr⟩

end Xv6Kernel
