import Xv6Kernel.Fs.Ownership

/-!
# The content of a file: what `writei` writes and `readi` reads

The content of a file `ip` on a disk is what a reader sees (`content`): byte `k`, for `k`
below the size, is byte `k % BSIZE` of the block of file block `k / BSIZE` (`fileByte`), and
there is no byte from the size on.  On a file with no holes that block is the one `bmap`
returns, and `bmap` allocates nothing to find it (`content_eq_bmap`).

* `readLoop_spec`, `readi_spec` : `readi` copies `min(n, size - off)` bytes of the content and
  changes nothing else; `ReadsContent` says so for every offset and count.
* `LoopResult.fileByte_eq`, `content_write` : after the loop of `writei` from inside the file,
  the content is the old one with `[off, off + n)` replaced by `src`, up to the new size.
* `writei_readi_content` : on a disk with the invariant, `writei` to a file either finds the
  disk full or returns `n`, with the content replaced, the size `max(size, off + n)` written
  back, the content of the other files as it was, and `readi` reading the new content.  The
  four regions of the block map need no case of their own: `bmap_spec` covers them.
-/

namespace Xv6Kernel

/-- The content of the file `ip`: byte `k` below its size, read through its block map. -/
def content (d : Disk) (ip : Inode) (k : ℕ) : Option UInt8 :=
  if k < ip.size.toNat then some (fileByte d ip k) else none

variable {sb : Superblock} {d d' : Disk} {ip ip' : Inode}

/-! ### Reading a file through its block map -/

theorem NoHoles.lookup_ne_zero (hh : NoHoles d ip) {k : ℕ} (hk : k < ip.size.toNat) :
    lookup d ip (k / BSIZE) ≠ 0 :=
  hh _ (Nat.lt_of_le_of_lt (Nat.div_mul_le_self k BSIZE) hk)

/-- A byte of a file depends on the file's own blocks only. -/
theorem fileByte_congr (h : ∀ q ∈ inodeBlocks d ip, d' q = d q) {k : ℕ}
    (hk : lookup d ip (k / BSIZE) ≠ 0) : fileByte d' ip k = fileByte d ip k := by
  have hind : ∀ q ∈ inodeIndirect d ip, d' q = d q :=
    fun q hq => h q (mem_inodeBlocks_of_mem_inodeIndirect hq)
  unfold fileByte
  rw [lookup_congr hind, h _ (mem_inodeBlocks_of_mem_inodeData (lookup_mem_inodeData hk))]

theorem fileByte_of_addrs (h : ip'.addrs = ip.addrs) (k : ℕ) : fileByte d ip' k = fileByte d ip k := by
  unfold fileByte
  rw [lookup_of_addrs h]

/-- The content of a file with no holes depends on the file's own blocks only. -/
theorem content_congr (hh : NoHoles d ip) (h : ∀ q ∈ inodeBlocks d ip, d' q = d q) :
    content d' ip = content d ip := by
  funext k
  unfold content
  split_ifs with hk
  · rw [fileByte_congr h (hh.lookup_ne_zero hk)]
  · rfl

/-- **The content is what `bmap` finds**: byte `k` of a file with no holes is byte `k % BSIZE`
of the block that `bmap` returns for file block `k / BSIZE`, without allocating. -/
theorem content_eq_bmap (hh : NoHoles d ip) {k : ℕ} (hk : k < ip.size.toNat) :
    bmap sb d ip (k / BSIZE) = .ok (lookup d ip (k / BSIZE), d, ip) ∧
      content d ip k = some (d (lookup d ip (k / BSIZE)) (k % BSIZE)) :=
  ⟨bmap_present (hh.lookup_ne_zero hk), if_pos hk⟩

/-! ### `readi` -/

/-- The bytes of the block of `off` from `off % BSIZE` on are the file bytes from `off`. -/
theorem fileByte_of_chunk {off j : ℕ} (hj : j < BSIZE - off % BSIZE) :
    d (lookup d ip (off / BSIZE)) (off % BSIZE + j) = fileByte d ip (off + j) := by
  have h₁ : (off + j) / BSIZE = off / BSIZE := by
    rw [BSIZE_eq] at *
    omega
  have h₂ : (off + j) % BSIZE = off % BSIZE + j := by
    rw [BSIZE_eq] at *
    omega
  rw [fileByte, h₁, h₂]

/-- **The loop of `readi`** over a range whose blocks are all there: it changes neither the
disk nor the inode, and copies the file bytes from `off` to `dst` from `tot` up to `n`.  The
induction follows the loop's own recursion, on the bytes left. -/
theorem readLoop_spec (n : ℕ) (d : Disk) (ip : Inode) (dst : ℕ → UInt8) (tot off : ℕ)
    (h : ∀ bn, touches off (off + (n - tot)) bn → lookup d ip bn ≠ 0) :
    readLoop sb n d ip dst tot off = .ok (d, ip, fun x =>
      if tot ≤ x ∧ x < n then fileByte d ip (off + (x - tot)) else dst x) := by
  rw [readLoop]
  split_ifs with htn
  · have hm := chunk_pos off htn
    set m := min (n - tot) (BSIZE - off % BSIZE) with hm_def
    have hmle : m ≤ BSIZE - off % BSIZE := min_le_right _ _
    have hmn : m ≤ n - tot := min_le_left _ _
    -- the block of `off` is there, so `bmap` finds it and allocates nothing
    have hfirst : touches off (off + (n - tot)) (off / BSIZE) := by
      refine ⟨?_, ?_, by omega⟩
      · rw [Nat.succ_mul]
        have := Nat.lt_div_mul_add (show 0 < BSIZE by decide) (a := off)
        omega
      · have := Nat.div_mul_le_self off BSIZE
        omega
    rw [bmap_present (h _ hfirst), except_ok_bind]
    simp only
    rw [readLoop_spec n d ip _ (tot + m) (off + m) fun bn hbn => h bn ⟨by
      have := hbn.1
      omega, by have := hbn.2.1; omega, by omega⟩]
    congr
    funext x
    by_cases h₁ : tot + m ≤ x ∧ x < n
    · rw [if_pos h₁, if_pos ⟨by omega, h₁.2⟩]
      congr 1
      omega
    rw [if_neg h₁]
    by_cases h₂ : tot ≤ x ∧ x < tot + m
    · -- the bytes of this turn's chunk
      have hx : x - tot < BSIZE - off % BSIZE := by omega
      rw [Bytes.copy_of_mem h₂.1 h₂.2, if_pos ⟨h₂.1, by omega⟩, fileByte_of_chunk (d := d) hx]
    · rw [Bytes.copy, if_neg h₂, if_neg (by omega)]
  · rw [Except.ok.injEq, Prod.mk.injEq, Prod.mk.injEq]
    refine ⟨rfl, rfl, funext fun x => ?_⟩
    rw [if_neg (by omega)]
termination_by n - tot
decreasing_by
  have := chunk_pos off htn
  omega

/-- **What `readi` does** on a file with no holes, at an offset within it and with no `uint`
wrap: it returns `min(n, size - off)`, changes neither the disk nor the inode, and copies that
many file bytes from `off` to the front of `dst`. -/
theorem readi_spec (hh : NoHoles d ip) (hdev : ip.type ≠ T_DEV) (dst : ℕ → UInt8)
    {off n : UInt32} (hoff : off ≤ ip.size) (hwrap : off.toNat + n.toNat < 2 ^ 32) :
    readi sb d ip dst off n = .ok ((min n.toNat (ip.size.toNat - off.toNat) : ℕ), (fun x =>
      if x < min n.toNat (ip.size.toNat - off.toNat) then fileByte d ip (off.toNat + x) else dst x),
      d, ip) := by
  have hs := UInt32.le_iff_toNat_le.1 hoff
  have hgt : ¬ off > ip.size := fun h => absurd hoff (UInt32.not_le.2 h)
  have hadd : (off + n).toNat = off.toNat + n.toNat := by
    rw [UInt32.toNat_add, Nat.mod_eq_of_lt hwrap]
  have hnw : ¬ off + n < off := by
    rw [UInt32.lt_iff_toNat_lt, hadd]
    omega
  -- the count `readi` settles on
  have hm : (if off + n > ip.size then ip.size - off else n).toNat =
      min n.toNat (ip.size.toNat - off.toNat) := by
    split_ifs with hc
    · rw [gt_iff_lt, UInt32.lt_iff_toNat_lt, hadd] at hc
      rw [UInt32.toNat_sub_of_le _ _ hoff]
      omega
    · rw [gt_iff_lt, UInt32.lt_iff_toNat_lt, hadd] at hc
      omega
  simp only [readi, hdev, hgt, hnw, if_false, or_self]
  rw [hm, readLoop_spec _ d ip dst 0 off.toNat fun bn hbn => hh bn (by have := hbn.2.1; omega)]
  simp only [except_ok_bind, Nat.zero_le, true_and, Nat.sub_zero]
  rfl

variable (sb) in
/-- `readi` of the file `ip` on `d` reads its content: at every offset within the file and for
every count with no `uint` wrap, it returns `min(n, size - off)`, leaves the disk and the inode
as they were, copies that many bytes of the content from `off` to the front of `dst`, and
leaves the rest of `dst`. -/
def ReadsContent (d : Disk) (ip : Inode) : Prop :=
  ∀ (dst : ℕ → UInt8) (off n : UInt32), off ≤ ip.size → off.toNat + n.toNat < 2 ^ 32 →
    ∃ dst', readi sb d ip dst off n =
        .ok ((min n.toNat (ip.size.toNat - off.toNat) : ℕ), dst', d, ip) ∧
      (∀ x < min n.toNat (ip.size.toNat - off.toNat), content d ip (off.toNat + x) = some (dst' x)) ∧
      ∀ x, min n.toNat (ip.size.toNat - off.toNat) ≤ x → dst' x = dst x

theorem readsContent_of_noHoles (hh : NoHoles d ip) (hdev : ip.type ≠ T_DEV) :
    ReadsContent sb d ip := by
  intro dst off n hoff hwrap
  have hs := UInt32.le_iff_toNat_le.1 hoff
  refine ⟨_, readi_spec hh hdev dst hoff hwrap, fun x hx => ?_, fun x hx => ?_⟩
  · -- below the count, the byte read lies inside the file
    have hin : off.toNat + x < ip.size.toNat := by omega
    simp only [content, if_pos hin, if_pos hx]
  · exact if_neg (by omega)

theorem Inv.readsContent {inum : ℕ} (hi : Inv sb d) (hlt : inum < sb.ninodes)
    (ht : (dinodeAt sb d inum).type ≠ 0) (hdev : (dinodeAt sb d inum).type ≠ T_DEV) :
    ReadsContent sb d (inodeAt sb d inum) :=
  readsContent_of_noHoles (hi.noHoles inum hlt ht) hdev

/-! ### `writei` -/

/-- **The file bytes after the loop of `writei`**, started inside a file with no holes: up to
the end of the file or of the write, whichever is later, the bytes of the range are the ones
written and the others are as they were. -/
theorem LoopResult.fileByte_eq {R A : List ℕ} {lo hi : ℕ} {bytes : ℕ → UInt8}
    (w : LoopResult sb d d' ip ip' R A lo hi bytes) (hh : NoHoles d ip) (hlo : lo ≤ ip.size.toNat)
    {k : ℕ} (hk : k < max ip.size.toNat hi) :
    fileByte d' ip' k = if lo ≤ k ∧ k < hi then bytes k else fileByte d ip k := by
  split_ifs with hin
  · exact w.written k hin.1 hin.2
  · -- outside the range the byte lies below the old size, in a block that was there
    have hks : k < ip.size.toNat := by omega
    exact w.untouched k (by omega) (hh.lookup_ne_zero hks)

/-- The content after a write of `[lo, hi)` from inside the file, from its bytes up to the new
size `max(size, hi)`. -/
theorem content_write {dF : Disk} {ipF : Inode} {lo hi : ℕ} {bytes : ℕ → UInt8}
    (hlo : lo ≤ ip.size.toNat) (hS : ipF.size.toNat = max ip.size.toNat hi)
    (hb : ∀ k < ipF.size.toNat,
      fileByte dF ipF k = if lo ≤ k ∧ k < hi then bytes k else fileByte d ip k) (k : ℕ) :
    content dF ipF k = if lo ≤ k ∧ k < hi then some (bytes k) else content d ip k := by
  unfold content
  by_cases hk : k < ipF.size.toNat
  · rw [if_pos hk, hb k hk]
    split_ifs with hin hks
    · rfl
    · rfl
    · -- a byte outside the range and past the old size is past the new size too
      omega
  · -- past both ends there is no byte, before and after
    rw [if_neg hk, if_neg (by omega), if_neg (by omega)]

/-- The content of another file with no holes is as it was when its dinode and its blocks
are. -/
theorem Inv.content_other {inum j : ℕ} (hi : Inv sb d) (hj : j < sb.ninodes) (hne : j ≠ inum)
    (ht : (dinodeAt sb d j).type ≠ 0) (hdin : dinodeAt sb d' j = dinodeAt sb d j)
    (hrest : ∀ q ∈ restUsed sb d inum, d' q = d q) :
    content d' (inodeAt sb d' j) = content d (inodeAt sb d j) := by
  rw [inodeAt_congr hdin]
  exact content_congr (hi.noHoles j hj ht) fun q hq =>
    hrest q (mem_restUsed hj hne (ownedBy_of_type ht ▸ hq))

/-- What a write of `n` bytes of `src` at `off` to inode `inum` leaves, from disk `d` to disk
`d'` with the in-memory inode `ip'`. -/
structure WroteContent (sb : Superblock) (d d' : Disk) (inum : ℕ) (ip' : Inode) (off n : ℕ)
    (src : ℕ → UInt8) : Prop where
  /-- The in-memory inode is the one on the disk. -/
  inode : ip' = inodeAt sb d' inum
  /-- The size is the end of the file or of the write, whichever is later. -/
  size : ip'.size.toNat = max (inodeAt sb d inum).size.toNat (off + n)
  /-- The bytes `[off, off + n)` are those of `src`, and the others are as they were. -/
  replaced : ∀ k, content d' ip' k =
    if off ≤ k ∧ k < off + n then some (src (k - off)) else content d (inodeAt sb d inum) k
  /-- The other files' content is as it was. -/
  others : ∀ j < sb.ninodes, j ≠ inum → (dinodeAt sb d j).type ≠ 0 →
    content d' (inodeAt sb d' j) = content d (inodeAt sb d j)
  /-- The invariant holds. -/
  inv : Inv sb d'
  /-- `readi` reads the new content. -/
  reads : ReadsContent sb d' ip'

section Write

variable {inum : ℕ} (hv : sb.Valid) (hi : Inv sb d) (hlt : inum < sb.ninodes)
  (ht : (dinodeAt sb d inum).type ≠ 0) (hdev : (dinodeAt sb d inum).type ≠ T_DEV)
  {src : ℕ → UInt8} {off n : UInt32} {A : List ℕ}
include hv hi hlt ht hdev

/-- A write that ends inside the file: the loop allocates nothing, and the inode on the disk
is the in-memory one. -/
theorem wroteContent_within
    (w : LoopResult sb d d' (inodeAt sb d inum) ip' (restUsed sb d inum) A off.toNat
      (off.toNat + n.toNat) (fun k => src (0 + (k - off.toNat))))
    (hend : off.toNat + n.toNat ≤ (inodeAt sb d inum).size.toNat)
    (hw : writei sb d (inodeAt sb d inum) src off n = .ok (n.toNat, d', ip')) :
    WroteContent sb d d' inum ip' off.toNat n.toNat src := by
  have hh := hi.noHoles inum hlt ht
  obtain ⟨rfl, -⟩ := w.noalloc fun bn hbn => hh bn (Nat.lt_of_lt_of_le hbn.2.1 hend)
  have hd := w.dinodeAt_eq hv hi hlt ht hlt
  have hinv := writei_inv hv hi hlt ht hw
  have hS : (inodeAt sb d inum).size.toNat = max (inodeAt sb d inum).size.toNat
      (off.toNat + n.toNat) := (max_eq_left hend).symm
  refine ⟨(inodeAt_congr hd).symm, hS, fun k => ?_, fun j hj hne htj => ?_, hinv, ?_⟩
  · have hlo := Nat.le_trans (Nat.le_add_right _ _) hend
    rw [content_write hlo hS (fun k hk => w.fileByte_eq hh hlo (hS ▸ hk)) k, zero_add]
  · exact hi.content_other hj hne htj (w.dinodeAt_eq hv hi hlt ht hj) fun q hq =>
      w.rest_eq hi hlt ht hq
  · rw [← inodeAt_congr hd]
    exact hinv.readsContent hlt (hd ▸ ht) (hd ▸ hdev)

/-- A write past the end of the file: the blocks up to its end are there, and the in-memory
inode is written back with the new size. -/
theorem wroteContent_past_end
    (w : LoopResult sb d d' (inodeAt sb d inum) ip' (restUsed sb d inum) A off.toNat
      (off.toNat + n.toNat) (fun k => src (0 + (k - off.toNat))))
    (hoff : off.toNat ≤ (inodeAt sb d inum).size.toNat)
    (hgt : (inodeAt sb d inum).size.toNat < off.toNat + n.toNat)
    (hmax : off.toNat + n.toNat ≤ MAXFILE * BSIZE)
    (hw : writei sb d (inodeAt sb d inum) src off n =
      .ok (n.toNat, iupdate sb d' { ip' with size := (off.toNat + n.toNat).toUInt32 },
        { ip' with size := (off.toNat + n.toNat).toUInt32 })) :
    WroteContent sb d (iupdate sb d' { ip' with size := (off.toNat + n.toNat).toUInt32 }) inum
      { ip' with size := (off.toNat + n.toNat).toUInt32 } off.toNat n.toNat src := by
  have hh := hi.noHoles inum hlt ht
  have hinv := writei_inv hv hi hlt ht hw
  have hinum : ip'.inum = inum := by rw [w.fields]; rfl
  set ipF : Inode := { ip' with size := (off.toNat + n.toNat).toUInt32 } with hipF
  set dF := iupdate sb d' ipF with hdF
  -- the new size fits in a `uint`
  have hsize : ipF.size.toNat = off.toNat + n.toNat := by
    have := MAXFILE_mul_BSIZE_lt
    simp only [ipF]
    simp
    omega
  have hS : ipF.size.toNat = max (inodeAt sb d inum).size.toNat (off.toNat + n.toNat) := by
    rw [hsize]
    omega
  have hiu : dF = setDinodeAt sb d' inum ipF.toDinode := by
    rw [hdF, iupdate, show ipF.inum = inum from hinum]
  -- the dinode write reaches no block the disk owns
  have hge : ∀ q, sb.nmeta ≤ q → dF q = d' q := fun q hq => by
    rw [hiu, setDinodeAt_of_ge hv hlt _ hq]
  have hinode : ipF = inodeAt sb dF inum := by
    rw [hiu, inodeAt, dinodeAt_setDinodeAt_self, ← hinum]
    rfl
  have hb : ∀ k < ipF.size.toNat, fileByte dF ipF k =
      if off.toNat ≤ k ∧ k < off.toNat + n.toNat then src (0 + (k - off.toNat))
      else fileByte d (inodeAt sb d inum) k := by
    intro k hk
    have hk' : k < max (inodeAt sb d inum).size.toNat (off.toNat + n.toNat) := hS ▸ hk
    -- below the new size the block is there, and the dinode write left it
    have hl := w.lookup_ne_zero hh hoff (Nat.lt_of_le_of_lt (Nat.div_mul_le_self k BSIZE) hk')
    calc fileByte dF ipF k = fileByte dF ip' k := fileByte_of_addrs rfl k
      _ = fileByte d' ip' k := fileByte_congr (fun q hq =>
          hge q (w.owns.bounds q (List.mem_append_right _ hq)).1) hl
      _ = _ := w.fileByte_eq hh hoff hk'
  refine ⟨hinode, hS, fun k => ?_, fun j hj hne htj => ?_, hinv, ?_⟩
  · rw [content_write hoff hS hb k, zero_add]
  · refine hi.content_other hj hne htj ?_ fun q hq => ?_
    · rw [hiu, dinodeAt_setDinodeAt_of_ne _ hne, w.dinodeAt_eq hv hi hlt ht hj]
    · rw [hge q (hi.nmeta_le_of_rest hlt hq), w.rest_eq hi hlt ht hq]
  · have htype : (dinodeAt sb dF inum).type = (dinodeAt sb d inum).type := by
      rw [hiu, dinodeAt_setDinodeAt_self]
      show ip'.type = _
      rw [w.fields]
      rfl
    rw [hinode]
    exact hinv.readsContent hlt (htype ▸ ht) (htype ▸ hdev)

end Write

/-- **The content of a file under `writei` and `readi`.**  On a disk with the invariant, for
an allocated inode that is not a device: `readi` reads its content; and `writei` of `n` bytes of
`src` at an offset within the file, ending by `MAXFILE` blocks, either finds the disk full or
returns `n`, with the content replaced on `[off, off + n)`, the size `max(size, off + n)` on the
disk, the other files' content as it was, the invariant kept, and `readi` reading the new
content. -/
theorem writei_readi_content (hv : sb.Valid) {inum : ℕ} (hi : Inv sb d) (hlt : inum < sb.ninodes)
    (ht : (dinodeAt sb d inum).type ≠ 0) (hdev : (dinodeAt sb d inum).type ≠ T_DEV)
    {src : ℕ → UInt8} {off n : UInt32} (hoff : off ≤ (inodeAt sb d inum).size)
    (hmax : off.toNat + n.toNat ≤ MAXFILE * BSIZE) :
    ReadsContent sb d (inodeAt sb d inum) ∧
      (writei sb d (inodeAt sb d inum) src off n = .error "balloc: out of blocks" ∨
        ∃ d' ip', writei sb d (inodeAt sb d inum) src off n = .ok (n.toNat, d', ip') ∧
          WroteContent sb d d' inum ip' off.toNat n.toNat src) := by
  refine ⟨hi.readsContent hlt ht hdev, ?_⟩
  rcases writei_spec hv (hi.owns_inode hlt ht) hdev hoff hmax with he | ⟨d₁, ip₁, A, w, hw⟩
  · exact .inl he
  have hoff' := UInt32.le_iff_toNat_le.1 hoff
  right
  -- the two ends of `writei`: the inode written back when the file grew, or not
  split_ifs at hw with hg
  · exact ⟨_, _, hw, wroteContent_past_end hv hi hlt ht hdev w hoff' hg hmax hw⟩
  · exact ⟨_, _, hw, wroteContent_within hv hi hlt ht hdev w (Nat.le_of_not_lt hg) hw⟩

/-- Nothing written: the content of a file is what it was. -/
theorem WroteContent.refl (hi : Inv sb d) {inum : ℕ} (hlt : inum < sb.ninodes)
    (ht : (dinodeAt sb d inum).type ≠ 0) (hdev : (dinodeAt sb d inum).type ≠ T_DEV) {off : ℕ}
    (hoff : off ≤ (inodeAt sb d inum).size.toNat) (src : ℕ → UInt8) :
    WroteContent sb d d inum (inodeAt sb d inum) off 0 src where
  inode := rfl
  size := by omega
  replaced k := by rw [if_neg (by omega)]
  others _ _ _ _ := rfl
  inv := hi
  reads := hi.readsContent hlt ht hdev

/-- Two writes of adjacent ranges are one write of both: `[off, off + m)` from `src`, then
`[off + m, off + m + k)` from `src` past its first `m` bytes, on a disk where no inode changed
its type in between. -/
theorem WroteContent.trans {d₁ d₂ : Disk} {inum : ℕ} {ip₁ ip₂ : Inode} {off m k : ℕ}
    {src : ℕ → UInt8} (h₁ : WroteContent sb d d₁ inum ip₁ off m src)
    (h₂ : WroteContent sb d₁ d₂ inum ip₂ (off + m) k (fun x => src (m + x)))
    (htype : ∀ j < sb.ninodes, (dinodeAt sb d₁ j).type = (dinodeAt sb d j).type) :
    WroteContent sb d d₂ inum ip₂ off (m + k) src where
  inode := h₂.inode
  size := by
    rw [h₂.size, ← h₁.inode, h₁.size]
    omega
  replaced x := by
    rw [h₂.replaced, ← h₁.inode, h₁.replaced]
    -- the second range, the first, or neither
    by_cases hx₂ : off + m ≤ x ∧ x < off + m + k
    · rw [if_pos hx₂, if_pos (by omega), show m + (x - (off + m)) = x - off by omega]
    · rw [if_neg hx₂]
      by_cases hx₁ : off ≤ x ∧ x < off + m
      · rw [if_pos hx₁, if_pos (by omega)]
      · rw [if_neg hx₁, if_neg (by omega)]
  others j hj hne htj := by
    rw [h₂.others j hj hne (by rwa [htype j hj]), h₁.others j hj hne htj]
  inv := h₂.inv
  reads := h₂.reads

/-- The image mkfs lays out, with a file allocated in it by `ialloc(T_FILE)`: inode 1. -/
def fileImage : Disk :=
  setDinodeAt mkfsSuperblock (emptyImage mkfsSuperblock) 1 { Dinode.zero with type := T_FILE }

theorem ialloc_emptyImage :
    ialloc mkfsSuperblock (emptyImage mkfsSuperblock) T_FILE = .ok (1, fileImage) := by
  rfl

theorem writei_readi_content_fileImage :
    mkfsSuperblock.Valid ∧ Inv mkfsSuperblock fileImage ∧ 1 < mkfsSuperblock.ninodes ∧
      (dinodeAt mkfsSuperblock fileImage 1).type ≠ 0 ∧
      (dinodeAt mkfsSuperblock fileImage 1).type ≠ T_DEV ∧
      (0 : UInt32) ≤ (inodeAt mkfsSuperblock fileImage 1).size ∧
      (0 : UInt32).toNat + (600 : UInt32).toNat ≤ MAXFILE * BSIZE ∧
      (ReadsContent mkfsSuperblock fileImage (inodeAt mkfsSuperblock fileImage 1) ∧
        (writei mkfsSuperblock fileImage (inodeAt mkfsSuperblock fileImage 1) (fun k => k.toUInt8)
            0 600 = .error "balloc: out of blocks" ∨
          ∃ d' ip', writei mkfsSuperblock fileImage (inodeAt mkfsSuperblock fileImage 1)
              (fun k => k.toUInt8) 0 600 = .ok ((600 : UInt32).toNat, d', ip') ∧
            WroteContent mkfsSuperblock fileImage d' 1 ip' (0 : UInt32).toNat (600 : UInt32).toNat
              (fun k => k.toUInt8))) := by
  have hv := mkfsSuperblock_valid
  have hi : Inv mkfsSuperblock fileImage :=
    ialloc_inv hv (emptyImage_inv hv (by decide)) ialloc_emptyImage
  have hd : dinodeAt mkfsSuperblock fileImage 1 = { Dinode.zero with type := T_FILE } :=
    dinodeAt_setDinodeAt_self _ _ _
  have ht : (dinodeAt mkfsSuperblock fileImage 1).type ≠ 0 := by rw [hd]; decide
  have hdev : (dinodeAt mkfsSuperblock fileImage 1).type ≠ T_DEV := by rw [hd]; decide
  have hlt : 1 < mkfsSuperblock.ninodes := by decide
  have hmax : (0 : UInt32).toNat + (600 : UInt32).toNat ≤ MAXFILE * BSIZE := by decide
  exact ⟨hv, hi, hlt, ht, hdev, UInt32.zero_le, hmax,
    writei_readi_content hv hi hlt ht hdev UInt32.zero_le hmax⟩

end Xv6Kernel
