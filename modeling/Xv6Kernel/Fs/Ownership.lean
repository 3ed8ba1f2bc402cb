import Xv6Kernel.Fs.Free
import Xv6Kernel.Fs.Write

/-!
# Block ownership: the invariant of the file system

An allocated inode owns the blocks of its 13 trees, read from its dinode on the disk
(`inodeBlocks`); a free inode (`type == 0`) owns none, whatever its addresses hold
(`ownedBy`).  The invariant `Inv` of a disk:

* the bitmap marks exactly the metadata blocks `[0, nmeta)` and the blocks the inodes own,
  and no block is owned twice, by one inode or by two (`Owns` of `usedBlocks`);
* an allocated inode has every block below its size mapped (`NoHoles`).  A write that stays
  inside a file then allocates nothing, which matters because `writei` writes the inode back
  only when the file grows: a block it mapped into the in-memory copy alone would be lost.

Each operation of `fsStep` changes one inode's dinode and blocks and leaves the blocks the
others own; `Inv.update_one` says once what such a change must do, `Inv.write_dinode` does it
for a change that ends with the dinode written back, and `fsStep_inv` takes the four
operations through them.  `block_ownership` is the invariant over every run from an image that
satisfies it, with its consequences: a nonzero entry of an indirect block is a block of the
same inode, and the `iput` of an unlinked inode succeeds (no `freeing free block`) and clears
exactly the bits of its blocks.  The image mkfs lays out (`emptyImage`) satisfies it.
-/

namespace Xv6Kernel

open Bytes

variable (sb : Superblock)

/-- The inode `ilock` reads for inode `inum`. -/
def inodeAt (d : Disk) (inum : ℕ) : Inode := Inode.ofDinode inum (dinodeAt sb d inum)

/-- The blocks inode `inum` owns. -/
def ownedBy (d : Disk) (inum : ℕ) : List ℕ :=
  if (dinodeAt sb d inum).type = 0 then [] else inodeBlocks d (inodeAt sb d inum)

/-- The blocks the inodes own, inode by inode. -/
def usedBlocks (d : Disk) : List ℕ := (List.range sb.ninodes).flatMap (ownedBy sb d)

/-- The blocks the inodes other than `inum` own. -/
def restUsed (d : Disk) (inum : ℕ) : List ℕ :=
  ((List.range sb.ninodes).erase inum).flatMap (ownedBy sb d)

/-- Every block of the file below its size is mapped. -/
def NoHoles (d : Disk) (ip : Inode) : Prop :=
  ∀ bn, bn * BSIZE < ip.size.toNat → lookup d ip bn ≠ 0

/-- The invariant of the file system on the disk. -/
structure Inv (d : Disk) : Prop where
  /-- The bitmap marks the metadata and the blocks the inodes own, and no block is owned
  twice. -/
  owns : Owns sb d (usedBlocks sb d)
  /-- An allocated inode has all its blocks below its size. -/
  noHoles : ∀ inum < sb.ninodes, (dinodeAt sb d inum).type ≠ 0 → NoHoles d (inodeAt sb d inum)

variable {sb} {d d' : Disk} {inum : ℕ}

/-! ### Reading the owners -/

theorem ilock_eq_ok {ip : Inode} (h : ilock sb d inum = .ok ip) :
    (dinodeAt sb d inum).type ≠ 0 ∧ ip = inodeAt sb d inum := by
  unfold ilock at h
  by_cases ht : (dinodeAt sb d inum).type = 0
  · rw [if_pos ht] at h
    cases h
  · rw [if_neg ht] at h
    exact ⟨ht, (Except.ok.inj h).symm⟩

theorem ilock_of_free (h : (dinodeAt sb d inum).type = 0) : ilock sb d inum = .error "ilock: no type" :=
  if_pos h

theorem ilock_of_type (h : (dinodeAt sb d inum).type ≠ 0) : ilock sb d inum = .ok (inodeAt sb d inum) :=
  if_neg h

/-- An operation of `fsStep` on the inode `inum`: past the inode table the disk stays as it is;
otherwise `ilock` finds an allocated inode, and the operation goes on with it. -/
theorem guarded_ilock_eq_ok {k : Inode → Except String Disk}
    (h : (if inum < sb.ninodes then ilock sb d inum >>= k else .ok d) = .ok d') :
    d' = d ∨ inum < sb.ninodes ∧ (dinodeAt sb d inum).type ≠ 0 ∧ k (inodeAt sb d inum) = .ok d' := by
  split_ifs at h with hlt
  · obtain ⟨ip, hl, h⟩ := Except.bind_eq_ok.1 h
    obtain ⟨ht, rfl⟩ := ilock_eq_ok hl
    exact .inr ⟨hlt, ht, h⟩
  · exact .inl (Except.ok.inj h).symm

theorem inodeAt_congr (h : dinodeAt sb d' inum = dinodeAt sb d inum) :
    inodeAt sb d' inum = inodeAt sb d inum := by
  simp only [inodeAt, h]

theorem ownedBy_of_free (h : (dinodeAt sb d inum).type = 0) : ownedBy sb d inum = [] := if_pos h

theorem ownedBy_of_type (h : (dinodeAt sb d inum).type ≠ 0) :
    ownedBy sb d inum = inodeBlocks d (inodeAt sb d inum) := if_neg h

/-- What an inode owns depends on its dinode and on its own indirect blocks. -/
theorem ownedBy_congr (hdin : dinodeAt sb d' inum = dinodeAt sb d inum)
    (h : ∀ q ∈ ownedBy sb d inum, d' q = d q) : ownedBy sb d' inum = ownedBy sb d inum := by
  by_cases ht : (dinodeAt sb d inum).type = 0
  · rw [ownedBy_of_free (hdin ▸ ht), ownedBy_of_free ht]
  · rw [ownedBy_of_type ht] at h
    rw [ownedBy_of_type (hdin ▸ ht), ownedBy_of_type ht, inodeAt_congr hdin]
    exact inodeBlocks_congr fun q hq => h q (mem_inodeBlocks_of_mem_inodeIndirect hq)

theorem usedBlocks_perm (h : inum < sb.ninodes) :
    (usedBlocks sb d).Perm (restUsed sb d inum ++ ownedBy sb d inum) :=
  (perm_flatMap_erase _ (List.mem_range.2 h)).trans List.perm_append_comm

theorem mem_restUsed {j q : ℕ} (hj : j < sb.ninodes) (hne : j ≠ inum) (hq : q ∈ ownedBy sb d j) :
    q ∈ restUsed sb d inum :=
  List.mem_flatMap.2 ⟨j, (List.mem_erase_of_ne hne).2 (List.mem_range.2 hj), hq⟩

/-- The invariant seen from one inode: the disk owns the others' blocks, then this one's. -/
theorem Inv.owns_split (hi : Inv sb d) (h : inum < sb.ninodes) :
    Owns sb d (restUsed sb d inum ++ ownedBy sb d inum) :=
  hi.owns.perm (usedBlocks_perm h)

/-- A block another inode owns lies past the metadata. -/
theorem Inv.nmeta_le_of_rest (hi : Inv sb d) (h : inum < sb.ninodes) {q : ℕ}
    (hq : q ∈ restUsed sb d inum) : sb.nmeta ≤ q :=
  ((hi.owns_split h).bounds q (List.mem_append_left _ hq)).1

/-- The invariant seen from one allocated inode, as `bmap`, `writei` and `itrunc` need it. -/
theorem Inv.owns_inode (hi : Inv sb d) (h : inum < sb.ninodes)
    (ht : (dinodeAt sb d inum).type ≠ 0) :
    Owns sb d (restUsed sb d inum ++ inodeBlocks d (inodeAt sb d inum)) :=
  ownedBy_of_type ht ▸ hi.owns_split h

/-! ### Writing a dinode -/

section Dinode

variable (hv : sb.Valid) (hlt : inum < sb.ninodes)
include hv hlt

/-- Writing a dinode leaves the bitmap: the inode blocks lie below it. -/
theorem bitAt_setDinodeAt (x : Dinode) (b : ℕ) : bitAt sb (setDinodeAt sb d inum x) b = bitAt sb d b :=
  bitAt_update_of_ne (Nat.ne_of_lt (Nat.lt_of_lt_of_le (hv.iblock_lt_bmapstart hlt)
    (Superblock.bmapstart_le_bblock b)))

/-- Writing a dinode leaves every block past the metadata, where the blocks of files lie. -/
theorem setDinodeAt_of_ge (x : Dinode) {q : ℕ} (hq : sb.nmeta ≤ q) :
    setDinodeAt sb d inum x q = d q :=
  setDinodeAt_of_ne x (Nat.ne_of_gt (Nat.lt_of_lt_of_le (hv.iblock_lt_bmapstart hlt)
    (Nat.le_trans hv.bmapstart_lt_nmeta.le hq)))

theorem Owns.write_dinode {L : List ℕ} (h : Owns sb d L) (x : Dinode) :
    Owns sb (setDinodeAt sb d inum x) L :=
  h.of_bits fun b _ => bitAt_setDinodeAt hv hlt x b

end Dinode

/-! ### One inode changes -/

/-- **One inode changes.**  A disk on which the dinodes of the other inodes and the blocks they
own are as before keeps the invariant if it owns their blocks and inode `inum`'s new ones,
with no hole below `inum`'s size. -/
theorem Inv.update_one (hi : Inv sb d) (hlt : inum < sb.ninodes)
    (hdin : ∀ j < sb.ninodes, j ≠ inum → dinodeAt sb d' j = dinodeAt sb d j)
    (hrest : ∀ q ∈ restUsed sb d inum, d' q = d q)
    (hown : Owns sb d' (restUsed sb d inum ++ ownedBy sb d' inum))
    (hholes : (dinodeAt sb d' inum).type ≠ 0 → NoHoles d' (inodeAt sb d' inum)) : Inv sb d' := by
  -- the other inodes own what they owned
  have hother : ∀ j < sb.ninodes, j ≠ inum → ownedBy sb d' j = ownedBy sb d j :=
    fun j hj hne => ownedBy_congr (hdin j hj hne) fun q hq => hrest q (mem_restUsed hj hne hq)
  have hr : restUsed sb d' inum = restUsed sb d inum := List.flatMap_congr fun j hj => by
    obtain ⟨hne, hj⟩ := List.nodup_range.mem_erase_iff.1 hj
    exact hother j (List.mem_range.1 hj) hne
  constructor
  · rw [← hr] at hown
    exact hown.perm (usedBlocks_perm hlt).symm
  · intro j hj ht
    by_cases hne : j = inum
    · subst hne
      exact hholes ht
    -- another inode: same dinode, same indirect blocks, so the same map
    have hd := hdin j hj hne
    have ht' : (dinodeAt sb d j).type ≠ 0 := hd ▸ ht
    have hl : ∀ q ∈ inodeIndirect d (inodeAt sb d j), d' q = d q := fun q hq =>
      hrest q (mem_restUsed hj hne (ownedBy_of_type ht' ▸ mem_inodeBlocks_of_mem_inodeIndirect hq))
    intro bn hbn
    rw [inodeAt_congr hd] at hbn ⊢
    rw [lookup_congr hl]
    exact hi.noHoles j hj ht' bn hbn

/-- A dinode written back over a change to inode `inum` alone: the other dinodes and the
blocks the other inodes own are still as they were. -/
theorem Inv.setDinodeAt_frame (hv : sb.Valid) (hi : Inv sb d) (hlt : inum < sb.ninodes)
    (x : Dinode) (hdin : ∀ j < sb.ninodes, j ≠ inum → dinodeAt sb d' j = dinodeAt sb d j)
    (hrest : ∀ q ∈ restUsed sb d inum, d' q = d q) :
    (∀ j < sb.ninodes, j ≠ inum → dinodeAt sb (setDinodeAt sb d' inum x) j = dinodeAt sb d j) ∧
      ∀ q ∈ restUsed sb d inum, setDinodeAt sb d' inum x q = d q := by
  refine ⟨fun j hj hne => ?_, fun q hq => ?_⟩
  · rw [dinodeAt_setDinodeAt_of_ne x hne, hdin j hj hne]
  · rw [setDinodeAt_of_ge hv hlt x (hi.nmeta_le_of_rest hlt hq), hrest q hq]

/-- **An inode written back.**  Writing the dinode `x` of inode `inum` over a disk `d'` on which
the other inodes' dinodes and blocks are as before keeps the invariant if `d'` owns the others'
blocks and those of `x`'s trees, with no hole below `x`'s size. -/
theorem Inv.write_dinode (hv : sb.Valid) (hi : Inv sb d) (hlt : inum < sb.ninodes) {x : Dinode}
    (hdin : ∀ j < sb.ninodes, j ≠ inum → dinodeAt sb d' j = dinodeAt sb d j)
    (hrest : ∀ q ∈ restUsed sb d inum, d' q = d q)
    (hown : Owns sb d' (restUsed sb d inum ++
      if x.type = 0 then [] else inodeBlocks d' (Inode.ofDinode inum x)))
    (hholes : x.type ≠ 0 → NoHoles d' (Inode.ofDinode inum x)) :
    Inv sb (setDinodeAt sb d' inum x) := by
  -- the indirect blocks of `x`'s trees are owned, so the dinode write does not reach them
  have hind : x.type ≠ 0 → ∀ q ∈ inodeIndirect d' (Inode.ofDinode inum x),
      setDinodeAt sb d' inum x q = d' q := fun ht q hq =>
    setDinodeAt_of_ge hv hlt x (hown.bounds q (List.mem_append_right _
      (by rw [if_neg ht]; exact mem_inodeBlocks_of_mem_inodeIndirect hq))).1
  have hx : ownedBy sb (setDinodeAt sb d' inum x) inum =
      if x.type = 0 then [] else inodeBlocks d' (Inode.ofDinode inum x) := by
    simp only [ownedBy, inodeAt, dinodeAt_setDinodeAt_self]
    split_ifs with ht
    · rfl
    · exact inodeBlocks_congr (hind ht)
  obtain ⟨hdin', hrest'⟩ := hi.setDinodeAt_frame hv hlt x hdin hrest
  refine hi.update_one hlt hdin' hrest' ?_ ?_
  · rw [hx]
    exact hown.write_dinode hv hlt x
  · simp only [inodeAt, dinodeAt_setDinodeAt_self]
    intro ht bn hbn
    rw [lookup_congr (hind ht)]
    exact hholes ht bn hbn

/-! ### The operations -/

section Operations

variable (hv : sb.Valid)
include hv

omit hv in
/-- The dinode `ialloc` takes is a free one below `ninodes`, from inode 1. -/
theorem ialloc_eq_ok {type : UInt16} (h : ialloc sb d type = .ok (inum, d')) :
    1 ≤ inum ∧ inum < sb.ninodes ∧ (dinodeAt sb d inum).type = 0 ∧
      d' = setDinodeAt sb d inum { Dinode.zero with type := type } := by
  unfold ialloc at h
  split at h
  · cases h
  · rename_i j hj
    obtain ⟨rfl, rfl⟩ := Prod.mk.inj (Except.ok.inj h)
    have hm := List.mem_range'_1.1 (List.mem_of_find?_eq_some hj)
    have hfree : (dinodeAt sb d j).type = 0 := by simpa using List.find?_some hj
    exact ⟨hm.1, by omega, hfree, rfl⟩

theorem ialloc_inv (hi : Inv sb d) {type : UInt16} (h : ialloc sb d type = .ok (inum, d')) :
    Inv sb d' := by
  obtain ⟨-, hlt, hfree, rfl⟩ := ialloc_eq_ok h
  have hown := hi.owns_split hlt
  rw [ownedBy_of_free hfree] at hown
  refine hi.write_dinode hv hlt (fun _ _ _ => rfl) (fun _ _ => rfl) ?_ ?_
  · -- a new inode has no addresses
    have hnil : inodeBlocks d (Inode.ofDinode inum { Dinode.zero with type := type }) = [] :=
      inodeBlocks_of_zero fun _ => rfl
    rw [hnil, ite_self]
    exact hown
  · intro _ bn hbn
    simp [Inode.ofDinode, Dinode.zero] at hbn

theorem iupdate_inv (hi : Inv sb d) (hlt : inum < sb.ninodes) (ht : (dinodeAt sb d inum).type ≠ 0)
    (major minor nlink : UInt16) :
    Inv sb (iupdate sb d { inodeAt sb d inum with major := major, minor := minor, nlink := nlink }) := by
  -- the type, size and addresses are those on the disk, so are the blocks and the map
  refine hi.write_dinode hv hlt (fun _ _ _ => rfl) (fun _ _ => rfl) ?_ fun _ => hi.noHoles inum hlt ht
  split_ifs with h0
  · exact absurd h0 ht
  · exact hi.owns_inode hlt ht

omit hv in
/-- After a write that starts inside a file with no holes, every block below the old size or
the end of the write is there. -/
theorem LoopResult.lookup_ne_zero {ip ip' : Inode} {R A : List ℕ} {lo hi : ℕ}
    {bytes : ℕ → UInt8} (w : LoopResult sb d d' ip ip' R A lo hi bytes) (hh : NoHoles d ip)
    (hlo : lo ≤ ip.size.toNat) {bn : ℕ} (hbn : bn * BSIZE < max ip.size.toNat hi) :
    lookup d' ip' bn ≠ 0 := by
  by_cases hin : bn * BSIZE < ip.size.toNat
  · -- below the old size the block was there, and the loop kept it
    rw [w.kept bn (hh bn hin)]
    exact hh bn hin
  · -- past the old size the write touches the block, and the loop filled it
    have hhi : bn * BSIZE < hi := by omega
    refine w.filled bn ⟨?_, hhi, by omega⟩
    rw [Nat.succ_mul]
    have := BSIZE_eq
    omega

section Write

variable (hi : Inv sb d) (hlt : inum < sb.ninodes) (ht : (dinodeAt sb d inum).type ≠ 0)
  {ip' : Inode} {A : List ℕ} {lo hi' : ℕ} {bytes : ℕ → UInt8}
include hi hlt ht

/-- The loop of a write writes no dinode: the blocks it writes are owned or the bitmap's. -/
theorem LoopResult.dinodeAt_eq
    (w : LoopResult sb d d' (inodeAt sb d inum) ip' (restUsed sb d inum) A lo hi' bytes)
    {j : ℕ} (hj : j < sb.ninodes) : dinodeAt sb d' j = dinodeAt sb d j := by
  have hlow : IBLOCK j sb < sb.nmeta :=
    Nat.lt_trans (hv.iblock_lt_bmapstart hj) hv.bmapstart_lt_nmeta
  refine dinodeAt_congr (w.frame _ ?_ ?_ (.inl (hv.iblock_lt_bmapstart hj)))
  · exact fun hq => (hi.owns_inode hlt ht).not_mem_of_lt hlow (List.mem_append_right _ hq)
  · exact fun hq => w.owns.not_mem_of_lt hlow
      (List.mem_append_right _ (w.perm.symm.subset (List.mem_append_right _ hq)))

omit hv in
/-- The loop of a write leaves the blocks the other inodes own. -/
theorem LoopResult.rest_eq
    (w : LoopResult sb d d' (inodeAt sb d inum) ip' (restUsed sb d inum) A lo hi' bytes)
    {q : ℕ} (hq : q ∈ restUsed sb d inum) : d' q = d q := by
  have hown := hi.owns_inode hlt ht
  refine w.frame q (fun h => hown.ne_of_mem hq h rfl) (fun h => ?_)
    (.inr (hown.bounds q (List.mem_append_left _ hq)).1)
  exact w.owns.ne_of_mem hq (w.perm.symm.subset (List.mem_append_right _ h)) rfl

/-- A write that ends inside the file: every block it touches is there, so the loop allocates
nothing, and the dinode is not written back. -/
theorem Inv.write_within
    (w : LoopResult sb d d' (inodeAt sb d inum) ip' (restUsed sb d inum) A lo hi' bytes)
    (hend : hi' ≤ (inodeAt sb d inum).size.toNat) : Inv sb d' := by
  obtain ⟨rfl, rfl⟩ := w.noalloc fun bn hbn =>
    hi.noHoles inum hlt ht bn (Nat.lt_of_lt_of_le hbn.2.1 hend)
  have hd := w.dinodeAt_eq hv hi hlt ht hlt
  refine hi.update_one hlt (fun j hj _ => w.dinodeAt_eq hv hi hlt ht hj)
    (fun q hq => w.rest_eq hi hlt ht hq) ?_ ?_
  · rw [ownedBy_of_type (hd ▸ ht), inodeAt_congr hd]
    exact w.owns
  · intro _ bn hbn
    rw [inodeAt_congr hd] at hbn ⊢
    rw [w.kept bn (hi.noHoles inum hlt ht bn hbn)]
    exact hi.noHoles inum hlt ht bn hbn

/-- A write past the end of the file: the blocks up to its end are mapped, and the inode is
written back with the new size. -/
theorem Inv.write_past_end
    (w : LoopResult sb d d' (inodeAt sb d inum) ip' (restUsed sb d inum) A lo hi' bytes)
    (hlo : lo ≤ (inodeAt sb d inum).size.toNat) (hfit : hi' < 2 ^ 32) :
    Inv sb (iupdate sb d' { ip' with size := hi'.toUInt32 }) := by
  obtain ⟨a, rfl⟩ : ∃ a, ip' = { inodeAt sb d inum with addrs := a } := ⟨_, w.fields⟩
  have hsize : (hi'.toUInt32).toNat = hi' := by simp; omega
  refine hi.write_dinode hv hlt (fun j hj _ => w.dinodeAt_eq hv hi hlt ht hj)
    (fun q hq => w.rest_eq hi hlt ht hq) ?_ ?_
  · split_ifs with h0
    · exact absurd h0 ht
    · exact w.owns
  · intro _ bn hbn
    change lookup d' { inodeAt sb d inum with addrs := a } bn ≠ 0
    simp only [Inode.ofDinode, Inode.toDinode, hsize] at hbn
    exact w.lookup_ne_zero (hi.noHoles inum hlt ht) hlo (Nat.lt_of_lt_of_le hbn (le_max_right _ _))

end Write

theorem writei_inv (hi : Inv sb d) (hlt : inum < sb.ninodes) (ht : (dinodeAt sb d inum).type ≠ 0)
    {src : ℕ → UInt8} {off n : UInt32} {r : ℤ} {ip'' : Inode}
    (h : writei sb d (inodeAt sb d inum) src off n = .ok (r, d', ip'')) : Inv sb d' := by
  rcases writei_cases h with rfl | ⟨hdev, hoff, hmax⟩
  · exact hi
  rcases writei_spec hv (hi.owns_inode hlt ht) hdev hoff hmax with he | ⟨d₁, ip', A, w, hw⟩
  · rw [he] at h
    cases h
  rw [hw] at h
  have hoff' := UInt32.le_iff_toNat_le.1 hoff
  split_ifs at h with hg
  · simp only [Except.ok.injEq, Prod.mk.injEq] at h
    obtain ⟨-, rfl, -⟩ := h
    exact hi.write_past_end hv hlt ht w hoff' (Nat.lt_of_le_of_lt hmax MAXFILE_mul_BSIZE_lt)
  · simp only [Except.ok.injEq, Prod.mk.injEq] at h
    obtain ⟨-, rfl, -⟩ := h
    exact hi.write_within hv hlt ht w (Nat.le_of_not_lt hg)

/-- What `iput` of an allocated inode without links leaves on the disk: its blocks freed, then
its dinode freed, and nothing else. -/
theorem iput_eq (hi : Inv sb d) (hlt : inum < sb.ninodes) (ht : (dinodeAt sb d inum).type ≠ 0)
    (hn : (inodeAt sb d inum).nlink = 0) :
    ∃ d₁, iput sb d (inodeAt sb d inum) = .ok (iupdate sb (iupdate sb d₁ (truncated (inodeAt sb d inum)))
        { truncated (inodeAt sb d inum) with type := 0 }, { truncated (inodeAt sb d inum) with type := 0 }) ∧
      (∀ x, bitAt sb d₁ x = (bitAt sb d x && !decide (x ∈ ownedBy sb d inum))) ∧
      (∀ q, (q < sb.bmapstart ∨ sb.nmeta ≤ q) → d₁ q = d q) ∧ Owns sb d₁ (restUsed sb d inum) := by
  rw [ownedBy_of_type ht]
  exact iput_spec hv (hi.owns_inode hlt ht) hn

/-- The frees of `iput` and the write of the truncated inode leave the other dinodes and the
blocks the other inodes own. -/
theorem iput_frame (hi : Inv sb d) (hlt : inum < sb.ninodes) {d₁ : Disk}
    (hframe : ∀ q, (q < sb.bmapstart ∨ sb.nmeta ≤ q) → d₁ q = d q) :
    (∀ j < sb.ninodes, j ≠ inum →
      dinodeAt sb (iupdate sb d₁ (truncated (inodeAt sb d inum))) j = dinodeAt sb d j) ∧
      ∀ q ∈ restUsed sb d inum, iupdate sb d₁ (truncated (inodeAt sb d inum)) q = d q := by
  have hinum : (truncated (inodeAt sb d inum)).inum = inum := rfl
  refine ⟨fun j hj hne => ?_, fun q hq => ?_⟩
  · rw [iupdate, hinum, dinodeAt_setDinodeAt_of_ne _ hne,
      dinodeAt_congr (hframe _ (.inl (hv.iblock_lt_bmapstart hj)))]
  · have hq' := hi.nmeta_le_of_rest hlt hq
    rw [iupdate, hinum, setDinodeAt_of_ge hv hlt _ hq',
      hframe q (.inr hq')]

theorem iput_inv (hi : Inv sb d) (hlt : inum < sb.ninodes) (ht : (dinodeAt sb d inum).type ≠ 0)
    {ip' : Inode} (h : iput sb d (inodeAt sb d inum) = .ok (d', ip')) : Inv sb d' := by
  by_cases hn : (inodeAt sb d inum).nlink = 0
  · obtain ⟨d₁, hput, -, hframe, hown⟩ := iput_eq hv hi hlt ht hn
    rw [hput] at h
    obtain ⟨rfl, -⟩ := Prod.mk.inj (Except.ok.inj h)
    -- freeing writes only the bitmap, then the two `iupdate`s only the dinode
    obtain ⟨hdin, hrest⟩ := iput_frame hv hi hlt hframe
    refine hi.write_dinode hv hlt hdin hrest ?_ (fun h0 => absurd rfl h0)
    · split_ifs with h0
      · rw [List.append_nil]
        exact hown.write_dinode hv hlt _
      · exact absurd rfl h0
  · rw [iput, if_neg hn] at h
    obtain ⟨rfl, -⟩ := Prod.mk.inj (Except.ok.inj h)
    exact hi

/-- **Every operation keeps the invariant.** -/
theorem fsStep_inv (hi : Inv sb d) {e : FsEvent} (h : fsStep sb d e = .ok d') : Inv sb d' := by
  cases e with
  | ialloc type =>
    obtain ⟨⟨inum, d₁⟩, ha, rfl⟩ := Except.map_eq_ok.1 h
    exact ialloc_inv hv hi ha
  | writei inum src off n =>
    rcases guarded_ilock_eq_ok h with rfl | ⟨hlt, ht, h⟩
    · exact hi
    · obtain ⟨⟨r, d₁, ip'⟩, hw, h⟩ := Except.bind_eq_ok.1 h
      cases h
      exact writei_inv hv hi hlt ht hw
  | iupdate inum major minor nlink =>
    rcases guarded_ilock_eq_ok h with rfl | ⟨hlt, ht, h⟩
    · exact hi
    · cases h
      exact iupdate_inv hv hi hlt ht major minor nlink
  | iput inum =>
    rcases guarded_ilock_eq_ok h with rfl | ⟨hlt, ht, h⟩
    · exact hi
    · obtain ⟨⟨d₁, ip'⟩, hp, h⟩ := Except.bind_eq_ok.1 h
      cases h
      exact iput_inv hv hi hlt ht hp

theorem Inv.of_reach {d₀ : Disk} (h₀ : Inv sb d₀) (hr : Machine.Reach (fsStep sb) d₀ d) : Inv sb d :=
  hr.invariant h₀ fun _ _ _ hi hs => fsStep_inv hv hi hs

/-- The `iput` of an allocated inode without links succeeds, and clears the bits of exactly its
blocks. -/
theorem fsStep_iput (hi : Inv sb d) (hlt : inum < sb.ninodes) (ht : (dinodeAt sb d inum).type ≠ 0)
    (hn : (dinodeAt sb d inum).nlink = 0) :
    ∃ d', fsStep sb d (.iput inum) = .ok d' ∧
      ∀ x, bitAt sb d' x = (bitAt sb d x && !decide (x ∈ ownedBy sb d inum)) := by
  obtain ⟨d₁, hput, hbits, -, -⟩ := iput_eq hv hi hlt ht hn
  refine ⟨iupdate sb (iupdate sb d₁ (truncated (inodeAt sb d inum)))
    { truncated (inodeAt sb d inum) with type := 0 }, ?_, fun x => ?_⟩
  · rw [fsStep, if_pos hlt, ilock_of_type ht, except_ok_bind, hput]
    rfl
  · -- the two `iupdate`s write below the bitmap
    exact (bitAt_setDinodeAt hv hlt _ x).trans ((bitAt_setDinodeAt hv hlt _ x).trans (hbits x))

end Operations

/-- **Block ownership.**  From an image that satisfies the invariant, every state that a run of
`ialloc`, `writei`, `iupdate` and `iput` reaches satisfies it: the bitmap marks exactly the
metadata blocks and the blocks the allocated inodes reach, no block is reached twice, from one
inode or from two, and every nonzero entry of an indirect block of an inode is a block of that
inode.  So the `iput` of an allocated inode without links frees no free block, and clears the
bits of exactly that inode's blocks. -/
theorem block_ownership (hv : sb.Valid) {d₀ : Disk} (h₀ : Inv sb d₀)
    (hr : Machine.Reach (fsStep sb) d₀ d) :
    Inv sb d ∧
      (∀ x < sb.size, bitAt sb d x = true ↔ x < sb.nmeta ∨ x ∈ usedBlocks sb d) ∧
      (usedBlocks sb d).Nodup ∧
      (∀ i < sb.ninodes, ∀ j < sb.ninodes, ∀ q, q ∈ ownedBy sb d i → q ∈ ownedBy sb d j → i = j) ∧
      (∀ inum < sb.ninodes, (dinodeAt sb d inum).type ≠ 0 →
        ∀ q ∈ inodeIndirect d (inodeAt sb d inum), ∀ j < NINDIRECT, entry d q j ≠ 0 →
          entry d q j ∈ ownedBy sb d inum) ∧
      (∀ inum < sb.ninodes, (dinodeAt sb d inum).type ≠ 0 → (dinodeAt sb d inum).nlink = 0 →
        ∃ d', fsStep sb d (.iput inum) = .ok d' ∧
          ∀ x, bitAt sb d' x = (bitAt sb d x && !decide (x ∈ ownedBy sb d inum))) := by
  have hi := Inv.of_reach hv h₀ hr
  refine ⟨hi, hi.owns.bits, hi.owns.nodup, fun i hi' j hj q hqi hqj => ?_,
    fun inum _ ht q hq j hj he => ?_, fun inum hlt ht hn => fsStep_iput hv hi hlt ht hn⟩
  · exact eq_of_mem_flatMap hi.owns.nodup (List.mem_range.2 hi') (List.mem_range.2 hj) hqi hqj
  · rw [ownedBy_of_type ht]
    exact entry_mem_inodeBlocks hq hj he

/-! ### The image mkfs lays out -/

/-- `FSSIZE` (`param.h`): the size of the file system, in blocks. -/
def FSSIZE : ℕ := 50000

/-- `LOGSIZE` (`param.h`): `MAXOPBLOCKS * 3`, with `MAXOPBLOCKS = 10`. -/
def LOGSIZE : ℕ := 10 * 3

/-- `NINODES` (`mkfs.c`). -/
def NINODES : ℕ := 200

/-- The superblock mkfs writes: the boot and super blocks, `nlog` log blocks, `ninodeblocks`
inode blocks and `nbitmap` bitmap blocks, then the data blocks. -/
def mkfsSuperblock : Superblock :=
  let nbitmap := FSSIZE / (BSIZE * 8) + 1
  let ninodeblocks := NINODES / IPB + 1
  let nlog := LOGSIZE
  let nmeta := 2 + nlog + ninodeblocks + nbitmap
  { size := FSSIZE, nblocks := FSSIZE - nmeta, ninodes := NINODES, inodestart := 2 + nlog,
    bmapstart := 2 + nlog + ninodeblocks }

/-- mkfs's `balloc(used)`: the bitmap block with the bits of blocks `[0, used)` set. -/
def mkfsBitmap (used : ℕ) : Block := (List.range used).foldl setBit zeroBlock

/-- The image mkfs lays out before it creates the root directory: every block zeroed, then
the bitmap block of `balloc(nmeta)`.  The superblock's own block is not read by the model. -/
def emptyImage (sb : Superblock) : Disk :=
  Function.update (fun _ => zeroBlock) sb.bmapstart (mkfsBitmap sb.nmeta)

theorem mkfsSuperblock_valid : mkfsSuperblock.Valid := ⟨by decide, by decide, by decide⟩

theorem getBit_mkfsBitmap (used i : ℕ) : getBit (mkfsBitmap used) i = decide (i < used) := by
  induction used with
  | zero => simp [mkfsBitmap, zeroBlock_eq]
  | succ u ih =>
    rw [mkfsBitmap, List.range_succ, List.foldl_append, List.foldl_cons, List.foldl_nil,
      ← mkfsBitmap, getBit_setBit, ih]
    by_cases h : i = u
    · simp [h]
    · simp only [h, decide_false, Bool.false_or, decide_eq_decide]
      omega

/-- The layout of mkfs satisfies the invariant: no inode is allocated, and the bitmap marks
the metadata blocks, which its first block covers. -/
theorem emptyImage_inv (hv : sb.Valid) (hmeta : sb.nmeta < BPB) : Inv sb (emptyImage sb) := by
  -- every dinode lies in a zeroed block, so every inode is free
  have hfree : ∀ j < sb.ninodes, (dinodeAt sb (emptyImage sb) j).type = 0 := fun j hj => by
    rw [dinodeAt, emptyImage, Function.update_of_ne (hv.iblock_lt_bmapstart hj).ne]
    simp [getDinode, zeroBlock_eq]
  have hused : usedBlocks sb (emptyImage sb) = [] :=
    List.flatMap_eq_nil_iff.2 fun j hj => ownedBy_of_free (hfree j (List.mem_range.1 hj))
  refine ⟨?_, fun j hj ht => absurd (hfree j hj) ht⟩
  rw [hused]
  refine ⟨List.nodup_nil, fun q hq => absurd hq List.not_mem_nil, fun x hx => ?_⟩
  rw [List.mem_nil_iff, or_false, bitAt, emptyImage, BBLOCK]
  by_cases hlow : x < BPB
  · rw [Nat.div_eq_of_lt hlow, zero_add, Function.update_self, getBit_mkfsBitmap,
      Nat.mod_eq_of_lt hlow, decide_eq_true_iff]
  · -- the other bitmap blocks are zero, and every block they cover is a data block
    have := Nat.div_pos (Nat.le_of_not_lt hlow) (by decide : 0 < BPB)
    rw [Function.update_of_ne (by omega)]
    simp only [zeroBlock_eq, getBit_zero, Bool.false_eq_true, false_iff]
    omega

theorem block_ownership_emptyImage :
    mkfsSuperblock.Valid ∧ Inv mkfsSuperblock (emptyImage mkfsSuperblock) ∧
      (Inv mkfsSuperblock (emptyImage mkfsSuperblock) ∧
      (∀ x < mkfsSuperblock.size, bitAt mkfsSuperblock (emptyImage mkfsSuperblock) x = true ↔
        x < mkfsSuperblock.nmeta ∨ x ∈ usedBlocks mkfsSuperblock (emptyImage mkfsSuperblock)) ∧
      (usedBlocks mkfsSuperblock (emptyImage mkfsSuperblock)).Nodup ∧
      (∀ i < mkfsSuperblock.ninodes, ∀ j < mkfsSuperblock.ninodes, ∀ q,
        q ∈ ownedBy mkfsSuperblock (emptyImage mkfsSuperblock) i →
        q ∈ ownedBy mkfsSuperblock (emptyImage mkfsSuperblock) j → i = j) ∧
      (∀ inum < mkfsSuperblock.ninodes, (dinodeAt mkfsSuperblock (emptyImage mkfsSuperblock) inum).type ≠ 0 →
        ∀ q ∈ inodeIndirect (emptyImage mkfsSuperblock) (inodeAt mkfsSuperblock (emptyImage mkfsSuperblock) inum),
        ∀ j < NINDIRECT, entry (emptyImage mkfsSuperblock) q j ≠ 0 →
          entry (emptyImage mkfsSuperblock) q j ∈ ownedBy mkfsSuperblock (emptyImage mkfsSuperblock) inum) ∧
      (∀ inum < mkfsSuperblock.ninodes, (dinodeAt mkfsSuperblock (emptyImage mkfsSuperblock) inum).type ≠ 0 →
        (dinodeAt mkfsSuperblock (emptyImage mkfsSuperblock) inum).nlink = 0 →
        ∃ d', fsStep mkfsSuperblock (emptyImage mkfsSuperblock) (.iput inum) = .ok d' ∧
          ∀ x, bitAt mkfsSuperblock d' x = (bitAt mkfsSuperblock (emptyImage mkfsSuperblock) x &&
            !decide (x ∈ ownedBy mkfsSuperblock (emptyImage mkfsSuperblock) inum)))) :=
  have h₀ := emptyImage_inv mkfsSuperblock_valid (by decide)
  ⟨mkfsSuperblock_valid, h₀, block_ownership mkfsSuperblock_valid h₀ .refl⟩

end Xv6Kernel
