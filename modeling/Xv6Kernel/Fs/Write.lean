import Xv6Kernel.Fs.BlockMap

/-!
# The loop of `writei`

Each turn of the loop finds the block of `off / BSIZE` with `bmap`, which may allocate, and
copies `m = min(n - tot, BSIZE - off % BSIZE)` bytes of `src` into it.  `writeLoop_spec` says
what the whole loop does, from `tot` to `n`, over the byte range `[off, off + (n - tot))`
(`LoopResult`):

* the inode's blocks grow by the blocks allocated, and the disk still owns them;
* only the bitmap, the inode's blocks and the new blocks are written;
* no file block moves, and every file block holding a byte of the range is there afterwards;
* the file's bytes in the range are those of `src`, and its other bytes in blocks that were
  there are unchanged;
* when every block of the range was there, nothing is allocated.

One turn is `loopResult_step`: `bmap_spec`, then the write of one data block
(`write_data_block`), then the rest of the loop.
-/

namespace Xv6Kernel

variable {sb : Superblock}

/-! ### Offsets within a block -/

/-- The bytes of a chunk `[off, off + m)` that fits in the block of `off` lie in that block. -/
theorem div_eq_of_chunk {off m k : ℕ} (hm : m ≤ BSIZE - off % BSIZE) (h₁ : off ≤ k)
    (h₂ : k < off + m) : k / BSIZE = off / BSIZE := by
  rw [BSIZE_eq] at *
  omega

/-- Within the block of `off`, the bytes `memmove` writes at `off % BSIZE` are the file bytes
from `off`. -/
theorem copy_in_block {blk f : ℕ → UInt8} {off m k : ℕ} (hk : k / BSIZE = off / BSIZE) :
    Bytes.copy blk (off % BSIZE) f m (k % BSIZE) =
      if off ≤ k ∧ k < off + m then f (k - off) else blk (k % BSIZE) := by
  have h₁ : (off % BSIZE ≤ k % BSIZE ∧ k % BSIZE < off % BSIZE + m) ↔ (off ≤ k ∧ k < off + m) := by
    rw [BSIZE_eq] at *
    omega
  have h₂ : off ≤ k → k % BSIZE - off % BSIZE = k - off := by
    rw [BSIZE_eq] at *
    omega
  unfold Bytes.copy
  by_cases h : off ≤ k ∧ k < off + m
  · rw [if_pos (h₁.2 h), if_pos h, h₂ h.1]
  · rw [if_neg (mt h₁.1 h), if_neg h]

/-- A block that holds bytes of `[off, hi)` but none of `[off + m, hi)` is the block of `off`. -/
theorem touches_first {off m hi bn : ℕ} (hm : m ≤ BSIZE - off % BSIZE) (h : touches off hi bn)
    (hn : ¬ touches (off + m) hi bn) : bn = off / BSIZE := by
  simp only [touches, not_and_or, not_lt] at h hn
  rw [BSIZE_eq] at *
  omega

/-! ### Writing one data block -/

variable {d d' : Disk} {ip ip' : Inode} {R A : List ℕ}

/-- **Writing a data block of the inode**: the block map and the ownership stay, and the
file's bytes change in that block only. -/
theorem write_data_block (hv : sb.Valid) (blk : Block) {bn b : ℕ}
    (hown : Owns sb d (R ++ inodeBlocks d ip)) (hb : lookup d ip bn = b) (hb0 : b ≠ 0) :
    inodeBlocks (Function.update d b blk) ip = inodeBlocks d ip ∧
      (∀ bn', lookup (Function.update d b blk) ip bn' = lookup d ip bn') ∧
      Owns sb (Function.update d b blk) (R ++ inodeBlocks d ip) ∧
      ∀ k, fileByte (Function.update d b blk) ip k =
        if k / BSIZE = bn then blk (k % BSIZE) else fileByte d ip k := by
  have hnd : (inodeBlocks d ip).Nodup := (List.nodup_append.1 hown.nodup).2.1
  have hdata : b ∈ inodeData d ip := hb ▸ lookup_mem_inodeData (hb ▸ hb0)
  have hmeta : sb.nmeta ≤ b :=
    (hown.bounds b (List.mem_append_right _ (mem_inodeBlocks_of_mem_inodeData hdata))).1
  -- the block is a data block, so no indirect block changes
  have hind : ∀ q ∈ inodeIndirect d ip, Function.update d b blk q = d q := fun q hq =>
    Function.update_of_ne (fun h : q = b => not_mem_inodeIndirect hnd hdata (h ▸ hq)) _ _
  refine ⟨inodeBlocks_congr hind, lookup_congr hind, hown.of_bits fun x hx => ?_, fun k => ?_⟩
  · have := hv.bblock_mem hx
    exact bitAt_update_of_ne (by omega)
  · unfold fileByte
    rw [lookup_congr hind]
    by_cases hk : k / BSIZE = bn
    · rw [hk, hb, Function.update_self, if_pos rfl]
    · -- another file block lies in another disk block
      have hne : lookup d ip (k / BSIZE) ≠ b := fun h =>
        hk (lookup_inj hnd (h ▸ hb0) (h.trans hb.symm))
      rw [Function.update_of_ne hne, if_neg hk]

/-! ### The loop -/

/-- What the loop of `writei` does from `d` and `ip` to `d'` and `ip'` over the byte range
`[lo, hi)`, writing `bytes k` at `k`: `R` are the blocks owned elsewhere and `A` the blocks it
allocates. -/
structure LoopResult (sb : Superblock) (d d' : Disk) (ip ip' : Inode) (R A : List ℕ)
    (lo hi : ℕ) (bytes : ℕ → UInt8) : Prop where
  perm : (inodeBlocks d' ip').Perm (inodeBlocks d ip ++ A)
  owns : Owns sb d' (R ++ inodeBlocks d' ip')
  frame : ∀ q, q ∉ inodeBlocks d ip → q ∉ A → (q < sb.bmapstart ∨ sb.nmeta ≤ q) → d' q = d q
  fields : ip' = { ip with addrs := ip'.addrs }
  kept : ∀ bn, lookup d ip bn ≠ 0 → lookup d' ip' bn = lookup d ip bn
  filled : ∀ bn, touches lo hi bn → lookup d' ip' bn ≠ 0
  written : ∀ k, lo ≤ k → k < hi → fileByte d' ip' k = bytes k
  untouched : ∀ k, (k < lo ∨ hi ≤ k) → lookup d ip (k / BSIZE) ≠ 0 → fileByte d' ip' k = fileByte d ip k
  noalloc : (∀ bn, touches lo hi bn → lookup d ip bn ≠ 0) → ip' = ip ∧ A = []

theorem loopResult_done (h : Owns sb d (R ++ inodeBlocks d ip)) (lo : ℕ) (bytes : ℕ → UInt8) :
    LoopResult sb d d ip ip R [] lo lo bytes where
  perm := by simp
  owns := h
  frame _ _ _ _ := rfl
  fields := rfl
  kept _ _ := rfl
  filled _ h := absurd h.2.2 (lt_irrefl lo)
  written _ h₁ h₂ := absurd h₂ (by omega)
  untouched _ _ _ := rfl
  noalloc _ := ⟨rfl, rfl⟩

theorem Inode.with_addrs_trans {ip₀ ip₁ ip₂ : Inode} (h₁ : ip₁ = { ip₀ with addrs := ip₁.addrs })
    (h₂ : ip₂ = { ip₁ with addrs := ip₂.addrs }) : ip₂ = { ip₀ with addrs := ip₂.addrs } := by
  rw [h₂]
  conv_lhs => rw [h₁]

/-- **One turn of the loop**: `bmap` finds block `b` for the block of `off`, `m` bytes are
copied into it, and the rest of the loop does the rest of the range. -/
theorem loopResult_step (hv : sb.Valid) {d₁ d' : Disk} {ip₁ : Inode} {A₁ A₂ : List ℕ}
    {off m hi b : ℕ} {bytes bytes₂ src : ℕ → UInt8} (hpre : Owns sb d (R ++ inodeBlocks d ip))
    (w : BmapResult sb d d₁ ip ip₁ (off / BSIZE) b R A₁) (hm : 0 < m)
    (hmle : m ≤ BSIZE - off % BSIZE) (hhi : off + m ≤ hi)
    (hsrc : ∀ x < m, src x = bytes (off + x))
    (hb₂ : ∀ k, off + m ≤ k → k < hi → bytes₂ k = bytes k)
    (L : LoopResult sb (Function.update d₁ b (Bytes.copy (d₁ b) (off % BSIZE) src m)) d' ip₁ ip'
      R A₂ (off + m) hi bytes₂) :
    LoopResult sb d d' ip ip' R (A₁ ++ A₂) off hi bytes := by
  set d₂ := Function.update d₁ b (Bytes.copy (d₁ b) (off % BSIZE) src m)
  obtain ⟨hB₂, hL₂, -, hF₂⟩ := write_data_block hv (Bytes.copy (d₁ b) (off % BSIZE) src m)
    w.owns w.found w.found_ne
  -- the bytes of the block of `off` written in this turn
  have hF : ∀ k, fileByte d₂ ip₁ k =
      if off ≤ k ∧ k < off + m then bytes k else fileByte d₁ ip₁ k := fun k => by
    rw [hF₂]
    by_cases hk : k / BSIZE = off / BSIZE
    · rw [if_pos hk, copy_in_block hk]
      unfold fileByte
      split_ifs with h
      · rw [hsrc _ (by omega), Nat.add_sub_cancel' h.1]
      · rw [hk, w.found]
    · rw [if_neg hk, if_neg fun h => hk (div_eq_of_chunk hmle h.1 h.2)]
  have hb_mem : b ∈ inodeBlocks d₁ ip₁ :=
    mem_inodeBlocks_of_mem_inodeData (w.found ▸ lookup_mem_inodeData (w.found ▸ w.found_ne))
  have hlk : ∀ bn, lookup d ip bn ≠ 0 → lookup d₂ ip₁ bn = lookup d ip bn := fun bn h => by
    rw [hL₂, w.lookup_kept h]
  refine ⟨?_, L.owns, ?_, Inode.with_addrs_trans w.fields L.fields, ?_, ?_, ?_, ?_, ?_⟩
  · -- perm
    rw [← List.append_assoc]
    exact L.perm.trans (by rw [hB₂]; exact w.perm.append_right A₂)
  · -- frame
    intro q hq hA hbm
    have hqA₁ : q ∉ A₁ := fun h => hA (List.mem_append_left _ h)
    have hq₁ : q ∉ inodeBlocks d₁ ip₁ := fun h => by
      rcases List.mem_append.1 (w.perm.subset h) with h | h
      · exact hq h
      · exact hqA₁ h
    rw [L.frame q (by rw [hB₂]; exact hq₁) (fun h => hA (List.mem_append_right _ h)) hbm,
      show d₂ q = d₁ q from Function.update_of_ne (fun h : q = b => hq₁ (h ▸ hb_mem)) _ _,
      w.frame q (fun h => hq (mem_inodeBlocks_of_mem_inodeIndirect h)) hqA₁ hbm]
  · -- kept
    intro bn h
    rw [L.kept bn (by rw [hlk bn h]; exact h), hlk bn h]
  · -- filled
    intro bn ht
    by_cases ht₂ : touches (off + m) hi bn
    · exact L.filled bn ht₂
    · obtain rfl := touches_first hmle ht ht₂
      have h₂ : lookup d₂ ip₁ (off / BSIZE) = b := by rw [hL₂, w.found]
      rw [L.kept _ (by rw [h₂]; exact w.found_ne), h₂]
      exact w.found_ne
  · -- written
    intro k h₁ h₂
    by_cases hk : off + m ≤ k
    · rw [L.written k hk h₂, hb₂ k hk h₂]
    · have hblk : k / BSIZE = off / BSIZE := div_eq_of_chunk hmle h₁ (by omega)
      have hne : lookup d₂ ip₁ (k / BSIZE) ≠ 0 := by rw [hL₂, hblk, w.found]; exact w.found_ne
      rw [L.untouched k (.inl (by omega)) hne, hF, if_pos ⟨h₁, by omega⟩]
  · -- untouched
    intro k hk h0
    have hne : lookup d₂ ip₁ (k / BSIZE) ≠ 0 := by rw [hlk _ h0]; exact h0
    rw [L.untouched k (by omega) hne, hF, if_neg (by omega), w.fileByte_kept hpre h0]
  · -- noalloc
    intro hall
    have hfirst : touches off hi (off / BSIZE) := by
      simp only [touches]
      rw [BSIZE_eq] at *
      omega
    obtain ⟨rfl, rfl, -, rfl⟩ := w.present (hall _ hfirst)
    obtain ⟨rfl, rfl⟩ := L.noalloc fun bn ht => by
      have ht' : touches off hi bn := ⟨by have := ht.1; omega, ht.2.1, by have := ht.2.2; omega⟩
      rw [hL₂]
      exact hall bn ht'
    exact ⟨rfl, rfl⟩

/-- **What the loop of `writei` does** from `tot` to `n`, at file offset `off`, on a disk that
owns the blocks `R` and the inode's blocks.  The induction follows the loop's own recursion,
on the bytes left. -/
theorem writeLoop_spec (hv : sb.Valid) (src : ℕ → UInt8) (n : ℕ) (d : Disk) (ip : Inode)
    (tot off : ℕ) {d' : Disk} {ip' : Inode} {off' : ℕ} (hpre : Owns sb d (R ++ inodeBlocks d ip))
    (h : writeLoop sb src n d ip tot off = .ok (d', ip', off')) :
    off' = off + (n - tot) ∧ ∃ A, LoopResult sb d d' ip ip' R A off (off + (n - tot))
      (fun k => src (tot + (k - off))) := by
  rw [writeLoop] at h
  split_ifs at h with htn
  · obtain ⟨⟨b, d₁, ip₁⟩, hb, h⟩ := Except.bind_eq_ok.1 h
    obtain ⟨A₁, w⟩ := bmap_spec hv hpre hb
    have hm := chunk_pos off htn
    have hmle : min (n - tot) (BSIZE - off % BSIZE) ≤ BSIZE - off % BSIZE := min_le_right _ _
    have hmn : min (n - tot) (BSIZE - off % BSIZE) ≤ n - tot := min_le_left _ _
    obtain ⟨hB₂, -, hown₂, -⟩ := write_data_block hv
      (Bytes.copy (d₁ b) (off % BSIZE) (fun x => src (tot + x)) (min (n - tot) (BSIZE - off % BSIZE)))
      w.owns w.found w.found_ne
    obtain ⟨hoff, A₂, L⟩ := writeLoop_spec hv src n _ ip₁ _ _ (by rw [hB₂]; exact hown₂) h
    have hhi : off + min (n - tot) (BSIZE - off % BSIZE) +
        (n - (tot + min (n - tot) (BSIZE - off % BSIZE))) = off + (n - tot) := by omega
    rw [hhi] at L hoff
    refine ⟨hoff, A₁ ++ A₂, loopResult_step hv hpre w hm hmle (by omega) (fun x _ => ?_)
      (fun k hk _ => ?_) L⟩
    · simp
    · congr 1
      omega
  · obtain ⟨rfl, rfl, rfl⟩ : d = d' ∧ ip = ip' ∧ off = off' := by simpa using h
    have hnt : n - tot = 0 := by omega
    rw [hnt, Nat.add_zero]
    exact ⟨rfl, [], loopResult_done hpre off _⟩
termination_by n - tot
decreasing_by
  have := chunk_pos off htn
  omega

/-- A `bmap` of the block of offset `off` fails out of range only from `MAXFILE * BSIZE` on. -/
theorem bmap_off_error {off : ℕ} {e : String} (h : bmap sb d ip (off / BSIZE) = .error e) :
    e = "bmap: out of range" ∧ MAXFILE * BSIZE ≤ off ∨ e = "balloc: out of blocks" := by
  rcases bmap_error h with ⟨rfl, hmax⟩ | rfl
  · have h₁ : off / BSIZE * BSIZE ≤ off := Nat.div_mul_le_self off BSIZE
    have h₂ : MAXFILE * BSIZE ≤ off / BSIZE * BSIZE := Nat.mul_le_mul_right _ hmax
    exact .inl ⟨rfl, by omega⟩
  · exact .inr rfl

/-- The loop fails only when `bmap` does. -/
theorem writeLoop_error (src : ℕ → UInt8) (n : ℕ) (d : Disk) (ip : Inode) (tot off : ℕ) {e : String}
    (h : writeLoop sb src n d ip tot off = .error e) :
    e = "bmap: out of range" ∧ MAXFILE * BSIZE < off + (n - tot) ∨ e = "balloc: out of blocks" := by
  rw [writeLoop] at h
  split_ifs at h with htn
  · cases hb : bmap sb d ip (off / BSIZE) with
    | error e' =>
      rw [hb] at h
      cases h
      rcases bmap_off_error hb with ⟨rfl, hmax⟩ | rfl
      · exact .inl ⟨rfl, by omega⟩
      · exact .inr rfl
    | ok r =>
      obtain ⟨b, d₁, ip₁⟩ := r
      rw [hb] at h
      rcases writeLoop_error src n _ ip₁ _ _ h with ⟨rfl, hmax⟩ | rfl
      · have := chunk_pos off htn
        exact .inl ⟨rfl, by omega⟩
      · exact .inr rfl
termination_by n - tot
decreasing_by
  have := chunk_pos off htn
  omega

/-! ### `writei` -/

theorem MAXFILE_mul_BSIZE_lt : MAXFILE * BSIZE < 2 ^ 32 := by
  rw [MAXFILE_eq, BSIZE_eq]
  decide

/-- **What `writei` does** to a file (not a device) at an offset within it, for a write that
ends by `MAXFILE` blocks: it fails only when the disk is full, and otherwise returns `n`, after
the loop over `[off, off + n)`; the inode is written back with the new size when the file
grew. -/
theorem writei_spec (hv : sb.Valid) {src : ℕ → UInt8} {off n : UInt32}
    (hpre : Owns sb d (R ++ inodeBlocks d ip)) (hdev : ip.type ≠ T_DEV) (hoff : off ≤ ip.size)
    (hmax : off.toNat + n.toNat ≤ MAXFILE * BSIZE) :
    writei sb d ip src off n = .error "balloc: out of blocks" ∨
      ∃ d' ip' A, LoopResult sb d d' ip ip' R A off.toNat (off.toNat + n.toNat)
          (fun k => src (0 + (k - off.toNat))) ∧
        writei sb d ip src off n = .ok (n.toNat,
          if ip.size.toNat < off.toNat + n.toNat then
            (iupdate sb d' { ip' with size := (off.toNat + n.toNat).toUInt32 },
              { ip' with size := (off.toNat + n.toNat).toUInt32 })
          else (d', ip')) := by
  have hlt := MAXFILE_mul_BSIZE_lt
  have hwrap : ¬ off + n < off := by
    rw [UInt32.lt_iff_toNat_lt, UInt32.toNat_add, Nat.mod_eq_of_lt (by omega)]
    omega
  have hgt : ¬ off > ip.size := fun h => absurd hoff (UInt32.not_le.2 h)
  have hmax' : ¬ off.toNat + n.toNat > MAXFILE * BSIZE := by omega
  cases hl : writeLoop sb src n.toNat d ip 0 off.toNat with
  | error e =>
    left
    rcases writeLoop_error src n.toNat d ip 0 off.toNat hl with ⟨-, h⟩ | rfl
    · omega
    · simp [writei, hdev, hgt, hwrap, hmax', hl]
  | ok r =>
    obtain ⟨d', ip', off'⟩ := r
    obtain ⟨rfl, A, L⟩ := writeLoop_spec hv src n.toNat d ip 0 off.toNat hpre hl
    right
    refine ⟨d', ip', A, by simpa using L, ?_⟩
    have hsize : ip'.size = ip.size := by rw [L.fields]
    -- the size grows exactly when the write ends past it, and then `n > 0`
    have hgrow : (0 < n ∧ ip'.size.toNat < off.toNat + (n.toNat - 0)) ↔
        ip.size.toNat < off.toNat + n.toNat := by
      rw [hsize, UInt32.lt_iff_toNat_lt, UInt32.toNat_zero, Nat.sub_zero]
      have := UInt32.le_iff_toNat_le.1 hoff
      omega
    simp only [writei, hdev, hgt, hwrap, hmax', hl, if_false, or_self, except_ok_bind]
    by_cases hg : ip.size.toNat < off.toNat + n.toNat
    · rw [if_pos (hgrow.2 hg), if_pos hg, Nat.sub_zero]
      rfl
    · rw [if_neg (mt hgrow.1 hg), if_neg hg]
      rfl

theorem writei_dev {src : ℕ → UInt8} {off n : UInt32} (hdev : ip.type = T_DEV) :
    writei sb d ip src off n = .error "writei: device i/o is not modelled" := by
  simp [writei, hdev]

/-- `writei` rejects a write from past the end of the file or to past the largest file with
`-1`, changing nothing.  A write whose `off + n` wraps around as a `uint` ends past the largest
file. -/
theorem writei_rejected {src : ℕ → UInt8} {off n : UInt32} (hdev : ip.type ≠ T_DEV)
    (h : ip.size.toNat < off.toNat ∨ MAXFILE * BSIZE < off.toNat + n.toNat) :
    writei sb d ip src off n = .ok (-1, d, ip) := by
  by_cases hg : off > ip.size ∨ off + n < off
  · simp only [writei, hdev, hg, if_false, if_true, except_pure_eq]
  · -- the offset lies within the file, so the write ends past the largest file
    have hm : off.toNat + n.toNat > MAXFILE * BSIZE :=
      h.resolve_left fun h' => hg (.inl (UInt32.lt_iff_toNat_lt.2 h'))
    simp only [writei, hdev, hg, hm, if_false, if_true, except_pure_eq]

/-- A `writei` that returns either leaves the disk as it was or is a write that `writei_spec`
describes. -/
theorem writei_cases {src : ℕ → UInt8} {off n : UInt32} {r : ℤ} {d'' : Disk} {ip'' : Inode}
    (h : writei sb d ip src off n = .ok (r, d'', ip'')) :
    d'' = d ∨ (ip.type ≠ T_DEV ∧ off ≤ ip.size ∧ off.toNat + n.toNat ≤ MAXFILE * BSIZE) := by
  by_cases hdev : ip.type = T_DEV
  · simp [writei, hdev] at h
  by_cases hg : off > ip.size ∨ off + n < off
  · simp only [writei, hdev, hg, if_false, if_true, except_pure_eq] at h
    exact .inl (Prod.mk.inj (Prod.mk.inj (Except.ok.inj h)).2).1.symm
  by_cases hm : off.toNat + n.toNat > MAXFILE * BSIZE
  · simp only [writei, hdev, hg, hm, if_false, if_true, except_pure_eq] at h
    exact .inl (Prod.mk.inj (Prod.mk.inj (Except.ok.inj h)).2).1.symm
  · exact .inr ⟨hdev, UInt32.not_lt.1 fun h' => hg (.inl h'), by omega⟩

end Xv6Kernel
