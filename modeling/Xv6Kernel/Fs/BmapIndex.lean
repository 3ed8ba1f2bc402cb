import Xv6Kernel.Lib.Radix
import Xv6Kernel.Fs.Content

/-!
# The index arithmetic of `bmap`, and the block numbers of `readi` and `writei`

`bmap(ip, bn)` subtracts the sizes of the regions before the one of `bn` and then indexes down
that region's tree: `addrs[bn]` for a direct block, `a[bn]` in the single indirect block,
`a[bn / 128]` and `a[bn % 128]` below the double indirect block, and `a[bn / (128*128)]`,
`a[(bn % (128*128)) / 128]`, `a[(bn % (128*128)) % 128]` below the triple indirect block.
`bmapIndices` is that arithmetic as the source writes it.  The model's `bmap` walks a tree of
depth `k` with the digits of the index in base `NINDIRECT`, most significant first
(`bmapWalk` reads entry `idx / NINDIRECT ^ k` and goes on with `idx % NINDIRECT ^ k`, which is
`Radix.digits`), and the two agree (`bmapIndices_eq`).

* `bmapIndices_inj`, `bmapIndices_surj` : the block numbers below `MAXFILE` and the paths of
  indices (`IndexPath`) correspond one to one.
* `writei_ne_out_of_range` : the check `off + n <= MAXFILE*BSIZE` of `writei` keeps every
  `bmap` of its loop below `MAXFILE`.
* `readi_ne_out_of_range` : `readi` stops at the size of the file, so on a file of at most
  `MAXFILE * BSIZE` bytes, which every allocated inode of a disk with the invariant of
  `Fs/Ownership` is (`NoHoles.size_le`), it never asks `bmap` for a block from `MAXFILE` on.
* `bmap_index_arithmetic` : all of this together.
-/

namespace Xv6Kernel

/-! ### The indices `bmap` computes -/

/-- The indices `bmap(ip, bn)` reads, as the source computes them: the slot of `addrs`, then
the entry of each indirect block on the way down; `none` where it panics. -/
def bmapIndices (bn : ℕ) : Option (Fin 13 × List ℕ) :=
  if h : bn < NDIRECT then some (⟨bn, lt_slots_of_lt_NDIRECT h⟩, [])
  else
    let bn := bn - NDIRECT
    if bn < NINDIRECT then some (10, [bn])
    else
      let bn := bn - NINDIRECT
      if bn < NDINDIRECT then some (11, [bn / 128, bn % 128])
      else
        let bn := bn - NDINDIRECT
        if bn < NTINDIRECT then
          some (12, [bn / (128 * 128), (bn % (128 * 128)) / 128, (bn % (128 * 128)) % 128])
        else none

/-- A path of indices below slot `s`: one entry for each level of the slot's tree, each within
an indirect block. -/
def IndexPath (s : Fin 13) (l : List ℕ) : Prop :=
  l.length = slotDepth s ∧ ∀ j ∈ l, j < NINDIRECT

instance (s : Fin 13) (l : List ℕ) : Decidable (IndexPath s l) :=
  inferInstanceAs (Decidable (_ ∧ _))

/-- The source's arithmetic is the walk of the model: the slot of the region, then the digits
of the index in the region in base `NINDIRECT`. -/
theorem bmapIndices_eq (bn : ℕ) :
    bmapIndices bn = (region bn).map fun x => (x.1, Radix.digits NINDIRECT (slotDepth x.1) x.2) := by
  have d10 : slotDepth 10 = 1 := rfl
  have d11 : slotDepth 11 = 2 := rfl
  have d12 : slotDepth 12 = 3 := rfl
  unfold bmapIndices region
  dsimp only
  split_ifs with h₀
  · simp [slotDepth, h₀, Radix.digits]
  · simp only [Option.map_some, d10, Radix.digits, pow_zero, Nat.div_one]
  · rw [Option.map_some, d11]
    simp only [Radix.digits, pow_one, pow_zero, Nat.div_one, NINDIRECT_eq]
  · rw [Option.map_some, d12]
    simp only [Radix.digits, pow_one, pow_zero, pow_two, Nat.div_one, NINDIRECT_eq]
  · rfl

theorem bmapIndices_of_region {bn : ℕ} {s : Fin 13} {i : ℕ} (h : region bn = some (s, i)) :
    bmapIndices bn = some (s, Radix.digits NINDIRECT (slotDepth s) i) := by
  rw [bmapIndices_eq, h]
  rfl

theorem indexPath_digits {s : Fin 13} {i : ℕ} (hi : i < NINDIRECT ^ slotDepth s) :
    IndexPath s (Radix.digits NINDIRECT (slotDepth s) i) :=
  ⟨Radix.length_digits _ _, Radix.digits_lt (by decide) hi⟩

theorem bmapIndices_eq_none {bn : ℕ} : bmapIndices bn = none ↔ MAXFILE ≤ bn := by
  rw [bmapIndices_eq, Option.map_eq_none_iff, region_eq_none]

/-- Below `MAXFILE`, `bmap` reads a path of indices, each within its block. -/
theorem bmapIndices_lt {bn : ℕ} (h : bn < MAXFILE) :
    ∃ s l, bmapIndices bn = some (s, l) ∧ IndexPath s l := by
  obtain ⟨⟨s, i⟩, hr⟩ := Option.ne_none_iff_exists'.1 (mt region_eq_none.1 (Nat.not_le.2 h))
  exact ⟨s, _, bmapIndices_of_region hr, indexPath_digits (region_lt hr)⟩

/-- Two block numbers never share a path. -/
theorem bmapIndices_inj {bn bn' : ℕ} {p : Fin 13 × List ℕ} (h : bmapIndices bn = some p)
    (h' : bmapIndices bn' = some p) : bn = bn' := by
  rw [bmapIndices_eq, Option.map_eq_some_iff] at h h'
  obtain ⟨⟨s, i⟩, hr, rfl⟩ := h
  obtain ⟨⟨s', i'⟩, hr', heq⟩ := h'
  obtain ⟨rfl, hd⟩ := Prod.mk.inj heq
  -- the same slot, and the same digits of two indices within the slot's span
  obtain rfl := Radix.digits_inj (region_lt hr') (region_lt hr) hd
  exact region_inj hr hr'

/-- Every path of indices is the path of a block number below `MAXFILE`. -/
theorem bmapIndices_surj {s : Fin 13} {l : List ℕ} (hl : IndexPath s l) :
    ∃ bn < MAXFILE, bmapIndices bn = some (s, l) := by
  obtain ⟨hlen, hlt⟩ := hl
  have hv : Radix.value NINDIRECT l < NINDIRECT ^ slotDepth s := hlen ▸ Radix.value_lt hlt
  obtain ⟨bn, hbn, hr⟩ := region_surj hv
  refine ⟨bn, hbn, ?_⟩
  rw [bmapIndices_of_region hr, ← hlen, Radix.digits_value hlt]

/-! ### The block numbers of `readi` and `writei` -/

section Range

variable {sb : Superblock} {d : Disk} {ip : Inode}

/-- The loop of `readi` fails only when `bmap` does. -/
theorem readLoop_error (n : ℕ) (d : Disk) (ip : Inode) (dst : ℕ → UInt8) (tot off : ℕ)
    {e : String} (h : readLoop sb n d ip dst tot off = .error e) :
    e = "bmap: out of range" ∧ MAXFILE * BSIZE < off + (n - tot) ∨ e = "balloc: out of blocks" := by
  rw [readLoop] at h
  split_ifs at h with htn
  cases hb : bmap sb d ip (off / BSIZE) with
  | error e' =>
    rw [hb] at h
    cases h
    rcases bmap_off_error hb with ⟨rfl, hmax⟩ | rfl
    · exact .inl ⟨rfl, by omega⟩
    · exact .inr rfl
  | ok r =>
    obtain ⟨b, d₁, ip₁⟩ := r
    rw [hb] at h
    rcases readLoop_error n d₁ ip₁ _ _ _ h with ⟨rfl, hmax⟩ | rfl
    · have := chunk_pos off htn
      exact .inl ⟨rfl, by omega⟩
    · exact .inr rfl
termination_by n - tot
decreasing_by
  have := chunk_pos off htn
  omega

/-- **`writei` never reaches the panic of `bmap`.** -/
theorem writei_ne_out_of_range (src : ℕ → UInt8) (off n : UInt32) :
    writei sb d ip src off n ≠ .error "bmap: out of range" := by
  intro h
  by_cases hdev : ip.type = T_DEV
  · simp [writei, hdev] at h
  by_cases hg : off > ip.size ∨ off + n < off
  · simp [writei, hdev, hg] at h
  by_cases hm : off.toNat + n.toNat > MAXFILE * BSIZE
  · simp [writei, hdev, hg, hm] at h
  simp only [writei, hdev, hg, hm, if_false] at h
  cases hl : writeLoop sb src n.toNat d ip 0 off.toNat with
  | error e =>
    rw [hl] at h
    cases h
    -- the loop stops out of range only past the end that `writei` checked
    rcases writeLoop_error src n.toNat d ip 0 off.toNat hl with ⟨-, hmax⟩ | he
    · omega
    · exact absurd he (by decide)
  | ok r =>
    obtain ⟨d', ip', off'⟩ := r
    simp only [hl, except_ok_bind] at h
    split_ifs at h <;> cases h

/-- The count `readi` settles on ends within the file. -/
theorem readi_end {off n : UInt32} (hg : ¬ (off > ip.size ∨ off + n < off)) :
    off.toNat + (if off + n > ip.size then ip.size - off else n).toNat ≤ ip.size.toNat := by
  have hoff : off ≤ ip.size := UInt32.not_lt.1 fun h => hg (.inl h)
  have hs := UInt32.le_iff_toNat_le.1 hoff
  -- no `uint` wrap: a sum past `2^32` would come out below `off`
  have hadd : (off + n).toNat = off.toNat + n.toNat := by
    have hn := n.toNat_lt
    rw [UInt32.toNat_add]
    by_contra hw
    refine hg (.inr (UInt32.lt_iff_toNat_lt.2 ?_))
    rw [UInt32.toNat_add]
    omega
  split_ifs with hc
  · rw [UInt32.toNat_sub_of_le _ _ hoff]
    omega
  · rw [gt_iff_lt, UInt32.lt_iff_toNat_lt, hadd] at hc
    omega

/-- **`readi` of a file within `MAXFILE * BSIZE` bytes never reaches the panic of `bmap`.** -/
theorem readi_ne_out_of_range (hsize : ip.size.toNat ≤ MAXFILE * BSIZE) (dst : ℕ → UInt8)
    (off n : UInt32) : readi sb d ip dst off n ≠ .error "bmap: out of range" := by
  intro h
  by_cases hdev : ip.type = T_DEV
  · simp [readi, hdev] at h
  by_cases hg : off > ip.size ∨ off + n < off
  · simp [readi, hdev, hg] at h
  have hend := readi_end hg
  simp only [readi, hdev, hg, if_false] at h
  cases hl : readLoop sb (if off + n > ip.size then ip.size - off else n).toNat d ip dst 0 off.toNat with
  | error e =>
    rw [hl] at h
    cases h
    rcases readLoop_error _ d ip dst 0 off.toNat hl with ⟨-, hmax⟩ | he
    · omega
    · exact absurd he (by decide)
  | ok r =>
    simp [hl] at h

/-- A file with no holes is at most `MAXFILE * BSIZE` bytes: past that, `bmap` has no block. -/
theorem NoHoles.size_le (h : NoHoles d ip) : ip.size.toNat ≤ MAXFILE * BSIZE := by
  by_contra hlt
  exact h MAXFILE (by omega) (lookup_of_region_none (region_eq_none.2 le_rfl))

end Range

/-- **The index arithmetic of `bmap`.**  Every block number below `MAXFILE` has a path of
indices, each within its block, from `MAXFILE` on `bmap` panics, and block numbers and paths
correspond one to one; `writei`, and `readi` of an allocated inode of a disk with the
invariant, never reach that panic. -/
theorem bmap_index_arithmetic (sb : Superblock) :
    (∀ bn < MAXFILE, ∃ s l, bmapIndices bn = some (s, l) ∧ IndexPath s l) ∧
    (∀ bn, bmapIndices bn = none ↔ MAXFILE ≤ bn) ∧
    (∀ bn bn' p, bmapIndices bn = some p → bmapIndices bn' = some p → bn = bn') ∧
    (∀ s l, IndexPath s l → ∃ bn < MAXFILE, bmapIndices bn = some (s, l)) ∧
    (∀ d ip src off n, writei sb d ip src off n ≠ .error "bmap: out of range") ∧
    (∀ d inum dst off n, Inv sb d → inum < sb.ninodes → (dinodeAt sb d inum).type ≠ 0 →
      readi sb d (inodeAt sb d inum) dst off n ≠ .error "bmap: out of range") := by
  refine ⟨fun _ => bmapIndices_lt, fun _ => bmapIndices_eq_none, fun _ _ _ => bmapIndices_inj,
    fun _ _ => bmapIndices_surj, fun _ _ => writei_ne_out_of_range, ?_⟩
  intro d inum dst off n hi hlt ht
  exact readi_ne_out_of_range (hi.noHoles inum hlt ht).size_le dst off n

end Xv6Kernel
