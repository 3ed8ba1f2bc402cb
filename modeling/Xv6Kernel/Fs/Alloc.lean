import Xv6Kernel.Fs.Layout

/-!
# Blocks: the bitmap allocator (`fs.c`)

The disk is `Disk`: block `b` as its bytes, as `bread` returns them.  The buffer cache and the
log are below this view: a block written with `log_write` inside a transaction is what the next
`bread` returns, and the model keeps that content.

* `bitAt` : the bit of block `b` in the free bitmap;
* `balloc` : the first block whose bit is clear, marked in use and zeroed; a full disk is
  `panic("balloc: out of blocks")`;
* `bfree` : clear the bit of `b`; a clear bit is `panic("freeing free block")`;
* `entry`, `setEntry` : the block addresses of an indirect block.

`balloc_eq_ok` and `bfree_eq_ok` say once what the two do; the lemmas after them say which
reads each write leaves alone.
-/

namespace Xv6Kernel

open Bytes

/-- A block's bytes. -/
abbrev Block := ℕ → UInt8

/-- The disk, block by block. -/
abbrev Disk := ℕ → Block

/-- A zeroed block (`bzero`). -/
def zeroBlock : Block := fun _ => 0

theorem zeroBlock_eq : zeroBlock = fun _ => 0 := rfl

variable (sb : Superblock)

/-- The bit of block `b` in the free bitmap. -/
def bitAt (d : Disk) (b : ℕ) : Bool := getBit (d (BBLOCK b sb)) (b % BPB)

/-- `balloc(dev)`.  Its two loops visit the blocks `b + bi` in increasing order, so it takes
the first block below `sb.size` whose bit is clear; it sets the bit, then zeroes the block. -/
def balloc (d : Disk) : Except String (ℕ × Disk) :=
  match (List.range sb.size).find? (fun b => !bitAt sb d b) with
  | none => .error "balloc: out of blocks"
  | some b =>
    let d := Function.update d (BBLOCK b sb) (setBit (d (BBLOCK b sb)) (b % BPB))
    .ok (b, Function.update d b zeroBlock)

/-- `bfree(dev, b)`. -/
def bfree (d : Disk) (b : ℕ) : Except String Disk :=
  if !bitAt sb d b then .error "freeing free block"
  else .ok (Function.update d (BBLOCK b sb) (clearBit (d (BBLOCK b sb)) (b % BPB)))

/-- Entry `j` of the indirect block `p`: `((uint*)bread(dev, p)->data)[j]`. -/
def entry (d : Disk) (p j : ℕ) : ℕ := getLE (d p) (4 * j) 4

/-- Set entry `j` of the indirect block `p` (a `uint`, so modulo `2 ^ 32`). -/
def setEntry (d : Disk) (p j v : ℕ) : Disk := Function.update d p (setLE (d p) (4 * j) 4 v)

/-! ### What `balloc` and `bfree` do -/

variable {sb}

theorem balloc_eq_ok {d d' : Disk} {b : ℕ} (h : balloc sb d = .ok (b, d')) :
    b < sb.size ∧ bitAt sb d b = false ∧ (∀ b' < b, bitAt sb d b' = true) ∧
      d' = Function.update (Function.update d (BBLOCK b sb)
        (setBit (d (BBLOCK b sb)) (b % BPB))) b zeroBlock := by
  unfold balloc at h
  split at h
  · cases h
  · rename_i b₀ hfind
    obtain ⟨rfl, rfl⟩ := Prod.mk.inj (Except.ok.inj h)
    obtain ⟨hfree, hmem, hbefore⟩ := List.find?_range_eq_some.1 hfind
    refine ⟨List.mem_range.1 hmem, by simpa using hfree, fun b' hb' => ?_, rfl⟩
    simpa using hbefore b' hb'

/-- `balloc` fails only when every block's bit is set. -/
theorem balloc_eq_error {d : Disk} {e : String} (h : balloc sb d = .error e) :
    e = "balloc: out of blocks" ∧ ∀ b < sb.size, bitAt sb d b = true := by
  unfold balloc at h
  split at h
  · rename_i hfind
    refine ⟨(Except.error.inj h).symm, fun b hb => ?_⟩
    simpa using List.find?_range_eq_none.1 hfind b hb
  · cases h

theorem bfree_eq_ok {d d' : Disk} {b : ℕ} (h : bfree sb d b = .ok d') :
    bitAt sb d b = true ∧
      d' = Function.update d (BBLOCK b sb) (clearBit (d (BBLOCK b sb)) (b % BPB)) := by
  unfold bfree at h
  by_cases hb : bitAt sb d b
  · simp only [hb, Bool.not_true, Bool.false_eq_true, if_false] at h
    exact ⟨hb, (Except.ok.inj h).symm⟩
  · simp [hb] at h

theorem bfree_of_clear {d : Disk} {b : ℕ} (h : bitAt sb d b = false) :
    bfree sb d b = .error "freeing free block" := by
  simp [bfree, h]

/-! ### Reads that a write leaves alone -/

/-- The bits of the blocks whose bitmap block is not written. -/
theorem bitAt_update_of_ne {d : Disk} {q b : ℕ} {blk : Block} (h : q ≠ BBLOCK b sb) :
    bitAt sb (Function.update d q blk) b = bitAt sb d b := by
  simp [bitAt, Function.update_of_ne (Ne.symm h)]

/-- Setting the bit of `b` sets it and no other. -/
theorem bitAt_setBit {d : Disk} (b x : ℕ) :
    bitAt sb (Function.update d (BBLOCK b sb) (setBit (d (BBLOCK b sb)) (b % BPB))) x =
      (decide (x = b) || bitAt sb d x) := by
  by_cases hq : BBLOCK x sb = BBLOCK b sb
  · simp only [bitAt, hq, Function.update_self, getBit_setBit]
    congr 1
    -- two blocks with one bitmap block are equal exactly when their bits in it are
    simp only [BBLOCK, Nat.add_right_cancel_iff] at hq
    exact decide_eq_decide.2 (eq_iff_div_mod hq).symm
  · have hx : x ≠ b := fun h => hq (h ▸ rfl)
    rw [bitAt_update_of_ne (Ne.symm hq)]
    simp [hx]

/-- Clearing the bit of `b` clears it and no other. -/
theorem bitAt_clearBit {d : Disk} (b x : ℕ) :
    bitAt sb (Function.update d (BBLOCK b sb) (clearBit (d (BBLOCK b sb)) (b % BPB))) x =
      (!decide (x = b) && bitAt sb d x) := by
  by_cases hq : BBLOCK x sb = BBLOCK b sb
  · simp only [bitAt, hq, Function.update_self, getBit_clearBit]
    congr 2
    simp only [BBLOCK, Nat.add_right_cancel_iff] at hq
    exact decide_eq_decide.2 (eq_iff_div_mod hq).symm
  · have hx : x ≠ b := fun h => hq (h ▸ rfl)
    rw [bitAt_update_of_ne (Ne.symm hq)]
    simp [hx]

theorem entry_update_of_ne {d : Disk} {q p j : ℕ} {blk : Block} (h : q ≠ p) :
    entry (Function.update d q blk) p j = entry d p j := by
  simp [entry, Function.update_of_ne (Ne.symm h)]

theorem entry_setEntry_self (d : Disk) (p j v : ℕ) : entry (setEntry d p j v) p j = v % 2 ^ 32 := by
  simp only [entry, setEntry, Function.update_self, getLE_setLE]
  rfl

theorem entry_setEntry_of_ne {d : Disk} {p j j' v : ℕ} (h : j' ≠ j) :
    entry (setEntry d p j v) p j' = entry d p j' := by
  simp only [entry, setEntry, Function.update_self]
  rw [getLE_setLE_of_disjoint (by omega)]

theorem entry_lt (d : Disk) (p j : ℕ) : entry d p j < 2 ^ 32 := getLE_lt _ _ _

theorem entry_zeroBlock {d : Disk} {p j : ℕ} (h : d p = zeroBlock) : entry d p j = 0 := by
  rw [entry, h, zeroBlock_eq, getLE_zero]

end Xv6Kernel
