import Mathlib
import Xv6Kernel.Fs.Inode

/-!
# The block map of an inode, read without allocating

An address of an inode heads a tree: a data block (depth 0), or an indirect block whose
nonzero entries head trees one level lower.  Read off the disk, without allocating:

* `treeBlocks d k p` : all blocks of the tree of depth `k` under `p`, in the order `itrunc`
  frees them; `treeData` its data blocks and `treeIndirect` its indirect blocks, the only
  blocks whose contents the tree's shape depends on (`treeBlocks_congr` and its siblings);
* `lookupTree d k p idx` : the data block at index `idx` below `p`, `0` where a level is
  missing, the walk of `bmap` with no allocation;
* `inodeBlocks`, `inodeData`, `inodeIndirect`, `lookup` : the same over the 13 addresses of an
  inode, `lookup` with `bmap`'s four regions, and `fileByte` the bytes read through it.

With no block listed twice, `lookup` finds data blocks and different file blocks in
different disk blocks (`lookup_inj`).
-/

namespace Xv6Kernel

/-! ### Trees of blocks -/

/-- The blocks of the tree of depth `k` under block `p` (none when `p = 0`): every entry's
subtree, then `p`. -/
def treeBlocks (d : Disk) : ℕ → ℕ → List ℕ
  | 0, p => if p = 0 then [] else [p]
  | k + 1, p => if p = 0 then [] else
      (List.range NINDIRECT).flatMap (fun j => treeBlocks d k (entry d p j)) ++ [p]

/-- The data blocks of the tree. -/
def treeData (d : Disk) : ℕ → ℕ → List ℕ
  | 0, p => if p = 0 then [] else [p]
  | k + 1, p => if p = 0 then [] else
      (List.range NINDIRECT).flatMap (fun j => treeData d k (entry d p j))

/-- The indirect blocks of the tree. -/
def treeIndirect (d : Disk) : ℕ → ℕ → List ℕ
  | 0, _ => []
  | k + 1, p => if p = 0 then [] else
      (List.range NINDIRECT).flatMap (fun j => treeIndirect d k (entry d p j)) ++ [p]

/-- The data block at index `idx` of the tree of depth `k` under `p`, `0` if a level is
missing. -/
def lookupTree (d : Disk) : ℕ → ℕ → ℕ → ℕ
  | 0, p, _ => p
  | k + 1, p, idx =>
    if p = 0 then 0 else lookupTree d k (entry d p (idx / NINDIRECT ^ k)) (idx % NINDIRECT ^ k)

variable {d d' : Disk}

@[simp] theorem treeBlocks_zero (d : Disk) (k : ℕ) : treeBlocks d k 0 = [] := by
  cases k <;> simp [treeBlocks]

@[simp] theorem treeData_zero (d : Disk) (k : ℕ) : treeData d k 0 = [] := by
  cases k <;> simp [treeData]

@[simp] theorem treeIndirect_zero (d : Disk) (k : ℕ) : treeIndirect d k 0 = [] := by
  cases k <;> simp [treeIndirect]

@[simp] theorem lookupTree_zero (d : Disk) (k idx : ℕ) : lookupTree d k 0 idx = 0 := by
  cases k <;> simp [lookupTree]

theorem treeBlocks_succ {k p : ℕ} (hp : p ≠ 0) : treeBlocks d (k + 1) p =
    (List.range NINDIRECT).flatMap (fun j => treeBlocks d k (entry d p j)) ++ [p] := by
  simp [treeBlocks, hp]

theorem treeData_succ {k p : ℕ} (hp : p ≠ 0) : treeData d (k + 1) p =
    (List.range NINDIRECT).flatMap (fun j => treeData d k (entry d p j)) := by
  simp [treeData, hp]

theorem treeIndirect_succ {k p : ℕ} (hp : p ≠ 0) : treeIndirect d (k + 1) p =
    (List.range NINDIRECT).flatMap (fun j => treeIndirect d k (entry d p j)) ++ [p] := by
  simp [treeIndirect, hp]

theorem lookupTree_succ {k p idx : ℕ} (hp : p ≠ 0) : lookupTree d (k + 1) p idx =
    lookupTree d k (entry d p (idx / NINDIRECT ^ k)) (idx % NINDIRECT ^ k) := by
  simp [lookupTree, hp]

/-- A list of lists, each split into two parts, is the two concatenations up to order. -/
theorem flatMap_perm_append {α β : Type} (f g h : α → List β) :
    ∀ l : List α, (∀ x ∈ l, (f x).Perm (g x ++ h x)) →
      (l.flatMap f).Perm (l.flatMap g ++ l.flatMap h)
  | [], _ => by simp
  | x :: l, hl => by
    simp only [List.flatMap_cons]
    have hx := hl x List.mem_cons_self
    have ht := flatMap_perm_append f g h l fun y hy => hl y (List.mem_cons_of_mem _ hy)
    have hre : ((g x ++ h x) ++ (l.flatMap g ++ l.flatMap h)).Perm
        ((g x ++ l.flatMap g) ++ (h x ++ l.flatMap h)) := by
      simp only [List.append_assoc]
      exact List.Perm.append_left _ (List.perm_append_comm_assoc _ _ _)
    exact (hx.append ht).trans hre

/-- A member's part of a concatenation, then the others'. -/
theorem perm_flatMap_erase {α β : Type} [BEq α] [LawfulBEq α] (f : α → List β) {l : List α}
    {a : α} (ha : a ∈ l) : (l.flatMap f).Perm (f a ++ (l.erase a).flatMap f) := by
  simpa using (List.perm_cons_erase ha).flatMap_right f

/-- In a concatenation with no element twice, an element lies in the part of one member. -/
theorem eq_of_mem_flatMap {α β : Type} {f : α → List β} {x : β} :
    ∀ {l : List α} {a a' : α}, (l.flatMap f).Nodup → a ∈ l → a' ∈ l → x ∈ f a → x ∈ f a' → a = a'
  | [], _, _, _, ha, _, _, _ => absurd ha List.not_mem_nil
  | b :: l, a, a', hnd, ha, ha', hx, hx' => by
    rw [List.flatMap_cons] at hnd
    have hdisj := (List.nodup_append.1 hnd).2.2
    rcases List.mem_cons.1 ha with rfl | hal <;> rcases List.mem_cons.1 ha' with rfl | hal'
    · rfl
    · exact absurd rfl (hdisj x hx x (List.mem_flatMap.2 ⟨a', hal', hx'⟩))
    · exact absurd rfl (hdisj x hx' x (List.mem_flatMap.2 ⟨a, hal, hx⟩))
    · exact eq_of_mem_flatMap (List.nodup_append.1 hnd).2.1 hal hal' hx hx'

/-- A tree's blocks are its data blocks and its indirect blocks. -/
theorem treeBlocks_perm (d : Disk) :
    ∀ (k p : ℕ), (treeBlocks d k p).Perm (treeData d k p ++ treeIndirect d k p)
  | 0, p => by by_cases hp : p = 0 <;> simp [treeBlocks, treeData, treeIndirect, hp]
  | k + 1, p => by
    by_cases hp : p = 0
    · simp [hp]
    · rw [treeBlocks_succ hp, treeData_succ hp, treeIndirect_succ hp, ← List.append_assoc]
      exact (flatMap_perm_append _ _ _ _ fun j _ => treeBlocks_perm d k _).append_right _

theorem mem_treeBlocks_of_mem_treeIndirect {k p q : ℕ} (h : q ∈ treeIndirect d k p) :
    q ∈ treeBlocks d k p :=
  (treeBlocks_perm d k p).symm.subset (List.mem_append_right _ h)

theorem mem_treeBlocks_of_mem_treeData {k p q : ℕ} (h : q ∈ treeData d k p) :
    q ∈ treeBlocks d k p :=
  (treeBlocks_perm d k p).symm.subset (List.mem_append_left _ h)

theorem entry_congr {p : ℕ} (h : d' p = d p) (j : ℕ) : entry d' p j = entry d p j := by
  simp only [entry, h]

/-- The subtree under entry `j < NINDIRECT` of `p` lies in the tree of `p`. -/
theorem treeIndirect_subtree {k p j q : ℕ} (hp : p ≠ 0) (hj : j < NINDIRECT)
    (hq : q ∈ treeIndirect d k (entry d p j)) : q ∈ treeIndirect d (k + 1) p := by
  rw [treeIndirect_succ hp]
  exact List.mem_append_left _ (List.mem_flatMap.2 ⟨j, List.mem_range.2 hj, hq⟩)

theorem root_mem_treeIndirect {k p : ℕ} (hp : p ≠ 0) : p ∈ treeIndirect d (k + 1) p := by
  simp [treeIndirect_succ hp]

/-! ### The shape of a tree depends only on its indirect blocks -/

section congr

variable {k : ℕ}

theorem treeIndirect_congr : ∀ {k p : ℕ}, (∀ q ∈ treeIndirect d k p, d' q = d q) →
    treeIndirect d' k p = treeIndirect d k p
  | 0, _, _ => by simp [treeIndirect]
  | k + 1, p, h => by
    by_cases hp : p = 0
    · simp [hp]
    rw [treeIndirect_succ hp, treeIndirect_succ hp]
    simp only [entry_congr (h p (root_mem_treeIndirect hp))]
    congr 1
    exact List.flatMap_congr fun j hj => treeIndirect_congr fun q hq =>
      h q (treeIndirect_subtree hp (List.mem_range.1 hj) hq)

theorem treeBlocks_congr : ∀ {k p : ℕ}, (∀ q ∈ treeIndirect d k p, d' q = d q) →
    treeBlocks d' k p = treeBlocks d k p
  | 0, _, _ => rfl
  | k + 1, p, h => by
    by_cases hp : p = 0
    · simp [hp]
    rw [treeBlocks_succ hp, treeBlocks_succ hp]
    simp only [entry_congr (h p (root_mem_treeIndirect hp))]
    congr 1
    exact List.flatMap_congr fun j hj => treeBlocks_congr fun q hq =>
      h q (treeIndirect_subtree hp (List.mem_range.1 hj) hq)

theorem treeData_congr : ∀ {k p : ℕ}, (∀ q ∈ treeIndirect d k p, d' q = d q) →
    treeData d' k p = treeData d k p
  | 0, _, _ => rfl
  | k + 1, p, h => by
    by_cases hp : p = 0
    · simp [hp]
    rw [treeData_succ hp, treeData_succ hp]
    simp only [entry_congr (h p (root_mem_treeIndirect hp))]
    exact List.flatMap_congr fun j hj => treeData_congr fun q hq =>
      h q (treeIndirect_subtree hp (List.mem_range.1 hj) hq)

/-- An index below the tree's span is decoded into an entry of the block and an index below
that entry's span. -/
theorem div_lt_of_lt_pow {k idx : ℕ} (h : idx < NINDIRECT ^ (k + 1)) : idx / NINDIRECT ^ k < NINDIRECT := by
  rw [pow_succ] at h
  exact Nat.div_lt_of_lt_mul h

theorem mod_lt_pow (idx k : ℕ) : idx % NINDIRECT ^ k < NINDIRECT ^ k :=
  Nat.mod_lt _ (Nat.pos_of_ne_zero (pow_ne_zero _ (by decide)))

theorem lookupTree_congr : ∀ {k p idx : ℕ}, (∀ q ∈ treeIndirect d k p, d' q = d q) →
    idx < NINDIRECT ^ k → lookupTree d' k p idx = lookupTree d k p idx
  | 0, _, _, _, _ => rfl
  | k + 1, p, idx, h, hidx => by
    by_cases hp : p = 0
    · simp [hp]
    rw [lookupTree_succ hp, lookupTree_succ hp, entry_congr (h p (root_mem_treeIndirect hp))]
    exact lookupTree_congr (fun q hq => h q (treeIndirect_subtree hp (div_lt_of_lt_pow hidx) hq))
      (mod_lt_pow idx k)

end congr

/-- A found block is a data block of the tree. -/
theorem lookupTree_mem_treeData : ∀ {k p idx : ℕ}, lookupTree d k p idx ≠ 0 →
    idx < NINDIRECT ^ k → lookupTree d k p idx ∈ treeData d k p
  | 0, p, _, h, _ => by simp_all [lookupTree, treeData]
  | k + 1, p, idx, h, hidx => by
    by_cases hp : p = 0
    · simp [hp] at h
    rw [lookupTree_succ hp] at h ⊢
    rw [treeData_succ hp]
    exact List.mem_flatMap.2 ⟨_, List.mem_range.2 (div_lt_of_lt_pow hidx),
      lookupTree_mem_treeData h (mod_lt_pow idx k)⟩

/-! ### A fresh block -/

/-- The tree under a zeroed block is the block alone, and finds nothing below it. -/
theorem tree_of_zeroBlock {a : ℕ} (ha : a ≠ 0) (hz : d a = zeroBlock) (k : ℕ) :
    treeBlocks d k a = [a] ∧ treeIndirect d k a = (if k = 0 then [] else [a]) ∧
      ∀ idx, lookupTree d k a idx = (if k = 0 then a else 0) := by
  cases k with
  | zero => simp [treeBlocks, treeIndirect, lookupTree, ha]
  | succ k =>
    simp only [treeBlocks_succ ha, treeIndirect_succ ha, lookupTree_succ ha, entry_zeroBlock hz,
      treeBlocks_zero, treeIndirect_zero, lookupTree_zero]
    simp

/-! ### The block map of an inode -/

/-- `addrs` has thirteen slots.  The instance is named so that a literal of `Fin 13` is the same
term in every module that writes one. -/
instance slots_neZero : NeZero 13 := ⟨by decide⟩

/-- A direct block is in the slot of its own number. -/
theorem lt_slots_of_lt_NDIRECT {bn : ℕ} (h : bn < NDIRECT) : bn < 13 := by
  simp only [NDIRECT] at h
  omega

/-- The block at the root of slot `s` of an inode. -/
def slotRoot (ip : Inode) (s : Fin 13) : ℕ := (ip.addrs s).toNat

/-- The region of file block `bn`, as `bmap` finds it by subtracting the sizes of the regions
before it: the slot heading its tree, and its index in that tree. -/
def region (bn : ℕ) : Option (Fin 13 × ℕ) :=
  if h : bn < NDIRECT then some (⟨bn, lt_slots_of_lt_NDIRECT h⟩, 0)
  else if bn - NDIRECT < NINDIRECT then some (10, bn - NDIRECT)
  else if bn - NDIRECT - NINDIRECT < NDINDIRECT then some (11, bn - NDIRECT - NINDIRECT)
  else if bn - NDIRECT - NINDIRECT - NDINDIRECT < NTINDIRECT then
    some (12, bn - NDIRECT - NINDIRECT - NDINDIRECT)
  else none

/-- The blocks of the tree under slot `s`. -/
def slotBlocks (d : Disk) (ip : Inode) (s : Fin 13) : List ℕ :=
  treeBlocks d (slotDepth s) (slotRoot ip s)

/-- All blocks of an inode, slot by slot, in the order `itrunc` frees them. -/
def inodeBlocks (d : Disk) (ip : Inode) : List ℕ := (List.finRange 13).flatMap (slotBlocks d ip)

/-- The data blocks of an inode. -/
def inodeData (d : Disk) (ip : Inode) : List ℕ :=
  (List.finRange 13).flatMap fun s => treeData d (slotDepth s) (slotRoot ip s)

/-- The indirect blocks of an inode. -/
def inodeIndirect (d : Disk) (ip : Inode) : List ℕ :=
  (List.finRange 13).flatMap fun s => treeIndirect d (slotDepth s) (slotRoot ip s)

/-- The block of file block `bn`, `0` where it is missing: `bmap` with no allocation. -/
def lookup (d : Disk) (ip : Inode) (bn : ℕ) : ℕ :=
  match region bn with
  | some (s, i) => lookupTree d (slotDepth s) (slotRoot ip s) i
  | none => 0

/-- Byte `k` of a file, read through its block map: `bread(bmap(ip, k / BSIZE))` at
`k % BSIZE`. -/
def fileByte (d : Disk) (ip : Inode) (k : ℕ) : UInt8 := d (lookup d ip (k / BSIZE)) (k % BSIZE)

/-- File block `bn` holds a byte of the range `[lo, hi)`. -/
def touches (lo hi bn : ℕ) : Prop := lo < (bn + 1) * BSIZE ∧ bn * BSIZE < hi ∧ lo < hi

theorem lookup_of_region {d : Disk} {ip : Inode} {bn : ℕ} {s : Fin 13} {i : ℕ}
    (h : region bn = some (s, i)) : lookup d ip bn = lookupTree d (slotDepth s) (slotRoot ip s) i := by
  simp [lookup, h]

theorem lookup_of_region_none {d : Disk} {ip : Inode} {bn : ℕ} (h : region bn = none) :
    lookup d ip bn = 0 := by
  simp [lookup, h]

/-- The index a region gives lies in the span of its slot's tree. -/
theorem region_lt {bn : ℕ} {s : Fin 13} {i : ℕ} (h : region bn = some (s, i)) :
    i < NINDIRECT ^ slotDepth s := by
  unfold region at h
  split_ifs at h with h₀ h₁ h₂ h₃ <;> cases h
  · exact Nat.pos_of_ne_zero (pow_ne_zero _ (by decide))
  · simpa [show slotDepth 10 = 1 from rfl] using h₁
  · simpa [show slotDepth 11 = 2 from rfl, NDINDIRECT, pow_two] using h₂
  · simpa [show slotDepth 12 = 3 from rfl, NTINDIRECT, pow_three, ← mul_assoc] using h₃

/-- Two blocks of a file lie in two places of the block map. -/
theorem region_inj {bn bn' : ℕ} {x : Fin 13 × ℕ} (h : region bn = some x)
    (h' : region bn' = some x) : bn = bn' := by
  unfold region at h h'
  -- the four regions against the four regions; the hypothesis of a direct block stays under
  -- the name of the `dite`, so its bound is given to `omega` apart
  split_ifs at h h' <;> obtain rfl := Option.some.inj h <;>
    simp only [Option.some.injEq, Prod.mk.injEq, Fin.ext_iff, Fin.coe_ofNat_eq_mod] at h' <;>
    simp only [NDIRECT_eq, NINDIRECT_eq, NDINDIRECT_eq, NTINDIRECT_eq] at *
  all_goals
    have := NDIRECT_eq
    omega

/-- The blocks of a file are those below `MAXFILE`. -/
theorem region_eq_none {bn : ℕ} : region bn = none ↔ MAXFILE ≤ bn := by
  unfold region
  split_ifs <;> simp only [false_iff, true_iff, not_le, MAXFILE_eq, NDIRECT_eq, NINDIRECT_eq,
    NDINDIRECT_eq, NTINDIRECT_eq] at * <;> omega

/-- Every place in the span of a slot's tree holds a block of a file. -/
theorem region_surj {s : Fin 13} {i : ℕ} (hi : i < NINDIRECT ^ slotDepth s) :
    ∃ bn < MAXFILE, region bn = some (s, i) := by
  by_cases hs : s.val < NDIRECT
  · -- a direct slot: its tree is the one block
    have hd : slotDepth s = 0 := if_pos hs
    rw [hd, pow_zero, Nat.lt_one_iff] at hi
    subst hi
    refine ⟨s.val, by simp only [MAXFILE_eq, NDIRECT] at hs ⊢; omega, ?_⟩
    simp [region, hs]
  · -- an indirect slot: its region starts after the regions of the slots before it
    have hs' : 10 ≤ s.val := by simp only [NDIRECT] at hs; omega
    obtain rfl | rfl | rfl : s = 10 ∨ s = 11 ∨ s = 12 := by omega
    · have hi' : i < NINDIRECT := by simpa [show slotDepth 10 = 1 from rfl] using hi
      refine ⟨NDIRECT + i, by rw [MAXFILE]; omega, ?_⟩
      rw [region, dif_neg (by omega), if_pos (by omega), Nat.add_sub_cancel_left]
    · have hi' : i < NDINDIRECT := by
        simpa [show slotDepth 11 = 2 from rfl, pow_two, NDINDIRECT] using hi
      have he : NDIRECT + NINDIRECT + i - NDIRECT - NINDIRECT = i := by omega
      refine ⟨NDIRECT + NINDIRECT + i, by rw [MAXFILE]; omega, ?_⟩
      rw [region, dif_neg (by omega), if_neg (by omega), if_pos (by omega), he]
    · have hi' : i < NTINDIRECT := by
        simpa [show slotDepth 12 = 3 from rfl, pow_three, ← mul_assoc, NTINDIRECT] using hi
      have he : NDIRECT + NINDIRECT + NDINDIRECT + i - NDIRECT - NINDIRECT - NDINDIRECT = i := by
        omega
      refine ⟨NDIRECT + NINDIRECT + NDINDIRECT + i, by rw [MAXFILE]; omega, ?_⟩
      rw [region, dif_neg (by omega), if_neg (by omega), if_neg (by omega), if_pos (by omega), he]

/-! ### A well-formed block map -/

variable {ip : Inode}

/-- An inode's blocks are its data blocks and its indirect blocks. -/
theorem inodeBlocks_perm (d : Disk) (ip : Inode) :
    (inodeBlocks d ip).Perm (inodeData d ip ++ inodeIndirect d ip) :=
  flatMap_perm_append _ _ _ _ fun _ _ => treeBlocks_perm d _ _

theorem mem_inodeBlocks_of_mem_inodeIndirect {q : ℕ} (h : q ∈ inodeIndirect d ip) :
    q ∈ inodeBlocks d ip :=
  (inodeBlocks_perm d ip).symm.subset (List.mem_append_right _ h)

theorem mem_inodeBlocks_of_mem_inodeData {q : ℕ} (h : q ∈ inodeData d ip) :
    q ∈ inodeBlocks d ip :=
  (inodeBlocks_perm d ip).symm.subset (List.mem_append_left _ h)

/-- With no block listed twice, a data block is not an indirect block. -/
theorem not_mem_inodeIndirect (hnd : (inodeBlocks d ip).Nodup) {q : ℕ} (h : q ∈ inodeData d ip) :
    q ∉ inodeIndirect d ip := fun hi =>
  (List.nodup_append.1 ((inodeBlocks_perm d ip).nodup_iff.1 hnd)).2.2 q h q hi rfl

theorem inodeBlocks_congr (h : ∀ q ∈ inodeIndirect d ip, d' q = d q) :
    inodeBlocks d' ip = inodeBlocks d ip :=
  List.flatMap_congr fun s _ => treeBlocks_congr fun q hq => h q (List.mem_flatMap.2 ⟨s, List.mem_finRange s, hq⟩)

theorem inodeIndirect_congr (h : ∀ q ∈ inodeIndirect d ip, d' q = d q) :
    inodeIndirect d' ip = inodeIndirect d ip :=
  List.flatMap_congr fun s _ => treeIndirect_congr fun q hq => h q (List.mem_flatMap.2 ⟨s, List.mem_finRange s, hq⟩)

theorem inodeData_congr (h : ∀ q ∈ inodeIndirect d ip, d' q = d q) :
    inodeData d' ip = inodeData d ip :=
  List.flatMap_congr fun s _ => treeData_congr fun q hq => h q (List.mem_flatMap.2 ⟨s, List.mem_finRange s, hq⟩)

theorem lookup_congr (h : ∀ q ∈ inodeIndirect d ip, d' q = d q) (bn : ℕ) :
    lookup d' ip bn = lookup d ip bn := by
  cases hr : region bn with
  | none => rw [lookup_of_region_none hr, lookup_of_region_none hr]
  | some x =>
    obtain ⟨s, i⟩ := x
    rw [lookup_of_region hr, lookup_of_region hr]
    exact lookupTree_congr (fun q hq => h q (List.mem_flatMap.2 ⟨s, List.mem_finRange s, hq⟩))
      (region_lt hr)

/-- A found block is a data block of the inode. -/
theorem lookup_mem_inodeData {bn : ℕ} (h : lookup d ip bn ≠ 0) : lookup d ip bn ∈ inodeData d ip := by
  cases hr : region bn with
  | none => exact absurd (lookup_of_region_none hr) h
  | some x =>
    obtain ⟨s, i⟩ := x
    rw [lookup_of_region hr] at h ⊢
    exact List.mem_flatMap.2 ⟨s, List.mem_finRange s, lookupTree_mem_treeData h (region_lt hr)⟩

/-- Two indices of a tree with no block listed twice find two different blocks. -/
theorem lookupTree_inj : ∀ {k p i i' : ℕ}, (treeBlocks d k p).Nodup → i < NINDIRECT ^ k →
    i' < NINDIRECT ^ k → lookupTree d k p i ≠ 0 → lookupTree d k p i = lookupTree d k p i' → i = i'
  | 0, _, i, i', _, hi, hi', _, _ => by simp only [pow_zero] at hi hi'; omega
  | k + 1, p, i, i', hnd, hi, hi', h0, heq => by
    by_cases hp : p = 0
    · simp [hp] at h0
    rw [treeBlocks_succ hp] at hnd
    have hsubs := (List.nodup_append.1 hnd).1
    simp only [lookupTree_succ hp] at heq h0
    by_cases hj : i / NINDIRECT ^ k = i' / NINDIRECT ^ k
    · -- one subtree: its own indices differ
      rw [hj] at heq h0
      have hsub : (treeBlocks d k (entry d p (i' / NINDIRECT ^ k))).Nodup :=
        (List.nodup_flatMap.1 hsubs).1 _ (List.mem_range.2 (div_lt_of_lt_pow hi'))
      have hm := lookupTree_inj hsub (mod_lt_pow i k) (mod_lt_pow i' k) h0 heq
      rw [← Nat.div_add_mod i (NINDIRECT ^ k), ← Nat.div_add_mod i' (NINDIRECT ^ k), hj, hm]
    · -- two subtrees: no block lies in both
      exact absurd (eq_of_mem_flatMap hsubs (List.mem_range.2 (div_lt_of_lt_pow hi))
        (List.mem_range.2 (div_lt_of_lt_pow hi'))
        (mem_treeBlocks_of_mem_treeData (lookupTree_mem_treeData h0 (mod_lt_pow i k)))
        (heq ▸ mem_treeBlocks_of_mem_treeData (lookupTree_mem_treeData (heq ▸ h0) (mod_lt_pow i' k))))
        hj

/-- Two file blocks of an inode with no block listed twice lie in two different disk blocks. -/
theorem lookup_inj (hnd : (inodeBlocks d ip).Nodup) {bn bn' : ℕ} (h0 : lookup d ip bn ≠ 0)
    (heq : lookup d ip bn = lookup d ip bn') : bn = bn' := by
  cases hr : region bn with
  | none => exact absurd (lookup_of_region_none hr) h0
  | some x =>
    cases hr' : region bn' with
    | none => rw [lookup_of_region_none hr'] at heq; exact absurd heq h0
    | some x' =>
      obtain ⟨s, i⟩ := x
      obtain ⟨s', i'⟩ := x'
      rw [lookup_of_region hr] at h0 heq
      rw [lookup_of_region hr'] at heq
      have hmem := mem_treeBlocks_of_mem_treeData (lookupTree_mem_treeData h0 (region_lt hr))
      have hmem' := mem_treeBlocks_of_mem_treeData
        (lookupTree_mem_treeData (heq ▸ h0) (region_lt hr'))
      -- the block lies in one slot's tree, and in that tree at one index
      obtain rfl : s = s' := eq_of_mem_flatMap hnd (List.mem_finRange s) (List.mem_finRange s')
        hmem (heq ▸ hmem')
      have hsub : (slotBlocks d ip s).Nodup := (List.nodup_flatMap.1 hnd).1 s (List.mem_finRange s)
      obtain rfl := lookupTree_inj hsub (region_lt hr) (region_lt hr') h0 heq
      exact region_inj hr hr'

/-! ### What an inode's block map depends on -/

theorem inodeBlocks_of_addrs {ip' : Inode} (h : ip'.addrs = ip.addrs) :
    inodeBlocks d ip' = inodeBlocks d ip := by
  unfold inodeBlocks
  congr 1
  funext s
  simp only [slotBlocks, slotRoot, h]

theorem inodeIndirect_of_addrs {ip' : Inode} (h : ip'.addrs = ip.addrs) :
    inodeIndirect d ip' = inodeIndirect d ip := by
  simp only [inodeIndirect, slotRoot, h]

theorem lookup_of_addrs {ip' : Inode} (h : ip'.addrs = ip.addrs) (bn : ℕ) :
    lookup d ip' bn = lookup d ip bn := by
  simp only [lookup, slotRoot, h]

/-- An inode with no addresses has no blocks. -/
theorem inodeBlocks_of_zero (h : ∀ s, ip.addrs s = 0) : inodeBlocks d ip = [] := by
  simp [inodeBlocks, slotBlocks, slotRoot, h]

theorem root_mem_treeBlocks {k p : ℕ} (hp : p ≠ 0) : p ∈ treeBlocks d k p := by
  cases k <;> simp [treeBlocks, hp]

/-- A nonzero entry of an indirect block of a tree heads a subtree of it. -/
theorem entry_mem_treeBlocks : ∀ {k p q j : ℕ}, q ∈ treeIndirect d k p → j < NINDIRECT →
    entry d q j ≠ 0 → entry d q j ∈ treeBlocks d k p
  | 0, _, _, _, hq, _, _ => by simp [treeIndirect] at hq
  | k + 1, p, q, j, hq, hj, he => by
    by_cases hp : p = 0
    · simp [hp] at hq
    rw [treeIndirect_succ hp, List.mem_append, List.mem_flatMap, List.mem_singleton] at hq
    rw [treeBlocks_succ hp]
    rcases hq with ⟨j', hj', hq⟩ | rfl
    · exact List.mem_append_left _ (List.mem_flatMap.2 ⟨j', hj', entry_mem_treeBlocks hq hj he⟩)
    · exact List.mem_append_left _ (List.mem_flatMap.2 ⟨j, List.mem_range.2 hj, root_mem_treeBlocks he⟩)

theorem entry_mem_inodeBlocks {q j : ℕ} (hq : q ∈ inodeIndirect d ip) (hj : j < NINDIRECT)
    (he : entry d q j ≠ 0) : entry d q j ∈ inodeBlocks d ip := by
  obtain ⟨s, hs, hq⟩ := List.mem_flatMap.1 hq
  exact List.mem_flatMap.2 ⟨s, hs, entry_mem_treeBlocks hq hj he⟩

end Xv6Kernel
