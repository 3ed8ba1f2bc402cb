import Mathlib.Data.List.Nodup
import Xv6Kernel.Fs.Tree

/-!
# What `bmap` does

`Owns sb d L` says that the blocks in use above the metadata are the list `L`, each once:
its blocks are data blocks of the disk, distinct, and the set bits of the bitmap are the
metadata and `L`.  From a disk where `L` holds the other files' blocks and a tree of one
file, a walk of `bmap` down that tree (`bmapWalk_spec`):

* allocates blocks `A` outside `L`, and the tree grows by exactly `A`, so that the disk still
  owns `L` and the new tree;
* writes only the bitmap, the tree's own indirect blocks and the blocks of `A`;
* finds a block for its index, and changes the block of no other index;
* allocates nothing when the block is already there, and a block it allocates for the data is
  zeroed.
-/

namespace Xv6Kernel

variable {sb : Superblock}

/-- The blocks in use above the metadata are `L`: distinct data blocks, and the set bits of
the bitmap are the metadata blocks and `L`. -/
structure Owns (sb : Superblock) (d : Disk) (L : List ℕ) : Prop where
  nodup : L.Nodup
  bounds : ∀ q ∈ L, sb.nmeta ≤ q ∧ q < sb.size
  bits : ∀ x < sb.size, bitAt sb d x = true ↔ x < sb.nmeta ∨ x ∈ L

theorem Owns.perm {d : Disk} {L L' : List ℕ} (h : Owns sb d L) (hp : L.Perm L') : Owns sb d L' where
  nodup := hp.nodup_iff.1 h.nodup
  bounds q hq := h.bounds q (hp.symm.subset hq)
  bits x hx := by rw [h.bits x hx, hp.mem_iff]

theorem Owns.of_bits {d d' : Disk} {L : List ℕ} (h : Owns sb d L)
    (hb : ∀ x < sb.size, bitAt sb d' x = bitAt sb d x) : Owns sb d' L where
  nodup := h.nodup
  bounds := h.bounds
  bits x hx := by rw [hb x hx, h.bits x hx]

/-- Two blocks of an owned list, one on each side, are different. -/
theorem Owns.ne_of_mem {d : Disk} {L₁ L₂ : List ℕ} (h : Owns sb d (L₁ ++ L₂)) {x y : ℕ}
    (hx : x ∈ L₁) (hy : y ∈ L₂) : x ≠ y :=
  (List.nodup_append.1 h.nodup).2.2 x hx y hy

/-- An owned block is not a metadata block. -/
theorem Owns.not_mem_of_lt {d : Disk} {L : List ℕ} (h : Owns sb d L) {q : ℕ} (hq : q < sb.nmeta) :
    q ∉ L := fun hm => absurd (h.bounds q hm).1 (Nat.not_le.2 hq)

theorem Superblock.Valid.nmeta_pos (hv : sb.Valid) : 0 < sb.nmeta :=
  Nat.lt_of_le_of_lt (Nat.zero_le _) hv.bitmap_below_data

theorem Superblock.Valid.bmapstart_lt_nmeta (hv : sb.Valid) : sb.bmapstart < sb.nmeta :=
  Nat.lt_of_le_of_lt (Nat.le_add_right _ _) hv.bitmap_below_data

/-- The bitmap blocks lie between the inode blocks and the data blocks. -/
theorem Superblock.Valid.bblock_mem (hv : sb.Valid) {x : ℕ} (hx : x < sb.size) :
    sb.bmapstart ≤ BBLOCK x sb ∧ BBLOCK x sb < sb.nmeta :=
  ⟨Superblock.bmapstart_le_bblock x, hv.bblock_lt_nmeta hx⟩

/-- **What `balloc` does on an owning disk**: a block `a` outside `L`, above the metadata; the
disk then owns `L` and `a`, `a` is zeroed, and only `a` and a bitmap block are written. -/
theorem Owns.balloc (hv : sb.Valid) {d d₁ : Disk} {L : List ℕ} {a : ℕ} (h : Owns sb d L)
    (hb : balloc sb d = .ok (a, d₁)) :
    a ∉ L ∧ sb.nmeta ≤ a ∧ a < sb.size ∧ d₁ a = zeroBlock ∧
      (∀ q, q ≠ a → (q < sb.bmapstart ∨ sb.nmeta ≤ q) → d₁ q = d q) ∧ Owns sb d₁ (L ++ [a]) := by
  obtain ⟨ha, hfree, -, rfl⟩ := balloc_eq_ok hb
  -- a clear bit is neither metadata nor owned
  have hout : ¬ (a < sb.nmeta ∨ a ∈ L) := fun hm => by
    rw [← h.bits a ha, hfree] at hm
    cases hm
  have hmeta : sb.nmeta ≤ a := by omega
  have hbb := hv.bblock_mem ha
  refine ⟨fun hm => hout (.inr hm), hmeta, ha, by simp, fun q hqa hq => ?_, ?_⟩
  · rw [Function.update_of_ne hqa, Function.update_of_ne (by omega)]
  · refine ⟨List.nodup_append.2 ⟨h.nodup, by simp, fun x hx y hy => ?_⟩, fun q hq => ?_,
      fun x hx => ?_⟩
    · rintro rfl
      exact hout (.inr ((List.mem_singleton.1 hy) ▸ hx))
    · rcases List.mem_append.1 hq with hq | hq
      · exact h.bounds q hq
      · rw [List.mem_singleton.1 hq]
        exact ⟨hmeta, ha⟩
    · -- zeroing `a` leaves the bitmap, which lies below the data blocks
      have hxb := hv.bblock_mem hx
      rw [bitAt_update_of_ne (by omega), bitAt_setBit, Bool.or_eq_true, decide_eq_true_eq,
        h.bits x hx, List.mem_append, List.mem_singleton]
      tauto

/-! ### A tree split at one entry -/

/-- The tree of `p` without the subtree of entry `j`: the other subtrees, then `p`. -/
def restTree (d : Disk) (k p j : ℕ) : List ℕ :=
  ((List.range NINDIRECT).erase j).flatMap (fun j' => treeBlocks d k (entry d p j')) ++ [p]

variable {d d' : Disk} {k p j : ℕ}

theorem treeBlocks_split (hp : p ≠ 0) (hj : j < NINDIRECT) :
    (treeBlocks d (k + 1) p).Perm (treeBlocks d k (entry d p j) ++ restTree d k p j) := by
  rw [treeBlocks_succ hp, restTree, ← List.append_assoc]
  exact (perm_flatMap_erase _ (List.mem_range.2 hj)).append_right _

theorem mem_range_erase {j j' : ℕ} : j' ∈ (List.range NINDIRECT).erase j ↔ j' ≠ j ∧ j' < NINDIRECT := by
  rw [List.nodup_range.mem_erase_iff, List.mem_range]

/-- The indirect blocks of another subtree are in the rest of the tree. -/
theorem mem_restTree {j' q : ℕ} (hj' : j' ≠ j) (hlt : j' < NINDIRECT)
    (hq : q ∈ treeIndirect d k (entry d p j')) : q ∈ restTree d k p j := by
  rw [restTree]
  exact List.mem_append_left _ (List.mem_flatMap.2 ⟨j', mem_range_erase.2 ⟨hj', hlt⟩,
    mem_treeBlocks_of_mem_treeIndirect hq⟩)

theorem root_mem_restTree : p ∈ restTree d k p j := by
  simp [restTree]

/-- A block of another subtree is not the root. -/
theorem ne_root_of_nodup (hnd : (restTree d k p j).Nodup) {j' q : ℕ} (hj' : j' ≠ j)
    (hlt : j' < NINDIRECT) (hq : q ∈ treeIndirect d k (entry d p j')) : q ≠ p := by
  rw [restTree] at hnd
  exact (List.nodup_append.1 hnd).2.2 q (List.mem_flatMap.2 ⟨j', mem_range_erase.2 ⟨hj', hlt⟩,
    mem_treeBlocks_of_mem_treeIndirect hq⟩) p (List.mem_singleton_self p)

/-- The rest of the tree stays when the other entries of `p` and the indirect blocks of the
other subtrees do. -/
theorem restTree_congr (he : ∀ j' ≠ j, j' < NINDIRECT → entry d' p j' = entry d p j')
    (hsub : ∀ j' ≠ j, j' < NINDIRECT → ∀ q ∈ treeIndirect d k (entry d p j'), d' q = d q) :
    restTree d' k p j = restTree d k p j := by
  unfold restTree
  congr 1
  apply List.flatMap_congr
  intro j' hj'
  obtain ⟨hne, hlt⟩ := mem_range_erase.1 hj'
  rw [he j' hne hlt]
  exact treeBlocks_congr (hsub j' hne hlt)

/-- The lookup of an index under an entry that stays, with its subtree. -/
theorem lookupTree_other {idx : ℕ} (hp : p ≠ 0)
    (he : entry d' p (idx / NINDIRECT ^ k) = entry d p (idx / NINDIRECT ^ k))
    (hsub : ∀ q ∈ treeIndirect d k (entry d p (idx / NINDIRECT ^ k)), d' q = d q) :
    lookupTree d' (k + 1) p idx = lookupTree d (k + 1) p idx := by
  rw [lookupTree_succ hp, lookupTree_succ hp, he]
  exact lookupTree_congr hsub (mod_lt_pow idx k)

/-- A tree whose part `X` grew by `A` while the rest `Y` stayed grew by `A`. -/
theorem perm_grow {T T' X X' Y A : List ℕ} (hT : T.Perm (X ++ Y)) (hT' : T'.Perm (X' ++ Y))
    (hX : X'.Perm (X ++ A)) : T'.Perm (T ++ A) :=
  calc List.Perm T' (X ++ A ++ Y) := hT'.trans (hX.append_right Y)
    List.Perm _ (X ++ Y ++ A) := by
      simp only [List.append_assoc]
      exact List.perm_append_comm.append_left X
    List.Perm _ (T ++ A) := hT.symm.append_right A

/-- The owned list with a tree replaced by its two parts. -/
theorem perm_rest_append {R T X Y : List ℕ} (hT : T.Perm (X ++ Y)) :
    ((R ++ Y) ++ X).Perm (R ++ T) := by
  rw [List.append_assoc]
  exact (List.perm_append_comm.append_left R).trans (hT.symm.append_left R)

/-! ### The walk of `bmap` down a tree -/

/-- What a walk of `bmap` from `d` to `d'` down the tree of depth `k` under `p` does, when it
finds block `b` for index `idx`: `R` are the blocks owned elsewhere and `A` the blocks the walk
allocates. -/
structure WalkResult (sb : Superblock) (d d' : Disk) (k p idx b : ℕ) (R A : List ℕ) : Prop where
  /-- The tree grows by the allocated blocks. -/
  perm : (treeBlocks d' k p).Perm (treeBlocks d k p ++ A)
  owns : Owns sb d' (R ++ treeBlocks d' k p)
  /-- Only the bitmap, the tree's indirect blocks and the new blocks are written. -/
  frame : ∀ q, q ∉ treeIndirect d k p → q ∉ A → (q < sb.bmapstart ∨ sb.nmeta ≤ q) → d' q = d q
  found : lookupTree d' k p idx = b
  found_ne : b ≠ 0
  others : ∀ idx' < NINDIRECT ^ k, idx' ≠ idx → lookupTree d' k p idx' = lookupTree d k p idx'
  present : lookupTree d k p idx ≠ 0 → d' = d ∧ b = lookupTree d k p idx ∧ A = []
  fresh : lookupTree d k p idx = 0 → d' b = zeroBlock

variable {R A : List ℕ} {idx b : ℕ}

/-- The walk leaves the blocks owned elsewhere alone. -/
theorem WalkResult.rest_eq (hpre : Owns sb d (R ++ treeBlocks d k p))
    (w : WalkResult sb d d' k p idx b R A) {q : ℕ} (hq : q ∈ R) : d' q = d q := by
  apply w.frame q
  · exact fun hi => hpre.ne_of_mem hq (mem_treeBlocks_of_mem_treeIndirect hi) rfl
  · exact fun ha => w.owns.ne_of_mem hq (w.perm.symm.subset (List.mem_append_right _ ha)) rfl
  · exact .inr (hpre.bounds q (List.mem_append_left _ hq)).1

theorem walkResult_depth_zero (hp : p ≠ 0) (h : Owns sb d (R ++ treeBlocks d 0 p)) :
    WalkResult sb d d 0 p idx p R [] where
  perm := by simp
  owns := h
  frame _ _ _ _ := rfl
  found := rfl
  found_ne := hp
  others _ _ _ := rfl
  present _ := ⟨rfl, rfl, rfl⟩
  fresh h0 := absurd h0 hp

/-- **A walk through an entry that is there**: the walk below the entry, with the rest of the
tree counted as owned elsewhere, is the walk from `p`. -/
theorem walkResult_present {e : ℕ} (hp : p ≠ 0) (hidx : idx < NINDIRECT ^ (k + 1))
    (hj : idx / NINDIRECT ^ k = j) (he : entry d p j = e)
    (hpre : Owns sb d (R ++ treeBlocks d (k + 1) p))
    (ih : Owns sb d ((R ++ restTree d k p j) ++ treeBlocks d k e) →
      ∃ A, WalkResult sb d d' k e (idx % NINDIRECT ^ k) b (R ++ restTree d k p j) A) :
    ∃ A, WalkResult sb d d' (k + 1) p idx b R A := by
  have hjlt : j < NINDIRECT := hj ▸ div_lt_of_lt_pow hidx
  have hsplit : (treeBlocks d (k + 1) p).Perm (treeBlocks d k e ++ restTree d k p j) :=
    he ▸ treeBlocks_split hp hjlt
  have hpre' := hpre.perm (perm_rest_append hsplit).symm
  obtain ⟨A, w⟩ := ih hpre'
  -- the rest of the tree is owned elsewhere for the walk below, so it stays
  have hrest : ∀ q ∈ restTree d k p j, d' q = d q :=
    fun q hq => w.rest_eq hpre' (List.mem_append_right _ hq)
  have hent : ∀ j', entry d' p j' = entry d p j' := entry_congr (hrest p root_mem_restTree)
  have hsub : ∀ j' ≠ j, j' < NINDIRECT → ∀ q ∈ treeIndirect d k (entry d p j'), d' q = d q :=
    fun j' hne hlt q hq => hrest q (mem_restTree hne hlt hq)
  have hR : restTree d' k p j = restTree d k p j := restTree_congr (fun j' _ _ => hent j') hsub
  have hsplit' : (treeBlocks d' (k + 1) p).Perm (treeBlocks d' k e ++ restTree d k p j) := by
    have := treeBlocks_split (d := d') (k := k) hp hjlt
    rwa [hent, he, hR] at this
  refine ⟨A, ⟨perm_grow hsplit hsplit' w.perm, w.owns.perm (perm_rest_append hsplit'), ?_, ?_,
    w.found_ne, ?_, ?_, ?_⟩⟩
  · intro q hq hA hbm
    exact w.frame q (fun hi => hq (treeIndirect_subtree hp hjlt (he ▸ hi))) hA hbm
  · rw [lookupTree_succ hp, hent, hj, he]
    exact w.found
  · intro i hi hne
    by_cases hij : i / NINDIRECT ^ k = j
    · -- the same entry: the walk below changed no other offset
      rw [lookupTree_succ hp, lookupTree_succ hp, hent, hij, he]
      exact w.others _ (mod_lt_pow i k) fun hm => hne (Nat.ext_div_mod (hij.trans hj.symm) hm)
    · exact lookupTree_other hp (hent _) (hsub _ hij (div_lt_of_lt_pow hi))
  · rw [lookupTree_succ hp, hj, he]
    exact w.present
  · rw [lookupTree_succ hp, hj, he]
    exact w.fresh

/-- **A walk through a missing entry**: `balloc` gives a zeroed block `a`, the entry is set to
it, and the walk below `a`, with the rest of the tree counted as owned elsewhere, is the walk
from `p`; the tree grows by `a` and the blocks the walk below allocates. -/
theorem walkResult_fresh (hv : sb.Valid) {a : ℕ} {d₁ : Disk} (hp : p ≠ 0)
    (hidx : idx < NINDIRECT ^ (k + 1)) (hj : idx / NINDIRECT ^ k = j) (he : entry d p j = 0)
    (hpre : Owns sb d (R ++ treeBlocks d (k + 1) p)) (hb : balloc sb d = .ok (a, d₁))
    (ih : Owns sb (setEntry d₁ p j a) ((R ++ restTree d k p j) ++
        treeBlocks (setEntry d₁ p j a) k a) →
      ∃ A, WalkResult sb (setEntry d₁ p j a) d' k a (idx % NINDIRECT ^ k) b
        (R ++ restTree d k p j) A) :
    ∃ A, WalkResult sb d d' (k + 1) p idx b R A := by
  obtain ⟨haL, hmeta, hsize, hza, hframe₁, hown₁⟩ := hpre.balloc hv hb
  have hjlt : j < NINDIRECT := hj ▸ div_lt_of_lt_pow hidx
  have ha0 : a ≠ 0 := by have := hv.nmeta_pos; omega
  have hsplit : (treeBlocks d (k + 1) p).Perm (restTree d k p j) := by
    simpa [he] using treeBlocks_split (d := d) (k := k) hp hjlt
  have hpL : p ∈ R ++ treeBlocks d (k + 1) p :=
    List.mem_append_right _ (hsplit.symm.subset root_mem_restTree)
  have hap : a ≠ p := fun h => haL (h ▸ hpL)
  have hpmeta : sb.nmeta ≤ p := (hpre.bounds p hpL).1
  set d₂ := setEntry d₁ p j a with hd₂
  have hd₂₁ : ∀ q ≠ p, d₂ q = d₁ q := fun q hq => Function.update_of_ne hq _ _
  have hza₂ : d₂ a = zeroBlock := (hd₂₁ a hap).trans hza
  have hentj : entry d₂ p j = a := by
    rw [hd₂, entry_setEntry_self, Nat.mod_eq_of_lt (lt_of_lt_of_le hsize hv.size_le)]
  have hent : ∀ j' ≠ j, entry d₂ p j' = entry d p j' := fun j' hne => by
    rw [hd₂, entry_setEntry_of_ne hne, entry_congr (hframe₁ p (Ne.symm hap) (.inr hpmeta))]
  -- the other subtrees are owned, so neither `a` nor `p` lies in them
  have hsub : ∀ j' ≠ j, j' < NINDIRECT → ∀ q ∈ treeIndirect d k (entry d p j'), d₂ q = d q := by
    intro j' hne hlt q hq
    have hqT : q ∈ R ++ treeBlocks d (k + 1) p :=
      List.mem_append_right _ (hsplit.symm.subset (mem_restTree hne hlt hq))
    have hnd : (restTree d k p j).Nodup :=
      ((hpre.perm (List.Perm.append_left R hsplit)).nodup).of_append_right
    rw [hd₂₁ q (ne_root_of_nodup hnd hne hlt hq)]
    exact hframe₁ q (fun h => haL (h ▸ hqT)) (.inr (hpre.bounds q hqT).1)
  have hR₂ : restTree d₂ k p j = restTree d k p j := restTree_congr (fun j' hne _ => hent j' hne) hsub
  obtain ⟨hT₂, hI₂, hL₂⟩ := tree_of_zeroBlock ha0 hza₂ k
  have hpre₂ : Owns sb d₂ ((R ++ restTree d k p j) ++ treeBlocks d₂ k a) := by
    rw [hT₂]
    refine (hown₁.perm (((List.Perm.append_left R hsplit)).append_right [a])).of_bits fun x hx => ?_
    have := hv.bblock_mem hx
    exact bitAt_update_of_ne (by omega)
  obtain ⟨A, w⟩ := ih hpre₂
  have hrest : ∀ q ∈ restTree d k p j, d' q = d₂ q :=
    fun q hq => w.rest_eq hpre₂ (List.mem_append_right _ hq)
  have hent' : ∀ j', entry d' p j' = entry d₂ p j' := entry_congr (hrest p root_mem_restTree)
  have hsub' : ∀ j' ≠ j, j' < NINDIRECT → ∀ q ∈ treeIndirect d k (entry d p j'), d' q = d q :=
    fun j' hne hlt q hq => (hrest q (mem_restTree hne hlt hq)).trans (hsub j' hne hlt q hq)
  have hR : restTree d' k p j = restTree d k p j :=
    restTree_congr (fun j' hne _ => (hent' j').trans (hent j' hne)) hsub'
  have hsplit' : (treeBlocks d' (k + 1) p).Perm (treeBlocks d' k a ++ restTree d k p j) := by
    have := treeBlocks_split (d := d') (k := k) hp hjlt
    rwa [hent', hentj, hR] at this
  have hfound : lookupTree d' (k + 1) p idx = lookupTree d' k a (idx % NINDIRECT ^ k) := by
    rw [lookupTree_succ hp, hent', hj, hentj]
  have hold : lookupTree d (k + 1) p idx = 0 := by
    rw [lookupTree_succ hp, hj, he, lookupTree_zero]
  have hgrow : (treeBlocks d' k a).Perm ([] ++ a :: A) := by simpa [hT₂] using w.perm
  refine ⟨a :: A, ⟨perm_grow (by simpa using hsplit) hsplit' hgrow,
    w.owns.perm (perm_rest_append hsplit'), ?_, hfound.trans w.found, w.found_ne, ?_,
    fun h => absurd hold h, fun _ => ?_⟩⟩
  · intro q hq hA hbm
    have hqa : q ≠ a := fun h => hA (h ▸ List.mem_cons_self)
    have hqp : q ≠ p := by
      rintro rfl
      exact hq (root_mem_treeIndirect hp)
    have hq₂ : q ∉ treeIndirect d₂ k a := by
      rw [hI₂]
      split_ifs <;> simp [hqa]
    rw [w.frame q hq₂ (fun h => hA (List.mem_cons_of_mem _ h)) hbm, hd₂₁ q hqp]
    exact hframe₁ q hqa hbm
  · intro i hi hne
    by_cases hij : i / NINDIRECT ^ k = j
    · -- the same entry: below the new block every other offset finds nothing
      have hm : i % NINDIRECT ^ k ≠ idx % NINDIRECT ^ k :=
        fun hm => hne (Nat.ext_div_mod (hij.trans hj.symm) hm)
      rw [lookupTree_succ hp, lookupTree_succ hp, hent', hij, hentj, he, lookupTree_zero,
        w.others _ (mod_lt_pow i k) hm, hL₂]
      rcases k with _ | k
      · simp only [pow_zero, Nat.mod_one] at hm
        exact absurd rfl hm
      · simp
    · rw [lookupTree_succ hp, lookupTree_succ hp, hent', hent _ hij]
      exact lookupTree_congr (hsub' _ hij (div_lt_of_lt_pow hi)) (mod_lt_pow i k)
  · -- the block found is fresh: the new block itself at depth `0`, a block below it otherwise
    by_cases hl : lookupTree d₂ k a (idx % NINDIRECT ^ k) = 0
    · exact w.fresh hl
    · obtain ⟨rfl, rfl, -⟩ := w.present hl
      rw [hL₂] at hl ⊢
      split_ifs at hl ⊢
      · exact hza₂
      · exact absurd rfl hl

/-- **What `bmapWalk` does** on a disk that owns the blocks `R` and the tree under `p`.  The
induction is on the depth; the two steps are the two branches of the walk. -/
theorem bmapWalk_spec (hv : sb.Valid) : ∀ {k p idx b : ℕ} {d d' : Disk} {R : List ℕ}, p ≠ 0 →
    idx < NINDIRECT ^ k → Owns sb d (R ++ treeBlocks d k p) →
    bmapWalk sb d k p idx = .ok (b, d') → ∃ A, WalkResult sb d d' k p idx b R A
  | 0, p, idx, b, d, d', R, hp, _, hown, h => by
    obtain ⟨rfl, rfl⟩ := Prod.mk.inj (Except.ok.inj h)
    exact ⟨[], walkResult_depth_zero hp hown⟩
  | k + 1, p, idx, b, d, d', R, hp, hidx, hown, h => by
    rw [bmapWalk] at h
    split_ifs at h with h0
    · obtain ⟨⟨a, d₁⟩, hb, h⟩ := Except.bind_eq_ok.1 h
      simp only [except_pure_eq, except_ok_bind] at h
      have ha0 : a ≠ 0 := by
        have := (hown.balloc hv hb).2.1
        have := hv.nmeta_pos
        omega
      exact walkResult_fresh hv hp hidx rfl h0 hown hb fun hpre =>
        bmapWalk_spec hv ha0 (mod_lt_pow idx k) hpre h
    · simp only [except_pure_eq, except_ok_bind] at h
      exact walkResult_present hp hidx rfl rfl hown fun hpre =>
        bmapWalk_spec hv h0 (mod_lt_pow idx k) hpre h

/-- A walk fails only when `balloc` finds the disk full. -/
theorem bmapWalk_error : ∀ {k p idx : ℕ} {d : Disk} {e : String},
    bmapWalk sb d k p idx = .error e → e = "balloc: out of blocks"
  | 0, _, _, _, _, h => by cases h
  | k + 1, p, idx, d, e, h => by
    rw [bmapWalk] at h
    split_ifs at h
    · cases hb : balloc sb d with
      | error e' =>
        rw [hb] at h
        cases h
        exact (balloc_eq_error hb).1
      | ok r =>
        rw [hb] at h
        simp only [except_pure_eq, except_ok_bind] at h
        exact bmapWalk_error h
    · simp only [except_pure_eq, except_ok_bind] at h
      exact bmapWalk_error h

/-- A walk to a block that is there allocates nothing and finds it. -/
theorem bmapWalk_present : ∀ {k p idx : ℕ} {d : Disk}, lookupTree d k p idx ≠ 0 →
    bmapWalk sb d k p idx = .ok (lookupTree d k p idx, d)
  | 0, _, _, _, _ => rfl
  | k + 1, p, idx, d, h => by
    have hp : p ≠ 0 := fun hp => h (by rw [hp, lookupTree_zero])
    rw [lookupTree_succ hp] at h ⊢
    have he : entry d p (idx / NINDIRECT ^ k) ≠ 0 := fun he => h (by rw [he, lookupTree_zero])
    rw [bmapWalk]
    split_ifs with h0
    · exact absurd h0 he
    · simp only [except_pure_eq, except_ok_bind]
      exact bmapWalk_present h

end Xv6Kernel
