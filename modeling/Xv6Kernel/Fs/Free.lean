import Xv6Kernel.Fs.Bmap

/-!
# What `itrunc` and `iput` free

`itrunc` frees the 13 trees of an inode with three nested loops that read each indirect
block's entries as they go, while clearing bits in the bitmap.  As long as no indirect block is
a bitmap block, the entries read are those of the disk before the loop, so the loops are one
loop of `bfree` over `inodeBlocks`, in the order `inodeBlocks` lists them (`freeTree_eq`,
`itrunc_eq`).  On a disk that owns the inode's blocks, that loop never meets a clear bit
(`foldlM_bfree_spec`): every free succeeds, and the bitmap afterwards is the bitmap before
without exactly the inode's blocks (`itrunc_spec`).
-/

namespace Xv6Kernel

variable {sb : Superblock}

/-! ### A loop of `bfree` -/

/-- `bfree` of a block on the disk writes only its bitmap block. -/
theorem bfree_frame (hv : sb.Valid) {d d' : Disk} {b : ℕ} (hb : b < sb.size)
    (h : bfree sb d b = .ok d') : ∀ q, (q < sb.bmapstart ∨ sb.nmeta ≤ q) → d' q = d q := by
  intro q hq
  obtain ⟨-, rfl⟩ := bfree_eq_ok h
  have := hv.bblock_mem hb
  exact Function.update_of_ne (by omega) _ _

theorem foldlM_bfree_frame (hv : sb.Valid) {L : List ℕ} {d d' : Disk}
    (hL : ∀ x ∈ L, x < sb.size) (h : L.foldlM (bfree sb) d = .ok d') :
    ∀ q, (q < sb.bmapstart ∨ sb.nmeta ≤ q) → d' q = d q :=
  foldlM_inv (f := bfree sb) (fun d₁ => ∀ q, (q < sb.bmapstart ∨ sb.nmeta ≤ q) → d₁ q = d q)
    (fun _ x _ hx hI hb q hq => (bfree_frame hv (hL x hx) hb q hq).trans (hI q hq))
    (fun _ _ => rfl) h

/-- **No double free**: freeing distinct blocks whose bits are set succeeds, and clears exactly
their bits. -/
theorem foldlM_bfree_spec : ∀ {L : List ℕ} {d : Disk}, L.Nodup → (∀ x ∈ L, bitAt sb d x = true) →
    ∃ d', L.foldlM (bfree sb) d = .ok d' ∧ ∀ x, bitAt sb d' x = (bitAt sb d x && !decide (x ∈ L))
  | [], d, _, _ => ⟨d, rfl, fun x => by simp⟩
  | b :: L, d, hnd, hset => by
    obtain ⟨hb, hnd⟩ := List.nodup_cons.1 hnd
    set d₁ := Function.update d (BBLOCK b sb) (Bytes.clearBit (d (BBLOCK b sb)) (b % BPB))
    have h₁ : bfree sb d b = .ok d₁ := by
      simp [bfree, hset b List.mem_cons_self, d₁]
    -- the other blocks keep their bits
    have hset₁ : ∀ x ∈ L, bitAt sb d₁ x = true := fun x hx => by
      rw [bitAt_clearBit, hset x (List.mem_cons_of_mem _ hx)]
      simp [show x ≠ b from fun h => hb (h ▸ hx)]
    obtain ⟨d', h', hbits⟩ := foldlM_bfree_spec hnd hset₁
    refine ⟨d', by rw [List.foldlM_cons, h₁]; exact h', fun x => ?_⟩
    rw [hbits, bitAt_clearBit]
    by_cases hx : x = b <;> simp [hx]

/-! ### `itrunc` is a loop of `bfree` -/

variable {d : Disk}

/-- **`freeTree` frees the blocks of `treeBlocks`, in order**, from any disk `d₀` that agrees with
`d` outside the bitmap, when the tree's blocks are data blocks of the disk. -/
theorem freeTree_eq (hv : sb.Valid) : ∀ {k p : ℕ} {d₀ : Disk}, p ≠ 0 →
    (∀ q ∈ treeBlocks d k p, sb.nmeta ≤ q ∧ q < sb.size) →
    (∀ q, (q < sb.bmapstart ∨ sb.nmeta ≤ q) → d₀ q = d q) →
    freeTree sb d₀ k p = (treeBlocks d k p).foldlM (bfree sb) d₀
  | 0, p, d₀, hp, _, _ => by simp [freeTree, treeBlocks, hp]
  | k + 1, p, d₀, hp, hb, h₀ => by
    have hsub : ∀ j ∈ List.range NINDIRECT, ∀ q ∈ treeBlocks d k (entry d p j),
        sb.nmeta ≤ q ∧ q < sb.size := fun j hj q hq => hb q (by
      rw [treeBlocks_succ hp]
      exact List.mem_append_left _ (List.mem_flatMap.2 ⟨j, hj, hq⟩))
    have hpb : sb.nmeta ≤ p ∧ p < sb.size := hb p (by simp [treeBlocks_succ hp])
    rw [freeTree, treeBlocks_succ hp, List.foldlM_append, foldlM_flatMap]
    -- the loop over the entries: the invariant is agreement with `d` outside the bitmap, so the
    -- entries read along the way are those of `d`
    have hloop := foldlM_congr_inv (l := List.range NINDIRECT)
      (f := fun d₁ j => if entry d₁ p j = 0 then pure d₁ else freeTree sb d₁ k (entry d₁ p j))
      (g := fun d₁ j => (treeBlocks d k (entry d p j)).foldlM (bfree sb) d₁)
      (fun d₁ => ∀ q, (q < sb.bmapstart ∨ sb.nmeta ≤ q) → d₁ q = d q)
      (fun d₁ j hj hI => by
        simp only [entry_congr (hI p (.inr hpb.1))]
        split_ifs with he
        · simp [he]
        · exact freeTree_eq hv he (hsub j hj) hI)
      (fun d₁ j d₂ hj hI h q hq => (foldlM_bfree_frame hv (fun x hx => (hsub j hj x hx).2) h q hq).trans
        (hI q hq)) h₀
    rw [hloop]
    simp

/-- The inode with its addresses and size cleared, as `itrunc` leaves it. -/
def truncated (ip : Inode) : Inode := { ip with addrs := fun _ => 0, size := 0 }

/-- The slots of `l` cleared. -/
def clearSlots (l : List (Fin 13)) (ip : Inode) : Inode :=
  { ip with addrs := fun s => if s ∈ l then 0 else ip.addrs s }

/-- The loop of `itrunc` over the slots of `l` frees the blocks of their trees, in order. -/
theorem foldlM_freeSlot (hv : sb.Valid) {ip : Inode} : ∀ {l : List (Fin 13)} {d₀ : Disk} {ip₀ : Inode},
    l.Nodup → (∀ s ∈ l, ip₀.addrs s = ip.addrs s) → (∀ s ∈ l, ∀ q ∈ slotBlocks d ip s, sb.nmeta ≤ q ∧ q < sb.size) →
    (∀ q, (q < sb.bmapstart ∨ sb.nmeta ≤ q) → d₀ q = d q) →
    l.foldlM (fun (di : Disk × Inode) s => freeSlot sb di.1 di.2 s) (d₀, ip₀) =
      (fun d' => (d', clearSlots l ip₀)) <$> (l.flatMap (slotBlocks d ip)).foldlM (bfree sb) d₀
  | [], d₀, ip₀, _, _, _, _ => by
    simp only [List.foldlM_nil, List.flatMap_nil, except_pure_eq, except_map_ok]
    congr
  | s :: l, d₀, ip₀, hnd, hip, hb, h₀ => by
    obtain ⟨hsl, hnd⟩ := List.nodup_cons.1 hnd
    have hs : ip₀.addrs s = ip.addrs s := hip s List.mem_cons_self
    rw [List.foldlM_cons, List.flatMap_cons, List.foldlM_append]
    -- the slot's tree goes first; what follows is the same loop from the disk it leaves
    have hfirst : freeSlot sb d₀ ip₀ s =
        (fun d' => (d', { ip₀ with addrs := Function.update ip₀.addrs s 0 })) <$>
          (slotBlocks d ip s).foldlM (bfree sb) d₀ := by
      unfold freeSlot
      split_ifs with h0
      · have hroot : slotRoot ip s = 0 := by simp [slotRoot, ← hs, h0]
        simp only [slotBlocks, hroot, treeBlocks_zero, List.foldlM_nil, except_pure_eq,
          except_map_ok]
        congr
        rw [← h0, Function.update_eq_self]
      · have hroot : slotRoot ip s ≠ 0 := by simpa [slotRoot, ← hs, ← UInt32.toNat_inj] using h0
        rw [show (ip₀.addrs s).toNat = slotRoot ip s by rw [hs]; rfl,
          freeTree_eq hv hroot (hb s List.mem_cons_self) h₀, slotBlocks]
        cases List.foldlM (bfree sb) d₀ (treeBlocks d (slotDepth s) (slotRoot ip s)) <;> rfl
    rw [hfirst]
    cases hf : (slotBlocks d ip s).foldlM (bfree sb) d₀ with
    | error e => rfl
    | ok d₁ =>
      have h₁ : ∀ q, (q < sb.bmapstart ∨ sb.nmeta ≤ q) → d₁ q = d q := fun q hq =>
        (foldlM_bfree_frame hv (fun x hx => (hb s List.mem_cons_self x hx).2) hf q hq).trans (h₀ q hq)
      have hip₁ : ∀ s' ∈ l, (Function.update ip₀.addrs s 0) s' = ip.addrs s' := fun s' hs' => by
        rw [Function.update_of_ne (fun h : s' = s => hsl (h ▸ hs')),
          hip s' (List.mem_cons_of_mem _ hs')]
      have hclear : clearSlots l { ip₀ with addrs := Function.update ip₀.addrs s 0 } =
          clearSlots (s :: l) ip₀ := by
        unfold clearSlots
        congr 1
        funext s'
        by_cases h : s' = s
        · simp [h]
        · simp [h]
      simp only [except_map_ok, except_ok_bind]
      rw [foldlM_freeSlot hv hnd hip₁ (fun s' hs' => hb s' (List.mem_cons_of_mem _ hs')) h₁, hclear]

/-- **`itrunc` is a loop of `bfree` over the inode's blocks**, then the `iupdate` of the
truncated inode, when the inode's blocks are data blocks of the disk. -/
theorem itrunc_eq (hv : sb.Valid) {ip : Inode}
    (hb : ∀ q ∈ inodeBlocks d ip, sb.nmeta ≤ q ∧ q < sb.size) :
    itrunc sb d ip = (fun d' => (iupdate sb d' (truncated ip), truncated ip)) <$>
      (inodeBlocks d ip).foldlM (bfree sb) d := by
  have hslots : ∀ s ∈ List.finRange 13, ∀ q ∈ slotBlocks d ip s, sb.nmeta ≤ q ∧ q < sb.size :=
    fun s _ q hq => hb q (List.mem_flatMap.2 ⟨s, List.mem_finRange s, hq⟩)
  have hclear : { clearSlots (List.finRange 13) ip with size := 0 } = truncated ip := by
    simp [clearSlots, truncated]
  unfold itrunc
  rw [foldlM_freeSlot hv (List.nodup_finRange 13) (fun _ _ => rfl) hslots (fun _ _ => rfl),
    inodeBlocks]
  cases List.foldlM (bfree sb) d (List.flatMap (slotBlocks d ip) (List.finRange 13)) with
  | error e => rfl
  | ok d' =>
    show Except.ok (iupdate sb d' { clearSlots (List.finRange 13) ip with size := 0 },
      { clearSlots (List.finRange 13) ip with size := 0 }) = _
    rw [hclear]
    rfl

/-- Freeing a part `T` of the owned blocks leaves the rest owned. -/
theorem Owns.free {d' : Disk} {R T : List ℕ} (h : Owns sb d (R ++ T))
    (hbits : ∀ x, bitAt sb d' x = (bitAt sb d x && !decide (x ∈ T))) : Owns sb d' R where
  nodup := (List.nodup_append.1 h.nodup).1
  bounds q hq := h.bounds q (List.mem_append_left _ hq)
  bits x hx := by
    rw [hbits, Bool.and_eq_true, h.bits x hx, Bool.not_eq_true', decide_eq_false_iff_not,
      List.mem_append]
    constructor
    · rintro ⟨hm | hm | hm, hT⟩
      · exact .inl hm
      · exact .inr hm
      · exact absurd hm hT
    · rintro (hm | hm)
      · -- a metadata block is not owned
        refine ⟨.inl hm, fun hT => ?_⟩
        have := (h.bounds x (List.mem_append_right _ hT)).1
        omega
      · exact ⟨.inr (.inl hm), fun hT => h.ne_of_mem hm hT rfl⟩

/-- **What `itrunc` does on a disk that owns the inode's blocks**: every free succeeds, the
bitmap loses exactly the inode's blocks, nothing else but the bitmap is written before the
inode is, and the disk owns the rest. -/
theorem itrunc_spec (hv : sb.Valid) {ip : Inode} {R : List ℕ} (h : Owns sb d (R ++ inodeBlocks d ip)) :
    ∃ d', itrunc sb d ip = .ok (iupdate sb d' (truncated ip), truncated ip) ∧
      (∀ x, bitAt sb d' x = (bitAt sb d x && !decide (x ∈ inodeBlocks d ip))) ∧
      (∀ q, (q < sb.bmapstart ∨ sb.nmeta ≤ q) → d' q = d q) ∧ Owns sb d' R := by
  have hb : ∀ q ∈ inodeBlocks d ip, sb.nmeta ≤ q ∧ q < sb.size :=
    fun q hq => h.bounds q (List.mem_append_right _ hq)
  have hset : ∀ x ∈ inodeBlocks d ip, bitAt sb d x = true :=
    fun x hx => (h.bits x (hb x hx).2).2 (.inr (List.mem_append_right _ hx))
  obtain ⟨d', hf, hbits⟩ := foldlM_bfree_spec (List.nodup_append.1 h.nodup).2.1 hset
  refine ⟨d', ?_, hbits, foldlM_bfree_frame hv (fun x hx => (hb x hx).2) hf, h.free hbits⟩
  rw [itrunc_eq hv hb, hf]
  rfl

/-- **What `iput` does to an inode without links**, on a disk that owns its blocks: `itrunc`,
then the dinode written back free. -/
theorem iput_spec (hv : sb.Valid) {ip : Inode} {R : List ℕ} (h : Owns sb d (R ++ inodeBlocks d ip))
    (hn : ip.nlink = 0) :
    ∃ d', iput sb d ip = .ok (iupdate sb (iupdate sb d' (truncated ip)) { truncated ip with type := 0 },
        { truncated ip with type := 0 }) ∧
      (∀ x, bitAt sb d' x = (bitAt sb d x && !decide (x ∈ inodeBlocks d ip))) ∧
      (∀ q, (q < sb.bmapstart ∨ sb.nmeta ≤ q) → d' q = d q) ∧ Owns sb d' R := by
  obtain ⟨d', ht, hbits, hframe, hown⟩ := itrunc_spec hv h
  refine ⟨d', ?_, hbits, hframe, hown⟩
  rw [iput, if_pos hn, ht]
  rfl

end Xv6Kernel
