import Xv6Kernel.Fs.Bmap

/-!
# `bmap` over the block map of an inode

`bmap` decodes a file block into its region (`region`) and walks the tree of that region's
slot (`bmap_eq_region`); a missing slot is allocated first and kept in the in-memory inode
only.  `bmap_spec` lifts `bmapWalk_spec` to the whole inode, with `lookup` as the reading of
the block map: the inode's blocks grow by the blocks `bmap` allocates, the disk still owns
them, the block found for `bn` is the block of `bn` afterwards, and no other file block moves.
`bmap_error` says that `bmap` fails only out of range or on a full disk.
-/

namespace Xv6Kernel

variable {sb : Superblock}

/-- The blocks of the slots other than `s`. -/
def restSlots (d : Disk) (ip : Inode) (s : Fin 13) : List ℕ :=
  ((List.finRange 13).erase s).flatMap (slotBlocks d ip)

variable {d d' : Disk} {ip ip' : Inode} {s : Fin 13}

theorem inodeBlocks_split (d : Disk) (ip : Inode) (s : Fin 13) :
    (inodeBlocks d ip).Perm (slotBlocks d ip s ++ restSlots d ip s) :=
  perm_flatMap_erase _ (List.mem_finRange s)

theorem mem_restSlots {s' : Fin 13} (hs : s' ≠ s) {q : ℕ}
    (hq : q ∈ treeIndirect d (slotDepth s') (slotRoot ip s')) : q ∈ restSlots d ip s :=
  List.mem_flatMap.2 ⟨s', (List.mem_erase_of_ne hs).2 (List.mem_finRange s'),
    mem_treeBlocks_of_mem_treeIndirect hq⟩

theorem mem_inodeIndirect {q : ℕ} (hq : q ∈ treeIndirect d (slotDepth s) (slotRoot ip s)) :
    q ∈ inodeIndirect d ip :=
  List.mem_flatMap.2 ⟨s, List.mem_finRange s, hq⟩

/-- The other slots stay when their roots and their trees' indirect blocks do. -/
theorem restSlots_congr (hr : ∀ s' ≠ s, slotRoot ip' s' = slotRoot ip s')
    (hsub : ∀ s' ≠ s, ∀ q ∈ treeIndirect d (slotDepth s') (slotRoot ip s'), d' q = d q) :
    restSlots d' ip' s = restSlots d ip s := by
  unfold restSlots
  apply List.flatMap_congr
  intro s' hs'
  have hne : s' ≠ s := ((List.nodup_finRange 13).mem_erase_iff.1 hs').1
  rw [slotBlocks, slotBlocks, hr s' hne]
  exact treeBlocks_congr (hsub s' hne)

/-- `bmap` is the walk of the slot of `bn`'s region. -/
theorem bmap_eq_region (d : Disk) (ip : Inode) (bn : ℕ) :
    bmap sb d ip bn = match region bn with
      | some (s, i) => bmapSlot sb d ip s (slotDepth s) i
      | none => .error "bmap: out of range" := by
  simp only [bmap, region]
  split_ifs with h₀
  · simp [slotDepth, h₀]
  all_goals rfl

/-! ### What `bmap` does -/

/-- What `bmap` of file block `bn` from disk `d` and inode `ip` to `d'` and `ip'` does when it
finds block `b`: `R` are the blocks owned elsewhere and `A` the blocks it allocates. -/
structure BmapResult (sb : Superblock) (d d' : Disk) (ip ip' : Inode) (bn b : ℕ)
    (R A : List ℕ) : Prop where
  perm : (inodeBlocks d' ip').Perm (inodeBlocks d ip ++ A)
  owns : Owns sb d' (R ++ inodeBlocks d' ip')
  frame : ∀ q, q ∉ inodeIndirect d ip → q ∉ A → (q < sb.bmapstart ∨ sb.nmeta ≤ q) → d' q = d q
  /-- Only the addresses of the in-memory inode change. -/
  fields : ip' = { ip with addrs := ip'.addrs }
  found : lookup d' ip' bn = b
  found_ne : b ≠ 0
  others : ∀ bn' ≠ bn, lookup d' ip' bn' = lookup d ip bn'
  present : lookup d ip bn ≠ 0 → d' = d ∧ ip' = ip ∧ b = lookup d ip bn ∧ A = []
  fresh : lookup d ip bn = 0 → d' b = zeroBlock

variable {R A : List ℕ} {bn b i : ℕ}

/-- The lookup of another file block, when its slot's tree is the same on both sides or it
lies in slot `s` where the walk changed no other index. -/
theorem lookup_other (hr : region bn = some (s, i)) (hroot : ∀ s' ≠ s, slotRoot ip' s' = slotRoot ip s')
    (hsub : ∀ s' ≠ s, ∀ q ∈ treeIndirect d (slotDepth s') (slotRoot ip s'), d' q = d q)
    (hsame : ∀ i' < NINDIRECT ^ slotDepth s, i' ≠ i →
      lookupTree d' (slotDepth s) (slotRoot ip' s) i' = lookupTree d (slotDepth s) (slotRoot ip s) i')
    {bn' : ℕ} (hne : bn' ≠ bn) : lookup d' ip' bn' = lookup d ip bn' := by
  cases hr' : region bn' with
  | none => rw [lookup_of_region_none hr', lookup_of_region_none hr']
  | some x =>
    obtain ⟨s', i'⟩ := x
    rw [lookup_of_region hr', lookup_of_region hr']
    by_cases hs : s' = s
    · subst hs
      refine hsame i' (region_lt hr') fun hi => hne (region_inj hr' ?_)
      rw [hr, hi]
    · rw [hroot s' hs]
      exact lookupTree_congr (hsub s' hs) (region_lt hr')

/-- **`bmap` through a slot that is there**: the walk of its tree, with the other slots counted
as owned elsewhere. -/
theorem bmapResult_present (hr : region bn = some (s, i))
    (hpre : Owns sb d (R ++ inodeBlocks d ip))
    (ih : Owns sb d ((R ++ restSlots d ip s) ++ treeBlocks d (slotDepth s) (slotRoot ip s)) →
      ∃ A, WalkResult sb d d' (slotDepth s) (slotRoot ip s) i b (R ++ restSlots d ip s) A) :
    ∃ A, BmapResult sb d d' ip ip bn b R A := by
  have hsplit := inodeBlocks_split d ip s
  have hpre' := hpre.perm (perm_rest_append hsplit).symm
  obtain ⟨A, w⟩ := ih hpre'
  have hsub : ∀ s' ≠ s, ∀ q ∈ treeIndirect d (slotDepth s') (slotRoot ip s'), d' q = d q :=
    fun s' hne q hq => w.rest_eq hpre' (List.mem_append_right _ (mem_restSlots hne hq))
  have hsplit' : (inodeBlocks d' ip).Perm (treeBlocks d' (slotDepth s) (slotRoot ip s) ++
      restSlots d ip s) := by
    simpa only [slotBlocks, restSlots_congr (fun _ _ => rfl) hsub] using inodeBlocks_split d' ip s
  have hlk : lookup d ip bn = lookupTree d (slotDepth s) (slotRoot ip s) i := lookup_of_region hr
  refine ⟨A, ⟨perm_grow hsplit hsplit' w.perm, w.owns.perm (perm_rest_append hsplit'),
    fun q hq hA hbm => w.frame q (fun hi => hq (mem_inodeIndirect hi)) hA hbm, rfl,
    (lookup_of_region hr).trans w.found, w.found_ne,
    fun bn' hne => lookup_other hr (fun _ _ => rfl) hsub w.others hne, ?_, ?_⟩⟩
  · intro h0
    rw [hlk] at h0 ⊢
    obtain ⟨hd, hb, hA⟩ := w.present h0
    exact ⟨hd, rfl, hb, hA⟩
  · rw [hlk]
    exact w.fresh

/-- **`bmap` through a missing slot**: `balloc` gives a zeroed block `a`, the in-memory slot is
set to it, and the walk below `a`, with the other slots counted as owned elsewhere, is `bmap`. -/
theorem bmapResult_fresh (hv : sb.Valid) {a : ℕ} {d₁ : Disk} (hr : region bn = some (s, i))
    (hs : ip.addrs s = 0) (hpre : Owns sb d (R ++ inodeBlocks d ip))
    (hb : balloc sb d = .ok (a, d₁))
    (ih : Owns sb d₁ ((R ++ restSlots d ip s) ++ treeBlocks d₁ (slotDepth s) a) →
      ∃ A, WalkResult sb d₁ d' (slotDepth s) a i b (R ++ restSlots d ip s) A) :
    ∃ A, BmapResult sb d d' ip { ip with addrs := Function.update ip.addrs s a.toUInt32 } bn b
      R A := by
  set ip₁ : Inode := { ip with addrs := Function.update ip.addrs s a.toUInt32 }
  obtain ⟨haL, hmeta, hsize, hza, hframe₁, hown₁⟩ := hpre.balloc hv hb
  have ha0 : a ≠ 0 := by have := hv.nmeta_pos; omega
  have hs0 : slotRoot ip s = 0 := by simp [slotRoot, hs]
  have hroot : slotRoot ip₁ s = a := by
    simp only [ip₁, slotRoot, Function.update_self, Nat.toUInt32]
    exact Nat.mod_eq_of_lt (lt_of_lt_of_le hsize hv.size_le)
  have hroot' : ∀ s' ≠ s, slotRoot ip₁ s' = slotRoot ip s' := fun s' hne => by
    simp only [ip₁, slotRoot, Function.update_of_ne hne]
  have hsplit : (inodeBlocks d ip).Perm (restSlots d ip s) := by
    simpa [slotBlocks, hs0] using inodeBlocks_split d ip s
  -- the other slots' trees are owned, so `a` is not in them
  have hsub₁ : ∀ s' ≠ s, ∀ q ∈ treeIndirect d (slotDepth s') (slotRoot ip s'), d₁ q = d q := by
    intro s' hne q hq
    have hqL : q ∈ R ++ inodeBlocks d ip :=
      List.mem_append_right _ (hsplit.symm.subset (mem_restSlots hne hq))
    exact hframe₁ q (fun h => haL (h ▸ hqL)) (.inr (hpre.bounds q hqL).1)
  have hR₁ : restSlots d₁ ip₁ s = restSlots d ip s := restSlots_congr hroot' hsub₁
  obtain ⟨hT₁, hI₁, hL₁⟩ := tree_of_zeroBlock ha0 hza (slotDepth s)
  have hpre₁ : Owns sb d₁ ((R ++ restSlots d ip s) ++ treeBlocks d₁ (slotDepth s) a) := by
    rw [hT₁]
    exact hown₁.perm ((List.Perm.append_left R hsplit).append_right [a])
  obtain ⟨A, w⟩ := ih hpre₁
  have hsub' : ∀ s' ≠ s, ∀ q ∈ treeIndirect d (slotDepth s') (slotRoot ip s'), d' q = d q := by
    intro s' hne q hq
    rw [w.rest_eq hpre₁ (List.mem_append_right _ (mem_restSlots hne hq))]
    exact hsub₁ s' hne q hq
  have hsplit' : (inodeBlocks d' ip₁).Perm (treeBlocks d' (slotDepth s) a ++ restSlots d ip s) := by
    simpa only [slotBlocks, hroot, restSlots_congr hroot' hsub'] using inodeBlocks_split d' ip₁ s
  have hgrow : (treeBlocks d' (slotDepth s) a).Perm ([] ++ a :: A) := by simpa [hT₁] using w.perm
  have hfound : lookup d' ip₁ bn = lookupTree d' (slotDepth s) a i := by
    rw [lookup_of_region hr, hroot]
  have hold : lookup d ip bn = 0 := by rw [lookup_of_region hr, hs0, lookupTree_zero]
  refine ⟨a :: A, ⟨perm_grow (by simpa using hsplit) hsplit' hgrow,
    w.owns.perm (perm_rest_append hsplit'), ?_, rfl, hfound.trans w.found, w.found_ne, ?_,
    fun h => absurd hold h, fun _ => ?_⟩⟩
  · intro q hq hA hbm
    have hqa : q ≠ a := fun h => hA (h ▸ List.mem_cons_self)
    have hq₁ : q ∉ treeIndirect d₁ (slotDepth s) a := by
      rw [hI₁]
      split_ifs <;> simp [hqa]
    rw [w.frame q hq₁ (fun h => hA (List.mem_cons_of_mem _ h)) hbm]
    exact hframe₁ q hqa hbm
  · refine fun bn' hne => lookup_other hr hroot' hsub' (fun i' hi' hne' => ?_) hne
    -- below the new block every other index finds nothing, as before
    rw [hroot, w.others i' hi' hne', hL₁, hs0, lookupTree_zero]
    split_ifs with hk
    · have hi := region_lt hr
      rw [hk, pow_zero] at hi hi'
      exact absurd ((Nat.lt_one_iff.1 hi').trans (Nat.lt_one_iff.1 hi).symm) hne'
    · rfl
  · by_cases hl : lookupTree d₁ (slotDepth s) a i = 0
    · exact w.fresh hl
    · obtain ⟨rfl, rfl, -⟩ := w.present hl
      rw [hL₁] at hl ⊢
      split_ifs at hl ⊢
      · exact hza
      · exact absurd rfl hl

/-- **What `bmap` does** on a disk that owns the blocks `R` and the blocks of `ip`. -/
theorem bmap_spec (hv : sb.Valid) (hpre : Owns sb d (R ++ inodeBlocks d ip))
    (h : bmap sb d ip bn = .ok (b, d', ip')) : ∃ A, BmapResult sb d d' ip ip' bn b R A := by
  rw [bmap_eq_region] at h
  cases hr : region bn with
  | none => rw [hr] at h; cases h
  | some x =>
    obtain ⟨s, i⟩ := x
    simp only [hr] at h
    unfold bmapSlot at h
    have hi := region_lt hr
    split_ifs at h with hs
    · obtain ⟨⟨a, d₁⟩, hb, h⟩ := Except.bind_eq_ok.1 h
      simp only [except_pure_eq, except_ok_bind] at h
      obtain ⟨⟨b', d''⟩, hw, h⟩ := Except.bind_eq_ok.1 h
      obtain ⟨rfl, rfl, rfl⟩ : b' = b ∧ d'' = d' ∧ _ = ip' := by simpa using h
      have ha0 : a ≠ 0 := by
        have := (hpre.balloc hv hb).2.1
        have := hv.nmeta_pos
        omega
      exact bmapResult_fresh hv hr hs hpre hb fun hpre₁ => bmapWalk_spec hv ha0 hi hpre₁ hw
    · simp only [except_pure_eq, except_ok_bind] at h
      obtain ⟨⟨b', d''⟩, hw, h⟩ := Except.bind_eq_ok.1 h
      obtain ⟨rfl, rfl, rfl⟩ : b' = b ∧ d'' = d' ∧ ip = ip' := by simpa using h
      have hs' : slotRoot ip s ≠ 0 := by
        simpa [slotRoot, ← UInt32.toNat_inj] using hs
      exact bmapResult_present hr hpre fun hpre' => bmapWalk_spec hv hs' hi hpre' hw

/-- `bmap` fails only out of range or on a full disk. -/
theorem bmap_error {e : String} (h : bmap sb d ip bn = .error e) :
    e = "bmap: out of range" ∧ MAXFILE ≤ bn ∨ e = "balloc: out of blocks" := by
  rw [bmap_eq_region] at h
  cases hr : region bn with
  | none =>
    rw [hr] at h
    cases h
    exact .inl ⟨rfl, region_eq_none.1 hr⟩
  | some x =>
    obtain ⟨s, i⟩ := x
    simp only [hr] at h
    unfold bmapSlot at h
    right
    split_ifs at h
    · cases hb : balloc sb d with
      | error e' =>
        rw [hb] at h
        cases h
        exact (balloc_eq_error hb).1
      | ok r =>
        rw [hb] at h
        simp only [except_pure_eq, except_ok_bind] at h
        cases hw : bmapWalk sb _ _ _ i with
        | error e' => rw [hw] at h; cases h; exact bmapWalk_error hw
        | ok r' => rw [hw] at h; cases h
    · simp only [except_pure_eq, except_ok_bind] at h
      cases hw : bmapWalk sb d _ _ i with
      | error e' => rw [hw] at h; cases h; exact bmapWalk_error hw
      | ok r' => rw [hw] at h; cases h

/-- `bmap` of a file block that is there allocates nothing and finds it. -/
theorem bmap_present (h : lookup d ip bn ≠ 0) : bmap sb d ip bn = .ok (lookup d ip bn, d, ip) := by
  rw [bmap_eq_region]
  cases hr : region bn with
  | none => exact absurd (lookup_of_region_none hr) h
  | some x =>
    obtain ⟨s, i⟩ := x
    rw [lookup_of_region hr] at h ⊢
    have hs : ip.addrs s ≠ 0 := fun hs => h (by simp [slotRoot, hs])
    simp only [slotRoot] at h ⊢
    unfold bmapSlot
    rw [if_neg hs]
    simp only [except_pure_eq, except_ok_bind]
    rw [bmapWalk_present h]
    rfl

/-! ### What `bmap` keeps -/

/-- A file block that was there is where it was. -/
theorem BmapResult.lookup_kept (w : BmapResult sb d d' ip ip' bn b R A) {bn' : ℕ}
    (h : lookup d ip bn' ≠ 0) : lookup d' ip' bn' = lookup d ip bn' := by
  by_cases hb : bn' = bn
  · subst hb
    obtain ⟨rfl, rfl, -⟩ := w.present h
    rfl
  · exact w.others bn' hb

/-- The blocks `bmap` allocates were not the inode's. -/
theorem BmapResult.not_mem_alloc (w : BmapResult sb d d' ip ip' bn b R A) {q : ℕ}
    (hq : q ∈ inodeBlocks d ip) : q ∉ A := fun hA =>
  (List.nodup_append.1 (w.perm.nodup_iff.1 (List.nodup_append.1 w.owns.nodup).2.1)).2.2 q hq q hA rfl

/-- A byte of a file block that was there is what it was. -/
theorem BmapResult.fileByte_kept (hpre : Owns sb d (R ++ inodeBlocks d ip))
    (w : BmapResult sb d d' ip ip' bn b R A) {k : ℕ} (h : lookup d ip (k / BSIZE) ≠ 0) :
    fileByte d' ip' k = fileByte d ip k := by
  have hq := lookup_mem_inodeData h
  have hqb := mem_inodeBlocks_of_mem_inodeData hq
  have hnd : (inodeBlocks d ip).Nodup := (List.nodup_append.1 hpre.nodup).2.1
  unfold fileByte
  rw [w.lookup_kept h, w.frame _ (not_mem_inodeIndirect hnd hq) (w.not_mem_alloc hqb)
    (.inr (hpre.bounds _ (List.mem_append_right _ hqb)).1)]

end Xv6Kernel
