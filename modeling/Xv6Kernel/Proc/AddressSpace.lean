import Xv6Kernel.Proc.Step

/-!
# The address space of an LWP group

The threads of a group share the main thread's page directory; a thread's stack is the page
below its `ustack`, found at `thread_create` above the stack of a member of the list, and
`sz` is the top of what the group has mapped.  Two operations do not keep `sz` above every
mapped page:

* `deallocuvm_walkpgdir_above` : `thread_exit` unmaps the exiting thread's stack with
  `deallocuvm(ustack, ustack - PGSIZE)` and makes the result the group's `sz`, which leaves
  every page above that stack mapped, the stacks of later threads included;
* `allocuvm_remap`, `sbrk_remap` : growing from `sz` over a page that is still mapped reaches
  `panic("remap")`.

`sbrk_over_thread_stack` is a run from boot: a program creates two threads; the first exits,
which sets the group's size to the base of its stack, below the second thread's stack; the
main thread's `sbrk` then maps over that stack.
-/

namespace Xv6Kernel

theorem mem_pagesFrom {lo hi b : ℕ} (h : b ∈ pagesFrom lo hi) : lo ≤ b ∧ b < hi := by
  simp only [pagesFrom, List.mem_map, List.mem_range] at h
  obtain ⟨j, hj, rfl⟩ := h
  simp only [PGSIZE] at hj ⊢
  omega

/-! ### Shrinking -/

/-- Unmapping one page leaves the others. -/
theorem walkpgdir_unmap {pd : PageDir} {a b : ℕ} (h : b / PGSIZE ≠ a / PGSIZE) :
    (pd.unmap b).walkpgdir a = pd.walkpgdir a := by
  simp [PageDir.unmap, PageDir.walkpgdir, Ne.symm h]

/-- Unmapping pages that are all other than `a`'s leaves `a`'s. -/
theorem foldl_unmap_walkpgdir {a : ℕ} : ∀ (l : List ℕ) (pd : PageDir),
    (∀ b ∈ l, b / PGSIZE ≠ a / PGSIZE) → (l.foldl PageDir.unmap pd).walkpgdir a = pd.walkpgdir a
  | [], _, _ => rfl
  | b :: l, pd, h => by
    rw [List.foldl_cons, foldl_unmap_walkpgdir l _ (fun x hx => h x (List.mem_cons_of_mem _ hx)),
      walkpgdir_unmap (h b List.mem_cons_self)]

/-- **`deallocuvm(oldsz, newsz)` leaves every page at or above `oldsz` as it was.** -/
theorem deallocuvm_walkpgdir_above {pd : PageDir} {oldsz newsz a : ℕ} (ha : oldsz ≤ a)
    (hal : a % PGSIZE = 0) :
    (deallocuvm pd oldsz newsz).2.walkpgdir a = pd.walkpgdir a := by
  unfold deallocuvm
  split
  · rfl
  · apply foldl_unmap_walkpgdir
    -- every page unmapped lies below `oldsz`, so on another page than `a`
    intro b hb
    have := (mem_pagesFrom hb).2
    simp only [PGSIZE] at hal ⊢
    omega

/-! ### Growing -/

/-- **`allocuvm` panics on a page that is mapped already**: growing from `oldsz` to `newsz`
over a present page reaches `panic("remap")`. -/
theorem allocuvm_remap {pd : PageDir} {oldsz newsz a : ℕ} (hk : newsz < KERNBASE)
    (hle : oldsz ≤ newsz) (ha : a ∈ pagesFrom (PGROUNDUP oldsz) newsz)
    (hp : pd.walkpgdir a = some true) :
    allocuvm pd oldsz newsz = .error "remap" := by
  unfold allocuvm
  rw [if_neg (by omega), if_neg (by omega), PageDir.foldlM_mappage_remap _ _ ⟨a, ha, hp⟩]
  rfl

/-- `sbrk(n)` with `n > 0` panics when the range it grows over holds a mapped page. -/
theorem sbrk_remap {k : Kernel} {cur : Slot} {n : ℤ} {d a : ℕ} {pd : PageDir}
    (hd : k.pgdirOf (k.proc cur).pgdir = .ok (d, pd)) (hn : 0 < n)
    (hk : addInt (k.proc cur).sz n < KERNBASE) (hle : (k.proc cur).sz ≤ addInt (k.proc cur).sz n)
    (ha : a ∈ pagesFrom (PGROUNDUP (k.proc cur).sz) (addInt (k.proc cur).sz n))
    (hp : pd.walkpgdir a = some true) :
    sbrk k cur n = .error "remap" := by
  unfold sbrk
  simp only [hd, except_ok_bind, if_pos hn, allocuvm_remap hk hle ha hp]
  rfl

/-! ### A run from boot -/

/-- On one CPU: the program creates two threads and yields to the first, which exits; the
second runs and yields back to the main thread. -/
def threadExitsBelow : List Event :=
  bootShell ++
  [.syscall cpu0 .threadCreate, .syscall cpu0 .threadCreate, .syscall cpu0 .yield, .resume cpu0,
   .syscall cpu0 (.threadExit 0), .resume cpu0, .syscall cpu0 .yield, .resume cpu0]

/-- The main thread's `sbrk(8192)` grows over the second thread's stack. -/
theorem sbrk_over_thread_stack :
    ∃ k, Reachable 1 k ∧ step k (.syscall cpu0 (.sbrk 8192)) = .error "remap" := by
  obtain ⟨k, hk, hq⟩ := Reachable.of_run 1 threadExitsBelow
    (stepFails (.syscall cpu0 (.sbrk 8192)) "remap") (by decide +kernel)
  exact ⟨k, hk, stepFails_iff.1 hq⟩

end Xv6Kernel
