import Xv6Kernel.Lib.Except
import Xv6Kernel.Proc.State

/-!
# User address spaces (`vm.c`)

`allocuvm`, `deallocuvm`, `copyuvm`, `freevm` and the `walkpgdir`/`mappages` they call, on
`PageDir`.  A page directory keeps, for each 4 MB region (`PDX`), whether its page table
exists, and for each user page whether it is present; a new page table is zeroed, so a page
of a region without a table is never present.  `kalloc` is taken to succeed (physical memory
is not modelled), so the out-of-memory branches of these functions are not taken.

Each function is written as the loop of the source over the page addresses it visits
(`pagesFrom`); the panics they can reach are errors: `mappages` finding a present page
("remap") and `copyuvm` finding a missing one.
-/

namespace Xv6Kernel

/-- `PDX(va)`: the page-directory index of a virtual address. -/
def PDX (va : ℕ) : ℕ := va / 2 ^ 22 % 1024

/-- The page addresses `a = lo, lo + PGSIZE, …` with `a < hi`, as `for(; a < hi; a += PGSIZE)`
visits them. -/
def pagesFrom (lo hi : ℕ) : List ℕ :=
  (List.range ((hi - lo + PGSIZE - 1) / PGSIZE)).map fun j => lo + j * PGSIZE

namespace PageDir

/-- A page directory with no user page (`setupkvm`, reduced to the user part). -/
def empty : PageDir := ⟨fun _ => false, fun _ => false, fun _ => 0⟩

/-- `walkpgdir(pgdir, va, 0)`, read: `none` when `va`'s region has no page table (a null PTE
pointer), else the present bit of its page. -/
def walkpgdir (pd : PageDir) (va : ℕ) : Option Bool :=
  if pd.pde (PDX va) then some (pd.pte (va / PGSIZE)) else none

/-- `mappages(pgdir, a, PGSIZE, …)` for one page, after `kalloc` and `memset` of the new page:
the page table of the region is created if needed; a present page is `panic("remap")`. -/
def mappage (pd : PageDir) (a : ℕ) : Except String PageDir :=
  if pd.pde (PDX a) && pd.pte (a / PGSIZE) then .error "remap"
  else .ok { pde := Function.update pd.pde (PDX a) true
             pte := Function.update pd.pte (a / PGSIZE) true
             mem := fun x => if x / PGSIZE = a / PGSIZE then 0 else pd.mem x }

theorem walkpgdir_eq_some_true {pd : PageDir} {a : ℕ} :
    pd.walkpgdir a = some true ↔ pd.pde (PDX a) = true ∧ pd.pte (a / PGSIZE) = true := by
  unfold walkpgdir
  split <;> simp [*]

theorem mappage_of_present {pd : PageDir} {a : ℕ} (h : pd.walkpgdir a = some true) :
    pd.mappage a = .error "remap" := by
  obtain ⟨h₁, h₂⟩ := walkpgdir_eq_some_true.1 h
  simp [mappage, h₁, h₂]

theorem mappage_of_absent {pd : PageDir} {a : ℕ} (h : pd.walkpgdir a ≠ some true) :
    ∃ pd', pd.mappage a = .ok pd' := by
  unfold mappage
  rw [if_neg]
  · exact ⟨_, rfl⟩
  · simpa [walkpgdir_eq_some_true] using h

/-- `mappages` only adds present pages. -/
theorem walkpgdir_mappage {pd pd' : PageDir} {a b : ℕ} (h : pd.mappage b = .ok pd')
    (ha : pd.walkpgdir a = some true) : pd'.walkpgdir a = some true := by
  unfold mappage at h
  split at h
  · cases h
  · cases h
    obtain ⟨h₁, h₂⟩ := walkpgdir_eq_some_true.1 ha
    rw [walkpgdir_eq_some_true]
    constructor
    · by_cases hx : PDX a = PDX b <;> simp [hx, h₁]
    · by_cases hx : a / PGSIZE = b / PGSIZE <;> simp [hx, h₂]

/-- Mapping pages one by one panics if one of them is present already. -/
theorem foldlM_mappage_remap : ∀ (l : List ℕ) (pd : PageDir),
    (∃ a ∈ l, pd.walkpgdir a = some true) → l.foldlM mappage pd = .error "remap"
  | [], _, ⟨_, ha, _⟩ => by simp at ha
  | b :: l, pd, ⟨a, ha, hp⟩ => by
    rw [List.foldlM_cons]
    by_cases hb : pd.walkpgdir b = some true
    · rw [mappage_of_present hb]
      rfl
    · obtain ⟨pd', hpd'⟩ := mappage_of_absent hb
      rw [hpd', except_ok_bind]
      apply foldlM_mappage_remap l pd'
      rcases List.mem_cons.1 ha with rfl | ha
      · exact absurd hp hb
      · exact ⟨a, ha, walkpgdir_mappage hpd' hp⟩

/-- Clear the present bit of the page at `a` (`*pte = 0` after `kfree`). -/
def unmap (pd : PageDir) (a : ℕ) : PageDir :=
  { pd with pte := Function.update pd.pte (a / PGSIZE) false }

end PageDir

/-- `allocuvm(pgdir, oldsz, newsz)`: the new size, `0` on failure. -/
def allocuvm (pd : PageDir) (oldsz newsz : ℕ) : Except String (ℕ × PageDir) :=
  if KERNBASE ≤ newsz then .ok (0, pd)
  else if newsz < oldsz then .ok (oldsz, pd)
  else do
    let pd ← (pagesFrom (PGROUNDUP oldsz) newsz).foldlM PageDir.mappage pd
    pure (newsz, pd)

/-- `deallocuvm(pgdir, oldsz, newsz)`: the new size.  The source skips a region without a page
table in one move; its pages are not present, so visiting them page by page changes nothing. -/
def deallocuvm (pd : PageDir) (oldsz newsz : ℕ) : ℕ × PageDir :=
  if oldsz ≤ newsz then (oldsz, pd)
  else (newsz, (pagesFrom (PGROUNDUP newsz) oldsz).foldl PageDir.unmap pd)

/-- `copyuvm(pgdir, sz)`: a new page directory holding a copy of the pages below `sz`. -/
def copyuvm (pd : PageDir) (sz : ℕ) : Except String PageDir :=
  (pagesFrom 0 sz).foldlM (fun d i =>
    match pd.walkpgdir i with
    | none => .error "copyuvm: pte should exist"
    | some false => .error "copyuvm: page not present"
    | some true => do
      let d ← d.mappage i
      pure { d with mem := fun x => if x / PGSIZE = i / PGSIZE then pd.mem x else d.mem x })
    PageDir.empty

namespace Kernel

/-- `setupkvm()`: a fresh page directory and its identifier. -/
def setupkvm (k : Kernel) : ℕ × Kernel :=
  (k.nextPgdir, { k.setPgdir k.nextPgdir (some PageDir.empty) with nextPgdir := k.nextPgdir + 1 })

/-- The page directory a proc field names; a freed or missing one stops the model (the source
would go on using freed memory). -/
def pgdirOf (k : Kernel) (d : Option ℕ) : Except String (ℕ × PageDir) :=
  match d with
  | none => .error "null page directory"
  | some d =>
    match k.pgdirs d with
    | none => .error "use of a freed page directory"
    | some pd => .ok (d, pd)

@[simp] theorem pgdirOf_setProc (k : Kernel) (i : Slot) (p : Proc) (d : Option ℕ) :
    (k.setProc i p).pgdirOf d = k.pgdirOf d := rfl

/-- `freevm(pgdir)`. -/
def freevm (k : Kernel) (d : Option ℕ) : Except String Kernel :=
  match d with
  | none => .error "freevm: no pgdir"
  | some d => .ok (k.setPgdir d none)

/-- `switchuvm(p)`: its checks; loading `cr3` changes nothing modelled. -/
def switchuvm (k : Kernel) (i : Slot) : Except String Unit :=
  if !(k.proc i).kstack then .error "switchuvm: no kstack"
  else if (k.proc i).pgdir = none then .error "switchuvm: no pgdir"
  else .ok ()

end Kernel

end Xv6Kernel
