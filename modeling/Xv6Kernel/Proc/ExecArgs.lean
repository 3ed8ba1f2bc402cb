import Mathlib
import Xv6Kernel.Lib.Bytes
import Xv6Kernel.Mem.Kalloc
import Xv6Kernel.Proc.SyscallArgs
import Xv6Kernel.Proc.Vm

/-!
# The arguments `exec` puts on the new user stack (`exec.c`, `vm.c`, `string.c`)

Once the program is loaded, `exec` maps two pages at the next page boundary (`allocuvm`), makes
the lower one inaccessible to the user (`clearpteu`) and pushes the argument strings on the upper
one, then the array `ustack` that `main(argc, argv)` reads: a fake return address, `argc`, `argv`,
the addresses of the strings and the `0` that ends `argv`.  Each push is a `copyout`, which copies
page by page and fails on a page that `uva2ka` does not find present and user-accessible;
`exec` then gives up (`goto bad`) and frees the new page directory.

The page directory is `Space`: its user half is a `PageDir` with the `PTE_U` bit of each page,
and its kernel half is what `setupkvm` maps from `kmap`, present but not user-accessible, with no
page table between `KERNBASE + PHYSTOP` and `DEVSPACE`.  `uva2ka` reads the entry `walkpgdir`
returns without testing it for a null pointer: the model stops there, as it stops on the other
null entries of `vm.c`.  The user memory of the new address space is a function from virtual
addresses to bytes: the pages `allocuvm` mapped are fresh and distinct, so a write through the
kernel address that `uva2ka` returns is a write at the virtual address.  An argument is the bytes
of its string before the `NUL` that `fetchstr` found.

* `copyout_of_user`, `copyout_of_not_user` : `copyout` copies the range when each of its pages is
  accessible, and fails, or stops at a null entry, when one is not;
* `stackSpace_spec` : from a program with no page present above its size, `allocuvm` and
  `clearpteu` leave an accessible stack page, an inaccessible guard page below it, and no
  accessible page from the top of the stack up (`StackPages`);
* `pushArgs_ok`, `pushArgs_none` : the loop over `argv` puts each string, with its `NUL`, below the
  last at a multiple of 4, and fails when a string does not fit above the guard page or there are
  more than `MAXARG` of them; a string longer than what lies below `sp` wraps around to a kernel
  address, where the push fails or, in the hole of the kernel map, stops at a null entry
  (`pushArgs_wrap_hole`; `execStack_gigabyte` is such an argument);
* `execArgs_ok_iff` : the pushes succeed exactly when there are at most `MAXARG` arguments and
  they and `ustack` fit in the stack page (`stackUse`);
* `execArgs_layout` : then `main` finds `argc` and each string where `argv` says (`ArgsAt`), and
  the memory outside the part of the stack page used is as it was.
-/

namespace Xv6Kernel

namespace ExecArgs

open Bytes

/-- `MAXARG` (`param.h`): the most arguments `exec` takes. -/
def MAXARG : ℕ := 32

/-- `PGROUNDDOWN(a)`. -/
def PGROUNDDOWN (a : ℕ) : ℕ := a / PGSIZE * PGSIZE

/-- `a - b` on `uint`s. -/
def usub (a b : ℕ) : ℕ := u32 (a + 2 ^ 32 - b)

/-- `DEVSPACE` (`memlayout.h`): the devices, mapped up to the top of the address space. -/
def DEVSPACE : ℕ := 0xFE000000

/-! ### The page directory of `exec`, and `uva2ka` -/

/-- A page directory: the user half `pd`, and the `PTE_U` bit of each user page, by page
number. -/
structure Space where
  pd : PageDir
  pteu : ℕ → Bool

/-- `walkpgdir(pgdir, va, 0)`, read: `none` for a null pointer (no page table), else the `PTE_P`
and `PTE_U` bits.  From `KERNBASE` up, the entries `setupkvm` makes from `kmap`: the kernel and
physical memory below `KERNBASE + PHYSTOP` and the devices from `DEVSPACE`, with `PTE_W` and
without `PTE_U`; between them no page table. -/
def Space.walkpgdir (pgdir : Space) (va : ℕ) : Option (Bool × Bool) :=
  if va < KERNBASE then (pgdir.pd.walkpgdir va).map fun p => (p, pgdir.pteu (va / PGSIZE))
  else if va < KERNBASE + Kalloc.PHYSTOP ∨ DEVSPACE ≤ va then some (true, false)
  else none

/-- `uva2ka(pgdir, uva)`: `true` when it returns the kernel address of the page, `false` when it
returns `0`.  It reads `*pte` whatever `walkpgdir` returned; a null pointer stops the model. -/
def uva2ka (pgdir : Space) (uva : ℕ) : Except String Bool :=
  match pgdir.walkpgdir uva with
  | none => .error "uva2ka: null pte"
  | some (p, u) => .ok (p && u)

/-- `clearpteu(pgdir, uva)`: clear `PTE_U` of the page of `uva`, which must have an entry. -/
def clearpteu (pgdir : Space) (uva : ℕ) : Except String Space :=
  match pgdir.walkpgdir uva with
  | none => .error "clearpteu"
  | some _ => .ok { pgdir with pteu := Function.update pgdir.pteu (uva / PGSIZE) false }

/-! ### `copyout` -/

/-- The loop of `copyout(pgdir, va, p, len)`, with `buf = p + off`: each turn copies the part of
the range in the page of `va`, then moves `va` to the next page. -/
def copyoutLoop (pgdir : Space) (p : ℕ → UInt8) (mem : ℕ → UInt8) (va off len : ℕ) :
    Except String (Option (ℕ → UInt8)) :=
  if len = 0 then .ok (some mem)
  else
    let va0 := PGROUNDDOWN va
    match uva2ka pgdir va0 with
    | .error e => .error e
    | .ok false => .ok none
    | .ok true =>
      let n := min (PGSIZE - (va - va0)) len
      copyoutLoop pgdir p (copy mem va (fun i => p (off + i)) n) (va0 + PGSIZE) (off + n) (len - n)
termination_by len
decreasing_by
  simp only [PGROUNDDOWN, PGSIZE] at *
  omega

/-- `copyout(pgdir, va, p, len)`: the memory once it returns `0`, `none` when it returns `-1`. -/
def copyout (pgdir : Space) (mem : ℕ → UInt8) (va : ℕ) (p : ℕ → UInt8) (len : ℕ) :
    Except String (Option (ℕ → UInt8)) :=
  copyoutLoop pgdir p mem va 0 len

/-! ### The stack `exec` builds -/

/-- `strlen(s)`: the bytes of `s` before its first `NUL`, the one that ends it included. -/
def strlen : List UInt8 → ℕ
  | [] => 0
  | c :: s => if c = 0 then 0 else strlen s + 1

/-- The loop of `exec` over `argv` from `argc` on: each string, with its `NUL`, goes below the
last, at `sp = (sp - (strlen(argv[argc]) + 1)) & ~3`, and its address to `ustack[3+argc]`.
Returns the memory, `sp` and those addresses, or `none` for `goto bad`. -/
def pushArgs (pgdir : Space) (mem : ℕ → UInt8) (sp argc : ℕ) :
    List (List UInt8) → Except String (Option ((ℕ → UInt8) × ℕ × List ℕ))
  | [] => .ok (some (mem, sp, []))
  | s :: argv =>
    if MAXARG ≤ argc then .ok none
    else do
      let sp := usub sp (strlen s + 1) &&& 0xFFFFFFFC
      match ← copyout pgdir mem sp (fun i => s.getD i 0) (strlen s + 1) with
      | none => return none
      | some mem =>
        match ← pushArgs pgdir mem sp (argc + 1) argv with
        | none => return none
        | some (mem, sp', ptrs) => return some (mem, sp', sp :: ptrs)

/-- `ustack[0 .. 3+argc]`, with `sp` below the strings: the fake return PC, `argc`, the `argv`
pointer, the addresses of the strings and the `0` that ends `argv`. -/
def ustack (sp argc : ℕ) (ptrs : List ℕ) : List ℕ :=
  [0xffffffff, argc, usub sp ((argc + 1) * 4)] ++ ptrs ++ [0]

/-- What `exec` does from `sp = sz`: push `argv`, then `ustack`.  Returns the memory and the final
`sp`, which becomes `tf->esp`. -/
def execArgs (pgdir : Space) (mem : ℕ → UInt8) (sz : ℕ) (argv : List (List UInt8)) :
    Except String (Option ((ℕ → UInt8) × ℕ)) := do
  match ← pushArgs pgdir mem sz 0 argv with
  | none => return none
  | some (mem, sp, ptrs) =>
    let argc := argv.length
    match ← copyout pgdir mem (usub sp ((3 + argc + 1) * 4)) (leBytes (ustack sp argc ptrs))
        ((3 + argc + 1) * 4) with
    | none => return none
    | some mem => return some (mem, usub sp ((3 + argc + 1) * 4))

/-- `sz = PGROUNDUP(sz)`, `allocuvm(pgdir, sz, sz + 2*PGSIZE)`, which maps its pages with
`PTE_U`, and `clearpteu(pgdir, sz - 2*PGSIZE)`: the page directory and the new `sz`, or `none`
when `allocuvm` returns `0`. -/
def stackSpace (pgdir : Space) (sz : ℕ) : Except String (Option (Space × ℕ)) := do
  let sz := PGROUNDUP sz
  let (sz', pd) ← allocuvm pgdir.pd sz (sz + 2 * PGSIZE)
  if sz' = 0 then return none
  let pteu := fun q => if sz / PGSIZE ≤ q ∧ q < sz' / PGSIZE then true else pgdir.pteu q
  let pgdir ← clearpteu ⟨pd, pteu⟩ (sz' - 2 * PGSIZE)
  return some (pgdir, sz')

/-- The stack part of `exec`: the two pages, then the arguments from `sp = sz`. -/
def execStack (pgdir : Space) (mem : ℕ → UInt8) (sz : ℕ) (argv : List (List UInt8)) :
    Except String (Option ((ℕ → UInt8) × ℕ)) := do
  match ← stackSpace pgdir sz with
  | none => return none
  | some (pgdir, sz) => execArgs pgdir mem sz argv

/-- An outcome of `exec` that is not a success: `goto bad`, or the model stopped at a null page
table entry in `uva2ka`. -/
def Fails {α : Type} (r : Except String (Option α)) : Prop :=
  r = .ok none ∨ r = .error "uva2ka: null pte"

/-! ### What `main` finds -/

/-- The C string at `a` in `mem` is `s`: its bytes, then a `NUL`. -/
def CStringAt (mem : ℕ → UInt8) (a : ℕ) (s : List UInt8) : Prop :=
  (∀ i (h : i < s.length), mem (a + i) = s[i]) ∧ mem (a + s.length) = 0

/-- What `main(argc, argv)` finds from the stack pointer `sp` (the `i386` convention: the return
address at `sp`, then the arguments): `argc` at `sp + 4`, `argv` at `sp + 8`, `argv[i]` the
address of the `i`-th string, and `argv[argc] = 0`. -/
def ArgsAt (mem : ℕ → UInt8) (sp : ℕ) (argv : List (List UInt8)) : Prop :=
  getLE mem (sp + 4) 4 = argv.length ∧
    (∀ i (h : i < argv.length), CStringAt mem (getLE mem (getLE mem (sp + 8) 4 + 4 * i) 4) argv[i]) ∧
    getLE mem (getLE mem (sp + 8) 4 + 4 * argv.length) 4 = 0

/-- The bytes a string takes on the stack: itself and its `NUL`, rounded up to a multiple of 4. -/
def slot (s : List UInt8) : ℕ := (s.length + 4) / 4 * 4

/-- The bytes the arguments take on the stack: the strings, then `ustack`. -/
def stackUse (argv : List (List UInt8)) : ℕ := (argv.map slot).sum + (argv.length + 4) * 4

/-- The pages around the stack once `exec` has mapped them: below `sz`, the page-aligned top, the
stack page is accessible, the guard page below it is not, and no page from `sz` up is
(`stackSpace_spec` derives this). -/
structure StackPages (pgdir : Space) (sz : ℕ) : Prop where
  aligned : sz % PGSIZE = 0
  two_pages : 2 * PGSIZE ≤ sz
  below : sz < KERNBASE
  stack : ∀ x, sz - PGSIZE ≤ x → x < sz → uva2ka pgdir (PGROUNDDOWN x) = .ok true
  guard : ∀ x, sz - 2 * PGSIZE ≤ x → x < sz - PGSIZE → uva2ka pgdir (PGROUNDDOWN x) = .ok false
  above : ∀ x, sz ≤ x → uva2ka pgdir (PGROUNDDOWN x) ≠ .ok true

/-- The addresses `exec` gives the strings of `argv` pushed from `sp`. -/
def tops (sp : ℕ) : List (List UInt8) → List ℕ
  | [] => []
  | s :: argv => (sp - slot s) :: tops (sp - slot s) argv

/-! ### `copyout` copies a range of accessible pages -/

/-- The arithmetic of one turn: `va` lies in the page that `PGROUNDDOWN va` starts. -/
theorem pgrounddown_spec (va : ℕ) :
    PGROUNDDOWN va ≤ va ∧ va - PGROUNDDOWN va < PGSIZE ∧ PGROUNDDOWN va / PGSIZE = va / PGSIZE ∧
      PGROUNDDOWN va + PGSIZE = (va / PGSIZE + 1) * PGSIZE := by
  simp only [PGROUNDDOWN, PGSIZE]
  omega

theorem copyoutLoop_zero (pgdir : Space) (p mem : ℕ → UInt8) (va off : ℕ) :
    copyoutLoop pgdir p mem va off 0 = .ok (some mem) := by
  rw [copyoutLoop, if_pos rfl]

/-- The one error `uva2ka` stops with is the null entry. -/
theorem uva2ka_error {pgdir : Space} {va : ℕ} {e : String} (h : uva2ka pgdir va = .error e) :
    e = "uva2ka: null pte" := by
  unfold uva2ka at h
  split at h
  · exact (Except.error.inj h).symm
  · cases h

/-- When each byte of `[va, va + len)` lies in an accessible page, the loop copies the range. -/
theorem copyoutLoop_of_user {pgdir : Space} {p : ℕ → UInt8} (len : ℕ) :
    ∀ {mem : ℕ → UInt8} {va off : ℕ},
      (∀ x, va ≤ x → x < va + len → uva2ka pgdir (PGROUNDDOWN x) = .ok true) →
      copyoutLoop pgdir p mem va off len = .ok (some (copy mem va (fun i => p (off + i)) len)) := by
  induction len using Nat.strong_induction_on with
  | _ len ih =>
    intro mem va off h
    by_cases h0 : len = 0
    · subst h0
      rw [copyoutLoop_zero, copy_zero]
    obtain ⟨hle, hlt, -, -⟩ := pgrounddown_spec va
    rw [copyoutLoop, if_neg h0]
    dsimp only
    rw [h va le_rfl (by omega)]
    dsimp only
    set n := min (PGSIZE - (va - PGROUNDDOWN va)) len with hn
    by_cases hlast : n = len
    · -- the range ends in this page
      rw [hlast, Nat.sub_self, copyoutLoop_zero]
    · -- the range goes on from the start of the next page
      have hnext : PGROUNDDOWN va + PGSIZE = va + n := by omega
      rw [hnext, ih (len - n) (by omega) fun x h₁ h₂ => h x (by omega) (by omega)]
      have happ := copy_append mem (fun i => p (off + i)) va n (len - n)
      simp only [← Nat.add_assoc] at happ
      rw [happ, Nat.add_sub_cancel' (by omega)]

/-- When a byte of `[va, va + len)` lies in a page that is not accessible, the loop fails, or
stops at a null entry of a page before it. -/
theorem copyoutLoop_of_not_user {pgdir : Space} {p : ℕ → UInt8} (len : ℕ) :
    ∀ {mem : ℕ → UInt8} {va off x : ℕ}, va ≤ x → x < va + len →
      uva2ka pgdir (PGROUNDDOWN x) ≠ .ok true → Fails (copyoutLoop pgdir p mem va off len) := by
  induction len using Nat.strong_induction_on with
  | _ len ih =>
    intro mem va off x h₁ h₂ hx
    obtain ⟨hle, hlt, hpage, hend⟩ := pgrounddown_spec va
    rw [copyoutLoop, if_neg (by omega)]
    dsimp only
    -- what `uva2ka` finds for the first page
    cases hu : uva2ka pgdir (PGROUNDDOWN va) with
    | error e => exact .inr (by rw [uva2ka_error hu])
    | ok b =>
      cases b with
      | false => exact .inl rfl
      | true =>
        dsimp only
        have hsame : x / PGSIZE ≠ va / PGSIZE := fun h =>
          hx (by rw [PGROUNDDOWN, h, ← PGROUNDDOWN, hu])
        -- `x` lies in a later page, where the rest of the range starts
        have hx' : PGROUNDDOWN va + PGSIZE ≤ x := by
          simp only [PGSIZE] at hend hsame ⊢
          have : va / 4096 < x / 4096 := by omega
          omega
        exact ih _ (by omega) (by omega) (by omega) hx

/-- `copyout` stops where `uva2ka` stops on its first page. -/
theorem copyout_of_first_error {pgdir : Space} {mem p : ℕ → UInt8} {va len : ℕ} {e : String}
    (h : uva2ka pgdir (PGROUNDDOWN va) = .error e) (hlen : len ≠ 0) :
    copyout pgdir mem va p len = .error e := by
  rw [copyout, copyoutLoop, if_neg hlen]
  dsimp only
  rw [h]

/-- `copyout` copies `[va, va + len)` when each of its bytes lies in an accessible page. -/
theorem copyout_of_user {pgdir : Space} {mem p : ℕ → UInt8} {va len : ℕ}
    (h : ∀ x, va ≤ x → x < va + len → uva2ka pgdir (PGROUNDDOWN x) = .ok true) :
    copyout pgdir mem va p len = .ok (some (copy mem va p len)) := by
  rw [copyout, copyoutLoop_of_user len h]
  simp only [Nat.zero_add]

/-- `copyout` fails, or stops at a null entry, when a byte of `[va, va + len)` lies in a page
that is not accessible. -/
theorem copyout_of_not_user {pgdir : Space} {mem p : ℕ → UInt8} {va len x : ℕ} (h₁ : va ≤ x)
    (h₂ : x < va + len) (hx : uva2ka pgdir (PGROUNDDOWN x) ≠ .ok true) :
    Fails (copyout pgdir mem va p len) :=
  copyoutLoop_of_not_user len h₁ h₂ hx

/-! ### The pages around the stack -/

theorem pgrounddown_of_lt {x : ℕ} (h : x < KERNBASE) : PGROUNDDOWN x < KERNBASE := by
  simp only [PGROUNDDOWN, KERNBASE, PGSIZE] at *
  omega

/-- A user page that is not present is not accessible, whether or not its region has a page
table. -/
theorem uva2ka_of_not_present {pgdir : Space} {va : ℕ} (hk : va < KERNBASE)
    (h : pgdir.pd.pte (va / PGSIZE) = false) : uva2ka pgdir va ≠ .ok true := by
  unfold uva2ka Space.walkpgdir PageDir.walkpgdir
  rw [if_pos hk]
  split_ifs <;> simp [h]

/-- No kernel page is accessible to the user: `kmap` maps none with `PTE_U`. -/
theorem uva2ka_of_kernel {pgdir : Space} {va : ℕ} (hk : KERNBASE ≤ va) :
    uva2ka pgdir va ≠ .ok true := by
  unfold uva2ka Space.walkpgdir
  rw [if_neg (by omega)]
  split_ifs <;> simp

/-- Between the kernel's memory and the devices `setupkvm` made no page table: `uva2ka` reads
through the null pointer `walkpgdir` returns. -/
theorem uva2ka_of_hole {pgdir : Space} {va : ℕ} (h₁ : KERNBASE + Kalloc.PHYSTOP ≤ va)
    (h₂ : va < DEVSPACE) : uva2ka pgdir va = .error "uva2ka: null pte" := by
  have hK : KERNBASE = 2 ^ 31 := rfl
  have hP : Kalloc.PHYSTOP = 0xE000000 := rfl
  have hD : DEVSPACE = 0xFE000000 := rfl
  unfold uva2ka Space.walkpgdir
  rw [if_neg (by omega), if_neg (by omega)]

/-- A present user page is accessible exactly when its `PTE_U` is set. -/
theorem uva2ka_of_present {pd : PageDir} {pteu : ℕ → Bool} {va : ℕ} (hk : va < KERNBASE)
    (h : pd.walkpgdir va = some true) : uva2ka ⟨pd, pteu⟩ va = .ok (pteu (va / PGSIZE)) := by
  simp [uva2ka, Space.walkpgdir, hk, h]

theorem mappage_of_not_present {pd : PageDir} {a : ℕ} (h : pd.pte (a / PGSIZE) = false) :
    pd.mappage a = .ok { pde := Function.update pd.pde (PDX a) true
                         pte := Function.update pd.pte (a / PGSIZE) true
                         mem := fun x => if x / PGSIZE = a / PGSIZE then 0 else pd.mem x } := by
  simp [PageDir.mappage, h]

/-- `allocuvm` of two pages above a page boundary, neither present: both become present, and no
other page changes. -/
theorem allocuvm_two {pd : PageDir} {a : ℕ} (hal : a % PGSIZE = 0) (hk : a + 2 * PGSIZE < KERNBASE)
    (hpa : pd.pte (a / PGSIZE) = false) (hpb : pd.pte (a / PGSIZE + 1) = false) :
    ∃ pd', allocuvm pd a (a + 2 * PGSIZE) = .ok (a + 2 * PGSIZE, pd') ∧
      pd'.walkpgdir a = some true ∧ pd'.walkpgdir (a + PGSIZE) = some true ∧
      ∀ q, q ≠ a / PGSIZE → q ≠ a / PGSIZE + 1 → pd'.pte q = pd.pte q := by
  have hpg : PGSIZE = 4096 := rfl
  have hK : KERNBASE = 2 ^ 31 := rfl
  have hup : PGROUNDUP a = a := by
    simp only [PGROUNDUP, hpg, hK] at hal hk ⊢
    omega
  have hpages : pagesFrom a (a + 2 * PGSIZE) = [a, a + PGSIZE] := by
    simp [pagesFrom, PGSIZE, List.range_succ]
  have hq : (a + PGSIZE) / PGSIZE = a / PGSIZE + 1 := by
    rw [hpg]
    omega
  have hpb₁ : (Function.update pd.pte (a / PGSIZE) true) ((a + PGSIZE) / PGSIZE) = false := by
    rw [hq, Function.update_of_ne (by omega), hpb]
  refine ⟨⟨Function.update (Function.update pd.pde (PDX a) true) (PDX (a + PGSIZE)) true,
      Function.update (Function.update pd.pte (a / PGSIZE) true) ((a + PGSIZE) / PGSIZE) true,
      fun x => if x / PGSIZE = (a + PGSIZE) / PGSIZE then 0
        else if x / PGSIZE = a / PGSIZE then 0 else pd.mem x⟩,
    ?_, ?_, ?_, fun q h₁ h₂ => ?_⟩
  · rw [allocuvm, if_neg (show ¬ KERNBASE ≤ a + 2 * PGSIZE by omega),
      if_neg (show ¬ a + 2 * PGSIZE < a by omega), hup, hpages, List.foldlM_cons,
      mappage_of_not_present hpa, except_ok_bind, List.foldlM_cons, mappage_of_not_present hpb₁,
      except_ok_bind, List.foldlM_nil]
    rfl
  · rw [PageDir.walkpgdir_eq_some_true]
    constructor
    · by_cases hx : PDX a = PDX (a + PGSIZE) <;> simp [hx]
    · simp [hq]
  · simp [PageDir.walkpgdir_eq_some_true, hq]
  · simp only
    rw [Function.update_of_ne (by omega), Function.update_of_ne h₁]

/-- **The stack pages `exec` maps.**  From a program with no page present between its size and
`KERNBASE`, and room for two more pages below `KERNBASE`: `allocuvm` maps the two pages above
the rounded-up size, and `clearpteu` takes `PTE_U` from the lower one; the upper one is the only
accessible page from the guard page up. -/
theorem stackSpace_spec {pgdir : Space} {sz : ℕ} (hsz : sz < KERNBASE)
    (hfree : ∀ va, sz ≤ va → va < KERNBASE → pgdir.pd.pte (va / PGSIZE) = false)
    (hk : PGROUNDUP sz + 2 * PGSIZE < KERNBASE) :
    ∃ pgdir', stackSpace pgdir sz = .ok (some (pgdir', PGROUNDUP sz + 2 * PGSIZE)) ∧
      StackPages pgdir' (PGROUNDUP sz + 2 * PGSIZE) := by
  have hpg : PGSIZE = 4096 := rfl
  have hK : KERNBASE = 2 ^ 31 := rfl
  obtain ⟨a, ha⟩ : ∃ a, PGROUNDUP sz = a := ⟨_, rfl⟩
  rw [ha] at hk ⊢
  have hal : a % PGSIZE = 0 ∧ sz ≤ a := by
    simp only [PGROUNDUP, hpg, hK] at ha hk hsz ⊢
    omega
  have hq : (a + PGSIZE) / PGSIZE = a / PGSIZE + 1 := by
    rw [hpg]
    omega
  obtain ⟨pd, halloc, hwa, hwb, hother⟩ := allocuvm_two hal.1 hk
    (hfree a hal.2 (by omega)) (hq ▸ hfree (a + PGSIZE) (by omega) (by omega))
  -- the two pages `allocuvm` mapped get `PTE_U`, and `clearpteu` takes it from the lower one
  let pteu : ℕ → Bool := fun q =>
    if a / PGSIZE ≤ q ∧ q < (a + 2 * PGSIZE) / PGSIZE then true else pgdir.pteu q
  have hclear : clearpteu ⟨pd, pteu⟩ (a + 2 * PGSIZE - 2 * PGSIZE) =
      .ok ⟨pd, Function.update pteu (a / PGSIZE) false⟩ := by
    have hw : Space.walkpgdir ⟨pd, pteu⟩ a = some (true, pteu (a / PGSIZE)) := by
      rw [Space.walkpgdir, if_pos (show a < KERNBASE by omega)]
      simp only [hwa, Option.map_some]
    rw [Nat.add_sub_cancel, clearpteu, hw]
  refine ⟨⟨pd, Function.update pteu (a / PGSIZE) false⟩, ?_, ?_⟩
  · unfold stackSpace
    dsimp only
    rw [ha, halloc, except_ok_bind]
    dsimp only
    rw [if_neg (show a + 2 * PGSIZE ≠ 0 by omega), hclear]
    rfl
  have hdown : ∀ x, PGROUNDDOWN x / PGSIZE = x / PGSIZE := fun x => (pgrounddown_spec x).2.2.1
  have hal₁ := hal.1
  rw [hpg] at hal₁
  refine ⟨by rw [hpg]; omega, by rw [hpg]; omega, hk, fun x h₁ h₂ => ?_, fun x h₁ h₂ => ?_,
    fun x h₁ => ?_⟩
  · -- the stack page: present, and still user-accessible
    have hx : PGROUNDDOWN x = a + PGSIZE := by
      simp only [PGROUNDDOWN, hpg] at h₁ h₂ hal ⊢
      omega
    have h2 : (a + 2 * PGSIZE) / PGSIZE = a / PGSIZE + 2 := by
      rw [hpg]
      omega
    rw [hx, uva2ka_of_present (by omega) hwb, hq, Function.update_of_ne (by omega)]
    simp only [pteu, h2]
    rw [if_pos (by omega)]
  · -- the guard page: present, without `PTE_U`
    have hx : PGROUNDDOWN x = a := by
      simp only [PGROUNDDOWN, hpg] at h₁ h₂ hal ⊢
      omega
    rw [hx, uva2ka_of_present (by omega) hwa, Function.update_self]
  · -- above the stack: a user page never mapped, or a kernel page
    by_cases hxk : PGROUNDDOWN x < KERNBASE
    · apply uva2ka_of_not_present hxk
      have hge : a / PGSIZE + 2 ≤ x / PGSIZE := by
        rw [hpg] at h₁ ⊢
        omega
      rw [hdown, hother _ (by omega) (by omega), ← hdown]
      exact hfree _ (by have := pgrounddown_spec x; simp only [PGROUNDDOWN, hpg] at *; omega) hxk
    · exact uva2ka_of_kernel (by omega)

/-- The top of the stack is word-aligned, as the pushes need. -/
theorem StackPages.mod_four {pgdir : Space} {sz : ℕ} (hp : StackPages pgdir sz) : sz % 4 = 0 := by
  have := hp.aligned
  simp only [PGSIZE] at this
  omega

/-! ### The pushes of the strings -/

theorem strlen_eq_length {s : List UInt8} (h : (0 : UInt8) ∉ s) : strlen s = s.length := by
  induction s with
  | nil => rfl
  | cons c s ih =>
    simp only [List.mem_cons, not_or] at h
    rw [strlen, if_neg (Ne.symm h.1), ih h.2, List.length_cons]

/-- `x & ~3` on a `uint` rounds `x` down to a multiple of 4. -/
theorem and_not_three {x : ℕ} (hx : x < 2 ^ 32) : x &&& 0xFFFFFFFC = x / 4 * 4 := by
  have h4 : x / 4 * 4 = (x >>> 2) <<< 2 := by simp [Nat.shiftLeft_eq, Nat.shiftRight_eq_div_pow]
  rw [h4]
  apply Nat.eq_of_testBit_eq
  intro i
  rw [Nat.testBit_land, Nat.testBit_shiftLeft, Nat.testBit_shiftRight]
  by_cases hi : i < 32
  · -- below bit 32 the mask is one exactly from bit 2 on
    by_cases h2 : 2 ≤ i
    · have : Nat.testBit 0xFFFFFFFC i = true := by interval_cases i <;> decide
      simp [this, h2]
    · have : Nat.testBit 0xFFFFFFFC i = false := by interval_cases i <;> decide
      simp [this, h2]
  · have hxi : x.testBit i = false :=
      Nat.testBit_eq_false_of_lt (lt_of_lt_of_le hx (Nat.pow_le_pow_right (by norm_num) (by omega)))
    have h2 : 2 ≤ i := by omega
    simp [hxi, h2]

/-- Where a string goes when there is room below `sp`: `slot s` below it. -/
theorem push_sp {sp : ℕ} {s : List UInt8} (hs : (0 : UInt8) ∉ s) (h4 : sp % 4 = 0)
    (hsp : sp < 2 ^ 32) (hfit : s.length + 1 ≤ sp) :
    usub sp (strlen s + 1) &&& 0xFFFFFFFC = sp - slot s := by
  rw [strlen_eq_length hs, and_not_three (by simp only [usub, u32]; omega)]
  simp only [usub, u32, slot]
  omega

/-- A string longer than what lies below `sp` wraps around to `KERNBASE` or above. -/
theorem push_sp_wrap {sp : ℕ} {s : List UInt8} (hs : (0 : UInt8) ∉ s) (hl : s.length < KERNBASE)
    (hsp : sp < s.length + 1) : KERNBASE ≤ usub sp (strlen s + 1) &&& 0xFFFFFFFC := by
  simp only [KERNBASE] at hl ⊢
  rw [strlen_eq_length hs, and_not_three (by simp only [usub, u32]; omega)]
  simp only [usub, u32]
  omega

/-- A string copied with its `NUL` is a C string. -/
theorem cstringAt_copy (m : ℕ → UInt8) (a : ℕ) (s : List UInt8) :
    CStringAt (copy m a (fun i => s.getD i 0) (s.length + 1)) a s := by
  constructor
  · intro i hi
    rw [copy_of_mem (by omega) (by omega), Nat.add_sub_cancel_left, List.getD_eq_getElem _ _ hi]
  · rw [copy_of_mem (by omega) (by omega), Nat.add_sub_cancel_left, List.getD_eq_default _ _ le_rfl]

/-- A C string stays while its bytes do. -/
theorem CStringAt.congr {m m' : ℕ → UInt8} {a : ℕ} {s : List UInt8} (h : CStringAt m a s)
    (heq : ∀ x, a ≤ x → x ≤ a + s.length → m' x = m x) : CStringAt m' a s :=
  ⟨fun i hi => (heq _ (by omega) (by omega)).trans (h.1 i hi), (heq _ (by omega) le_rfl).trans h.2⟩

theorem length_tops (sp : ℕ) : ∀ argv : List (List UInt8), (tops sp argv).length = argv.length
  | [] => rfl
  | _ :: argv => by simp [tops, length_tops _ argv]

/-- The strings lie between `sp` and where their pushes end. -/
theorem tops_bounds : ∀ (sp : ℕ) (argv : List (List UInt8)) (i : ℕ), i < argv.length →
    sp - (argv.map slot).sum ≤ (tops sp argv).getD i 0 ∧ (tops sp argv).getD i 0 ≤ sp
  | _, [], _, h => absurd h (by simp)
  | sp, s :: argv, 0, _ => by
    simp only [tops, List.getD_cons_zero, List.map_cons, List.sum_cons]
    omega
  | sp, s :: argv, i + 1, h => by
    have := tops_bounds (sp - slot s) argv i (by simpa using h)
    simp only [tops, List.getD_cons_succ, List.map_cons, List.sum_cons]
    omega

/-- **The pushes that fit.**  From `sp`, a multiple of 4 in the stack page, strings without `NUL`
that fit above the guard page and do not exceed `MAXARG` are pushed each at its `tops` address;
below and above the part pushed, the memory is unchanged.  The induction is on `argv`. -/
theorem pushArgs_ok {pgdir : Space} {sz : ℕ} (hp : StackPages pgdir sz) {argv : List (List UInt8)}
    (ha : ∀ s ∈ argv, (0 : UInt8) ∉ s) (mem : ℕ → UInt8) (sp argc : ℕ) (h4 : sp % 4 = 0)
    (hsz : sp ≤ sz) (hfit : sz - PGSIZE + (argv.map slot).sum ≤ sp)
    (hmax : argc + argv.length ≤ MAXARG) :
    ∃ mem', pushArgs pgdir mem sp argc argv =
        .ok (some (mem', sp - (argv.map slot).sum, tops sp argv)) ∧
      (∀ i (h : i < argv.length), CStringAt mem' ((tops sp argv).getD i 0) argv[i]) ∧
      ∀ x, x < sp - (argv.map slot).sum ∨ sp ≤ x → mem' x = mem x := by
  induction argv generalizing mem sp argc with
  | nil => exact ⟨mem, by simp [pushArgs, tops], by simp, fun _ _ => rfl⟩
  | cons s argv ih =>
    have hs : (0 : UInt8) ∉ s := ha s List.mem_cons_self
    simp only [List.map_cons, List.sum_cons, List.length_cons] at hfit hmax ⊢
    have hbelow := hp.below
    have hslot : s.length + 1 ≤ slot s := by
      simp only [slot]
      omega
    have hsp := push_sp hs h4 (by simp only [KERNBASE] at hbelow; omega) (by omega)
    -- the string lies in the stack page
    have hcopy : copyout pgdir mem (sp - slot s) (fun i => s.getD i 0) (strlen s + 1) =
        .ok (some (copy mem (sp - slot s) (fun i => s.getD i 0) (s.length + 1))) := by
      rw [strlen_eq_length hs]
      exact copyout_of_user fun x h₁ h₂ => hp.stack x (by omega) (by omega)
    obtain ⟨mem', hpush, hstr, hframe⟩ :=
      ih (fun t ht => ha t (List.mem_cons_of_mem s ht))
        (copy mem (sp - slot s) (fun i => s.getD i 0) (s.length + 1)) (sp - slot s) (argc + 1)
        (by simp only [slot]; omega) (by omega) (by omega) (by omega)
    refine ⟨mem', ?_, ?_, ?_⟩
    · rw [pushArgs, if_neg (by omega)]
      dsimp only
      rw [hsp, hcopy, except_ok_bind]
      dsimp only
      rw [hpush, except_ok_bind]
      simp only [tops, Nat.sub_sub, except_pure_eq]
    · intro i hi
      cases i with
      | zero =>
        -- the string just pushed, which the later pushes, below it, leave
        simp only [tops, List.getD_cons_zero, List.getElem_cons_zero]
        exact (cstringAt_copy mem (sp - slot s) s).congr fun x h₁ _ => hframe x (.inr h₁)
      | succ i =>
        simpa [tops] using hstr i (by simpa using hi)
    · intro x hx
      rw [hframe x (by omega)]
      rcases hx with hx | hx
      · exact copy_of_lt (by omega)
      · exact copy_of_le (by omega)

theorem ne_ok_true {r : Except String Bool} (h : r = .ok false) : r ≠ .ok true := by
  rw [h]
  simp

/-- A push whose `sp` wraps around into the hole of the kernel map stops at the null entry of its
first page. -/
theorem pushArgs_wrap_hole {pgdir : Space} {mem : ℕ → UInt8} {sp argc : ℕ} {s : List UInt8}
    {argv : List (List UInt8)} (hm : argc < MAXARG)
    (h₁ : KERNBASE + Kalloc.PHYSTOP ≤ usub sp (strlen s + 1) &&& 0xFFFFFFFC)
    (h₂ : usub sp (strlen s + 1) &&& 0xFFFFFFFC < DEVSPACE) :
    pushArgs pgdir mem sp argc (s :: argv) = .error "uva2ka: null pte" := by
  have hpg : PGSIZE = 4096 := rfl
  have hK : KERNBASE + Kalloc.PHYSTOP = 0x8E000000 := rfl
  -- the page of `sp`, which starts in the hole too: its ends are page boundaries
  have hpage := pgrounddown_spec (usub sp (strlen s + 1) &&& 0xFFFFFFFC)
  have hhole : uva2ka pgdir (PGROUNDDOWN (usub sp (strlen s + 1) &&& 0xFFFFFFFC)) =
      .error "uva2ka: null pte" := by
    apply uva2ka_of_hole
    · simp only [PGROUNDDOWN, hpg, hK] at hpage h₁ ⊢
      omega
    · exact lt_of_le_of_lt hpage.1 h₂
  rw [pushArgs, if_neg (by omega)]
  dsimp only
  rw [copyout_of_first_error hhole (Nat.succ_ne_zero _)]
  rfl

/-- **The pushes that do not fit.**  From `sp`, a multiple of 4 in the stack page, strings that do
not all fit above the guard page, or more than `MAXARG` of them, make the loop fail: a string
that does not fit reaches into the guard page, or wraps around to a kernel address, where it
fails or stops at a null entry. -/
theorem pushArgs_none {pgdir : Space} {sz : ℕ} (hp : StackPages pgdir sz)
    {argv : List (List UInt8)} (ha : ∀ s ∈ argv, (0 : UInt8) ∉ s ∧ s.length < KERNBASE)
    (mem : ℕ → UInt8) (sp argc : ℕ) (h4 : sp % 4 = 0) (hlo : sz - PGSIZE ≤ sp) (hsz : sp ≤ sz)
    (hmax : argc ≤ MAXARG)
    (hbad : sp < sz - PGSIZE + (argv.map slot).sum ∨ MAXARG < argc + argv.length) :
    Fails (pushArgs pgdir mem sp argc argv) := by
  induction argv generalizing mem sp argc with
  | nil =>
    simp only [List.map_nil, List.sum_nil, List.length_nil] at hbad
    omega
  | cons s argv ih =>
    obtain ⟨hs, hl⟩ := ha s List.mem_cons_self
    rw [pushArgs]
    split_ifs with hfull
    · exact .inl rfl
    simp only [List.map_cons, List.sum_cons, List.length_cons] at hbad
    have hbelow := hp.below
    have htwo := hp.two_pages
    have hpg : PGSIZE = 4096 := rfl
    have hslot : s.length + 1 ≤ slot s ∧ slot s ≤ s.length + 4 := by
      simp only [slot]
      omega
    by_cases hfit : sz - PGSIZE + slot s ≤ sp
    · -- the string fits: a later one does not, or there are too many
      have hsp := push_sp hs h4 (by simp only [KERNBASE] at hbelow; omega) (by omega)
      have hcopy : copyout pgdir mem (sp - slot s) (fun i => s.getD i 0) (strlen s + 1) =
          .ok (some (copy mem (sp - slot s) (fun i => s.getD i 0) (s.length + 1))) := by
        rw [strlen_eq_length hs]
        exact copyout_of_user fun x h₁ h₂ => hp.stack x (by omega) (by omega)
      have hrest := ih (fun t ht => ha t (List.mem_cons_of_mem s ht))
        (copy mem (sp - slot s) (fun i => s.getD i 0) (s.length + 1)) (sp - slot s) (argc + 1)
        (by simp only [slot]; omega) (by omega) (by omega) (by omega) (by omega)
      dsimp only
      rw [hsp, hcopy, except_ok_bind]
      dsimp only
      rcases hrest with h | h <;> rw [h]
      · exact .inl rfl
      · exact .inr rfl
    · -- the string reaches below the stack page
      have hcopy : Fails (copyout pgdir mem (usub sp (strlen s + 1) &&& 0xFFFFFFFC)
          (fun i => s.getD i 0) (strlen s + 1)) := by
        by_cases hw : s.length + 1 ≤ sp
        · -- into the guard page, which its last bytes reach
          rw [push_sp hs h4 (by simp only [KERNBASE] at hbelow; omega) hw, strlen_eq_length hs]
          exact copyout_of_not_user (x := max (sp - slot s) (sz - 2 * PGSIZE)) (by omega) (by omega)
            (ne_ok_true (hp.guard _ (by omega) (by omega)))
        · -- around the top of the address space, above `sz`
          have hwrap : KERNBASE ≤ usub sp (strlen s + 1) &&& 0xFFFFFFFC :=
            push_sp_wrap hs hl (by omega)
          exact copyout_of_not_user (x := usub sp (strlen s + 1) &&& 0xFFFFFFFC) le_rfl (by omega)
            (hp.above _ (by omega))
      dsimp only
      rcases hcopy with h | h <;> rw [h]
      · exact .inl rfl
      · exact .inr rfl

/-! ### `ustack`, and what `main` reads of it -/

theorem ustack_getD_ptr (sp argc : ℕ) {ptrs : List ℕ} {i : ℕ} (hi : i < ptrs.length) :
    (ustack sp argc ptrs).getD (3 + i) 0 = ptrs.getD i 0 := by
  simp [ustack, List.getD_eq_getElem?_getD, List.getElem?_append_left hi, Nat.add_comm 3 i]

theorem ustack_getD_argc (sp argc : ℕ) (ptrs : List ℕ) : (ustack sp argc ptrs).getD 1 0 = argc := by
  simp only [ustack, List.cons_append, List.getD_cons_succ, List.getD_cons_zero]

theorem ustack_getD_argv (sp argc : ℕ) (ptrs : List ℕ) :
    (ustack sp argc ptrs).getD 2 0 = usub sp ((argc + 1) * 4) := by
  simp only [ustack, List.cons_append, List.getD_cons_succ, List.getD_cons_zero]

theorem ustack_getD_end (sp argc : ℕ) (ptrs : List ℕ) :
    (ustack sp argc ptrs).getD (3 + ptrs.length) 0 = 0 := by
  simp [ustack, List.getD_eq_getElem?_getD, Nat.add_comm 3 ptrs.length]

/-- What `main` reads of a `ustack` copied at `sp₂`, right below strings that stay where `ptrs`
says. -/
theorem argsAt_ustack {m : ℕ → UInt8} {argv : List (List UInt8)} {ptrs : List ℕ} {top sp₂ : ℕ}
    (hlen : ptrs.length = argv.length) (hn : argv.length ≤ 32)
    (hsp : sp₂ + (argv.length + 4) * 4 = top) (htop : top < 2 ^ 32)
    (hstr : ∀ i (h : i < argv.length), CStringAt m (ptrs.getD i 0) argv[i])
    (hptr : ∀ i, i < argv.length → top ≤ ptrs.getD i 0 ∧ ptrs.getD i 0 < 2 ^ 32) :
    ArgsAt (copy m sp₂ (leBytes (ustack top argv.length ptrs)) (4 * (argv.length + 4))) sp₂ argv := by
  have hword : ∀ j, j < argv.length + 4 →
      getLE (copy m sp₂ (leBytes (ustack top argv.length ptrs)) (4 * (argv.length + 4))) (sp₂ + 4 * j) 4 =
        (ustack top argv.length ptrs).getD j 0 % 2 ^ 32 :=
    fun j hj => getLE_copy_leBytes m sp₂ _ hj
  have hargc := hword 1 (by omega)
  rw [Nat.mul_one, ustack_getD_argc, Nat.mod_eq_of_lt (by omega)] at hargc
  have hup : usub top ((argv.length + 1) * 4) = sp₂ + 12 := by
    simp only [usub, u32]
    omega
  have hargv := hword 2 (by omega)
  rw [ustack_getD_argv, hup, Nat.mod_eq_of_lt (by omega)] at hargv
  refine ⟨hargc, fun i hi => ?_, ?_⟩
  · -- the `i`-th pointer, and the string it points to, which the copy of `ustack` leaves
    have hp := hptr i hi
    rw [show sp₂ + 8 = sp₂ + 4 * 2 by ring, hargv, show sp₂ + 12 + 4 * i = sp₂ + 4 * (3 + i) by ring,
      hword (3 + i) (by omega), ustack_getD_ptr _ _ (by omega), Nat.mod_eq_of_lt hp.2]
    exact (hstr i hi).congr fun x h₁ _ => copy_of_le (by omega)
  · rw [show sp₂ + 8 = sp₂ + 4 * 2 by ring, hargv,
      show sp₂ + 12 + 4 * argv.length = sp₂ + 4 * (3 + argv.length) by ring,
      hword (3 + argv.length) (by omega), ← hlen, ustack_getD_end, Nat.zero_mod]

/-- **The arguments that fit.**  At most `MAXARG` strings without `NUL`, which with `ustack` fit in
the stack page, are pushed, and `main` finds them on the stack; outside the part used the memory
is unchanged. -/
theorem execArgs_of_fits {pgdir : Space} {sz : ℕ} (hp : StackPages pgdir sz)
    {argv : List (List UInt8)} (ha : ∀ s ∈ argv, (0 : UInt8) ∉ s) (hn : argv.length ≤ MAXARG)
    (hfit : stackUse argv ≤ PGSIZE) (mem : ℕ → UInt8) :
    ∃ mem', execArgs pgdir mem sz argv = .ok (some (mem', sz - stackUse argv)) ∧
      ArgsAt mem' (sz - stackUse argv) argv ∧ ∀ x, x < sz - stackUse argv ∨ sz ≤ x → mem' x = mem x := by
  have hpg : PGSIZE = 4096 := rfl
  have htwo := hp.two_pages
  have hbelow : sz < 2 ^ 31 := hp.below
  have h4 : sz % 4 = 0 := hp.mod_four
  have hmax : argv.length ≤ 32 := hn
  simp only [stackUse] at hfit ⊢
  obtain ⟨mem₁, hpush, hstr, hframe⟩ := pushArgs_ok hp ha mem sz 0 h4 le_rfl (by omega) (by omega)
  -- `ustack` goes right below the strings
  have hsp : usub (sz - (argv.map slot).sum) ((3 + argv.length + 1) * 4) =
      sz - ((argv.map slot).sum + (argv.length + 4) * 4) := by
    simp only [usub, u32]
    omega
  have hcopy : copyout pgdir mem₁ (sz - ((argv.map slot).sum + (argv.length + 4) * 4))
      (leBytes (ustack (sz - (argv.map slot).sum) argv.length (tops sz argv)))
      ((3 + argv.length + 1) * 4) =
      .ok (some (copy mem₁ (sz - ((argv.map slot).sum + (argv.length + 4) * 4))
        (leBytes (ustack (sz - (argv.map slot).sum) argv.length (tops sz argv)))
        (4 * (argv.length + 4)))) := by
    rw [copyout_of_user fun x h₁ h₂ => hp.stack x (by omega) (by omega)]
    congr 3
    ring
  have hptr : ∀ i, i < argv.length →
      sz - (argv.map slot).sum ≤ (tops sz argv).getD i 0 ∧ (tops sz argv).getD i 0 < 2 ^ 32 := by
    intro i hi
    have hb := tops_bounds sz argv i hi
    exact ⟨hb.1, by omega⟩
  refine ⟨_, ?_, argsAt_ustack (length_tops sz argv) hmax (by omega) (by omega) hstr hptr,
    fun x hx => ?_⟩
  · rw [execArgs, hpush, except_ok_bind]
    dsimp only
    rw [hsp, hcopy, except_ok_bind]
    rfl
  · rcases hx with hx | hx
    · rw [copy_of_lt hx, hframe x (.inl (by omega))]
    · rw [copy_of_le (by omega), hframe x (.inr hx)]

/-- **The arguments that do not fit.**  More than `MAXARG` strings, or strings that with `ustack`
do not fit in the stack page, make `exec` give up, or stop at a null entry. -/
theorem execArgs_of_not_fits {pgdir : Space} {sz : ℕ} (hp : StackPages pgdir sz)
    {argv : List (List UInt8)} (ha : ∀ s ∈ argv, (0 : UInt8) ∉ s ∧ s.length < KERNBASE)
    (h : ¬(argv.length ≤ MAXARG ∧ stackUse argv ≤ PGSIZE)) (mem : ℕ → UInt8) :
    Fails (execArgs pgdir mem sz argv) := by
  have hpg : PGSIZE = 4096 := rfl
  have htwo := hp.two_pages
  have hbelow : sz < 2 ^ 31 := hp.below
  have h4 : sz % 4 = 0 := hp.mod_four
  simp only [stackUse, not_and_or, not_le] at h
  by_cases hstr : argv.length ≤ MAXARG ∧ sz - PGSIZE + (argv.map slot).sum ≤ sz
  · -- the strings fit; `ustack` reaches into the guard page
    have hmax : argv.length ≤ 32 := hstr.1
    obtain ⟨mem₁, hpush, -, -⟩ := pushArgs_ok hp (fun s hs => (ha s hs).1) mem sz 0 h4 le_rfl
      hstr.2 (by omega)
    have hsp : usub (sz - (argv.map slot).sum) ((3 + argv.length + 1) * 4) =
        sz - ((argv.map slot).sum + (argv.length + 4) * 4) := by
      simp only [usub, u32]
      omega
    have hcopy : Fails (copyout pgdir mem₁ (sz - ((argv.map slot).sum + (argv.length + 4) * 4))
        (leBytes (ustack (sz - (argv.map slot).sum) argv.length (tops sz argv)))
        ((3 + argv.length + 1) * 4)) :=
      copyout_of_not_user le_rfl (by omega) (ne_ok_true (hp.guard _ (by omega) (by omega)))
    rw [execArgs, hpush, except_ok_bind]
    dsimp only
    rw [hsp]
    rcases hcopy with h | h <;> rw [h]
    · exact .inl rfl
    · exact .inr rfl
  · -- a string does not fit, or there are too many
    have hnone := pushArgs_none hp ha mem sz 0 h4 (by omega) le_rfl (by simp [MAXARG])
      (by simp only [not_and_or, not_le] at hstr; omega)
    rw [execArgs]
    rcases hnone with h | h <;> rw [h]
    · exact .inl rfl
    · exact .inr rfl

/-- Pushes that succeed are of arguments that fit. -/
theorem fits_of_execArgs {pgdir : Space} {sz : ℕ} (hp : StackPages pgdir sz)
    {argv : List (List UInt8)} (ha : ∀ s ∈ argv, (0 : UInt8) ∉ s ∧ s.length < KERNBASE)
    {mem : ℕ → UInt8} {r : (ℕ → UInt8) × ℕ} (h : execArgs pgdir mem sz argv = .ok (some r)) :
    argv.length ≤ MAXARG ∧ stackUse argv ≤ PGSIZE := by
  by_contra hn
  rcases execArgs_of_not_fits hp ha hn mem with h' | h' <;> rw [h'] at h <;> cases h

/-- Once the stack pages are mapped, `exec` pushes the arguments on them. -/
theorem execStack_of_stackSpace {pgdir pgdir' : Space} {sz sz' : ℕ} {mem : ℕ → UInt8}
    {argv : List (List UInt8)} (h : stackSpace pgdir sz = .ok (some (pgdir', sz'))) :
    execStack pgdir mem sz argv = execArgs pgdir' mem sz' argv := by
  rw [execStack, h, except_ok_bind]

/-- A first argument whose push wraps around into the hole of the kernel map stops `exec` at
`uva2ka`'s null entry. -/
theorem execStack_wrap_hole {pgdir pgdir' : Space} {sz sz' : ℕ} {mem : ℕ → UInt8} {s : List UInt8}
    {argv : List (List UInt8)} (hs : stackSpace pgdir sz = .ok (some (pgdir', sz')))
    (h₁ : KERNBASE + Kalloc.PHYSTOP ≤ usub sz' (strlen s + 1) &&& 0xFFFFFFFC)
    (h₂ : usub sz' (strlen s + 1) &&& 0xFFFFFFFC < DEVSPACE) :
    execStack pgdir mem sz (s :: argv) = .error "uva2ka: null pte" := by
  rw [execStack_of_stackSpace hs, execArgs, pushArgs_wrap_hole (by decide) h₁ h₂]
  rfl

/-- **`exec` pushes its arguments exactly when they fit.**  For a program with no page present
between its size and `KERNBASE`, room for the two stack pages below `KERNBASE`, and arguments as
`fetchstr` finds them: the pushes of the strings and of `ustack` succeed exactly when there are at
most `MAXARG` arguments and the strings, each with its `NUL` and rounded up to 4 bytes, and
`ustack` fit in the stack page.  Otherwise `exec` fails, or the model stops at `uva2ka`'s null
entry: a string that does not fit reaches into the guard page, or wraps around to a kernel
address.  A first argument that wraps into the hole of the kernel map does stop there. -/
theorem execArgs_ok_iff {pgdir : Space} {sz : ℕ} (hsz : sz < KERNBASE)
    (hfree : ∀ va, sz ≤ va → va < KERNBASE → pgdir.pd.pte (va / PGSIZE) = false)
    (hk : PGROUNDUP sz + 2 * PGSIZE < KERNBASE) {argv : List (List UInt8)}
    (ha : ∀ s ∈ argv, (0 : UInt8) ∉ s ∧ s.length < KERNBASE) (mem : ℕ → UInt8) :
    ((∃ r, execStack pgdir mem sz argv = .ok (some r)) ↔
      argv.length ≤ MAXARG ∧ stackUse argv ≤ PGSIZE) ∧
    (¬(argv.length ≤ MAXARG ∧ stackUse argv ≤ PGSIZE) → Fails (execStack pgdir mem sz argv)) ∧
    (∀ s rest, argv = s :: rest →
      KERNBASE + Kalloc.PHYSTOP ≤ usub (PGROUNDUP sz + 2 * PGSIZE) (strlen s + 1) &&& 0xFFFFFFFC →
      usub (PGROUNDUP sz + 2 * PGSIZE) (strlen s + 1) &&& 0xFFFFFFFC < DEVSPACE →
      execStack pgdir mem sz argv = .error "uva2ka: null pte") := by
  obtain ⟨pgdir', hs, hp⟩ := stackSpace_spec hsz hfree hk
  refine ⟨?_, fun hn => ?_, fun s rest hargv h₁ h₂ => ?_⟩
  · rw [execStack_of_stackSpace hs]
    constructor
    · rintro ⟨r, hr⟩
      exact fits_of_execArgs hp ha hr
    · rintro ⟨hn, hfit⟩
      obtain ⟨mem', h, -, -⟩ := execArgs_of_fits hp (fun s hs => (ha s hs).1) hn hfit mem
      exact ⟨_, h⟩
  · rw [execStack_of_stackSpace hs]
    exact execArgs_of_not_fits hp ha hn mem
  · subst hargv
    exact execStack_wrap_hole hs h₁ h₂

/-- A program of one page, at address `0`: its page is the only one present. -/
def onePage : Space := ⟨⟨fun i => i == 0, fun q => q == 0, fun _ => 0⟩, fun q => q == 0⟩

theorem onePage_free : ∀ va, PGSIZE ≤ va → va < KERNBASE → onePage.pd.pte (va / PGSIZE) = false := by
  intro va h _
  have : va / PGSIZE ≠ 0 := by
    simp only [PGSIZE] at h ⊢
    omega
  simp [onePage, this]

/-- `exec` of a program of one page with the one argument `hi` pushes it. -/
theorem execArgs_ok_iff_hi :
    PGSIZE < KERNBASE ∧ PGROUNDUP PGSIZE + 2 * PGSIZE < KERNBASE ∧
      ((∃ r, execStack onePage (fun _ => 0) PGSIZE [[104, 105]] = .ok (some r)) ↔
        [[104, 105]].length ≤ MAXARG ∧ stackUse [[104, 105]] ≤ PGSIZE) ∧
      (¬([[104, 105]].length ≤ MAXARG ∧ stackUse [[104, 105]] ≤ PGSIZE) →
        Fails (execStack onePage (fun _ => 0) PGSIZE [[104, 105]])) ∧
      (∀ s rest, [[104, 105]] = s :: rest →
        KERNBASE + Kalloc.PHYSTOP ≤
          usub (PGROUNDUP PGSIZE + 2 * PGSIZE) (strlen s + 1) &&& 0xFFFFFFFC →
        usub (PGROUNDUP PGSIZE + 2 * PGSIZE) (strlen s + 1) &&& 0xFFFFFFFC < DEVSPACE →
        execStack onePage (fun _ => 0) PGSIZE [[104, 105]] = .error "uva2ka: null pte") :=
  ⟨by decide, by decide, execArgs_ok_iff (by decide) onePage_free (by decide) (by decide) _⟩

/-- A program of one page given an argument of a gigabyte: its push wraps around to `0xC0002FFC`,
in the hole of the kernel map, and `exec` stops at `uva2ka`'s null entry. -/
theorem execStack_gigabyte :
    execStack onePage (fun _ => 0) PGSIZE [List.replicate (2 ^ 30) 1] =
      .error "uva2ka: null pte" := by
  obtain ⟨pgdir', hs, -⟩ := stackSpace_spec (by decide) onePage_free (by decide)
  have hl : strlen (List.replicate (2 ^ 30) 1) = 2 ^ 30 := by
    -- `simp` would unfold the replicated list
    rw [strlen_eq_length fun h => absurd (List.eq_of_mem_replicate h) (by decide),
      List.length_replicate]
  exact execStack_wrap_hole hs (by rw [hl]; decide) (by rw [hl]; decide)

/-- **`main` finds the arguments `exec` pushed.**  When the pushes succeed, the final `sp`, which
becomes `esp`, is the top of the stack page less what the arguments take; from it
`main(argc, argv)` reads `argc` and, through `argv`, each argument as a C string, then the `0`
that ends `argv`; and below `sp` and from the top of the stack page up the memory is as it
was. -/
theorem execArgs_layout {pgdir : Space} {sz : ℕ} (hsz : sz < KERNBASE)
    (hfree : ∀ va, sz ≤ va → va < KERNBASE → pgdir.pd.pte (va / PGSIZE) = false)
    (hk : PGROUNDUP sz + 2 * PGSIZE < KERNBASE) {argv : List (List UInt8)}
    (ha : ∀ s ∈ argv, (0 : UInt8) ∉ s ∧ s.length < KERNBASE)
    {mem mem' : ℕ → UInt8} {sp : ℕ} (h : execStack pgdir mem sz argv = .ok (some (mem', sp))) :
    sp = PGROUNDUP sz + 2 * PGSIZE - stackUse argv ∧ ArgsAt mem' sp argv ∧
      ∀ x, x < sp ∨ PGROUNDUP sz + 2 * PGSIZE ≤ x → mem' x = mem x := by
  obtain ⟨pgdir', hs, hp⟩ := stackSpace_spec hsz hfree hk
  rw [execStack_of_stackSpace hs] at h
  have hfits := fits_of_execArgs hp ha h
  obtain ⟨mem'', h', hargs, hframe⟩ :=
    execArgs_of_fits hp (fun s hs => (ha s hs).1) hfits.1 hfits.2 mem
  rw [h'] at h
  obtain ⟨rfl, rfl⟩ := Prod.mk.inj (Option.some.inj (Except.ok.inj h))
  exact ⟨rfl, hargs, hframe⟩

/-- `main` finds the argument `hi` that `exec` pushed, with `sp` 24 bytes below the top. -/
theorem execArgs_layout_hi : ∃ mem', execStack onePage (fun _ => 0) PGSIZE [[104, 105]] =
    .ok (some (mem', 12264)) ∧ PGSIZE < KERNBASE ∧ PGROUNDUP PGSIZE + 2 * PGSIZE < KERNBASE ∧
      12264 = PGROUNDUP PGSIZE + 2 * PGSIZE - stackUse [[104, 105]] ∧
      ArgsAt mem' 12264 [[104, 105]] := by
  obtain ⟨pgdir', hs, hp⟩ := stackSpace_spec (by decide) onePage_free (by decide)
  obtain ⟨mem', h, -, -⟩ :=
    @execArgs_of_fits _ _ hp [[104, 105]] (by decide) (by decide) (by decide) (fun _ => 0)
  have hsp : PGROUNDUP PGSIZE + 2 * PGSIZE - stackUse [[104, 105]] = 12264 := by decide
  rw [hsp, ← execStack_of_stackSpace hs] at h
  obtain ⟨hsp', hargs, -⟩ :=
    execArgs_layout (by decide) onePage_free (by decide) (by decide) h
  exact ⟨mem', h, by decide, by decide, hsp', hargs⟩

end ExecArgs

end Xv6Kernel
