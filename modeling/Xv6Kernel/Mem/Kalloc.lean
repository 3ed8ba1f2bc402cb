import Mathlib
import Xv6Kernel.Lib.Bytes
import Xv6Kernel.Lib.Except
import Xv6Kernel.Lib.Machine
import Xv6Kernel.Proc.State

/-!
# The physical page allocator (`kalloc.c`)

`kfree(v)` checks that `v` is a page of the range the allocator manages, fills it with junk,
and pushes it on `kmem.freelist`, the list threaded through the first word of each free page
(`struct run`); `kalloc()` pops the head, or returns `0` when the list is empty.  At boot
`kinit1` and `kinit2` give the allocator every page from the end of the kernel's image (`end`)
to `P2V(PHYSTOP)`, by `freerange`, a `kfree` of each page in turn.

Memory is bytes by kernel virtual address (`Bytes`), and the free list is read from it: the
model has no other copy of the list.  Callers take pages (`kalloc`), give them back (`kfree`),
and write bytes; what a caller promises is `Allowed`: it gives back and writes only pages it
holds.  The pages on the free list and the pages the callers hold are ghost lists of the state.
`kmem.lock` and `kmem.use_lock` are left out: `kalloc` and `kfree` are atomic under the lock, so
a run is a sequence of them.

`Inv` says that the free list in memory is the ghost list of free pages (`Chain`), and that the
free pages and the held pages are, between them, each page of the range once.

* `kinit_ok` : for a kernel image that ends between `KERNBASE` and `P2V(4MB)`, `kinit1` and
  `kinit2` succeed, with every page of the range on the free list.
* `kalloc_safe` : in every state reached after boot by callers that keep their promise, no page
  is lost and none is on the list twice or both free and held; `kalloc` hands out a page no
  caller holds, and returns `0` only when every page is held; and a page a caller holds goes
  back by `kfree` without a panic.
-/

namespace Xv6Kernel

namespace Kalloc

open Bytes

/-- `PHYSTOP` (`memlayout.h`): the top of physical memory. -/
def PHYSTOP : ℕ := 0xE000000

/-- `V2P(a)`: `(uint)a - KERNBASE`, in `uint`. -/
def V2P (a : ℕ) : ℕ := (a + 2 ^ 32 - KERNBASE) % 2 ^ 32

/-- `P2V(a)`: `a + KERNBASE`. -/
def P2V (a : ℕ) : ℕ := a + KERNBASE

/-- `memset(v, c, n)`. -/
def memset (m : ℕ → UInt8) (v : ℕ) (c : UInt8) (n : ℕ) : ℕ → UInt8 :=
  copy m v (fun _ => c) n

/-- `kmem.freelist`, and memory as the allocator reads and writes it. -/
structure Kmem where
  /-- `kmem.freelist`, `0` for `NULL`. -/
  freelist : ℕ
  /-- The bytes of memory, by kernel virtual address. -/
  mem : ℕ → UInt8

/-- `kfree(v)`, in a kernel whose image ends at `kend` (`end`). -/
def kfree (kend : ℕ) (k : Kmem) (v : ℕ) : Except String Kmem :=
  if v % PGSIZE ≠ 0 ∨ v < kend ∨ PHYSTOP ≤ V2P v then .error "kfree"
  else
    -- fill with junk to catch dangling references, then push the page
    let mem := memset k.mem v 1 PGSIZE
    .ok ⟨v, setLE mem v 4 k.freelist⟩

/-- `kalloc()`: the page taken, `0` when there is none. -/
def kalloc (k : Kmem) : ℕ × Kmem :=
  if k.freelist ≠ 0 then (k.freelist, { k with freelist := getLE k.mem k.freelist 4 }) else (0, k)

/-- The loop of `freerange`: `kfree` of `n` pages from `p`. -/
def freerangeLoop (kend : ℕ) : ℕ → ℕ → Kmem → Except String Kmem
  | 0, _, k => .ok k
  | n + 1, p, k => do
    let k ← kfree kend k p
    freerangeLoop kend n (p + PGSIZE) k

/-- `freerange(vstart, vend)`: the pages from `PGROUNDUP(vstart)` while `p + PGSIZE <= vend`. -/
def freerange (kend : ℕ) (k : Kmem) (vstart vend : ℕ) : Except String Kmem :=
  freerangeLoop kend ((vend - PGROUNDUP vstart) / PGSIZE) (PGROUNDUP vstart) k

/-- `kinit1(end, P2V(4*1024*1024))` then `kinit2(P2V(4*1024*1024), P2V(PHYSTOP))`, as `main` calls
them, from the static `kmem` (an empty list) and memory `m`. -/
def kinit (kend : ℕ) (m : ℕ → UInt8) : Except String Kmem := do
  let k ← freerange kend ⟨0, m⟩ kend (P2V (4 * 1024 * 1024))
  freerange kend k (P2V (4 * 1024 * 1024)) (P2V PHYSTOP)

/-! ### Callers of the allocator -/

/-- What a caller does. -/
inductive Event
  /-- `kalloc()`. -/
  | kalloc
  /-- `kfree(v)`. -/
  | kfree (v : ℕ)
  /-- A store of the byte `b` at `a`. -/
  | write (a : ℕ) (b : UInt8)
  deriving DecidableEq, Repr

/-- The allocator and memory, with (ghost) the pages on the free list and the pages the callers
hold. -/
structure Sys where
  kmem : Kmem
  free : List ℕ
  held : List ℕ

/-- One event. -/
def step (kend : ℕ) (s : Sys) : Event → Except String Sys
  | .kalloc =>
    let (r, k) := kalloc s.kmem
    .ok ⟨k, s.free.tail, if r = 0 then s.held else r :: s.held⟩
  | .kfree v => (kfree kend s.kmem v).map fun k => ⟨k, v :: s.free, s.held.erase v⟩
  | .write a b => .ok { s with kmem := { s.kmem with mem := Function.update s.kmem.mem a b } }

theorem step_kalloc (kend : ℕ) (s : Sys) :
    step kend s .kalloc = .ok ⟨(kalloc s.kmem).2, s.free.tail,
      if (kalloc s.kmem).1 = 0 then s.held else (kalloc s.kmem).1 :: s.held⟩ := rfl

/-- A page of the range the allocator manages: aligned, past the kernel's image, below
`P2V(PHYSTOP)`. -/
def Page (kend v : ℕ) : Prop := v % PGSIZE = 0 ∧ kend ≤ v ∧ v + PGSIZE ≤ P2V PHYSTOP

/-- What callers promise: they give back only pages they hold, and store only in pages they hold
or outside every page of the range (the kernel's own data, devices). -/
def Allowed (kend : ℕ) (s : Sys) : Event → Prop
  | .kalloc => True
  | .kfree v => v ∈ s.held
  | .write a _ => (∃ p ∈ s.held, p ≤ a ∧ a < p + PGSIZE) ∨ ∀ p, Page kend p → a < p ∨ p + PGSIZE ≤ a

/-! ### The pages and the free list -/

/-- The `n` pages from `p`. -/
def pagesFrom (p n : ℕ) : List ℕ := (List.range n).map fun i => p + i * PGSIZE

/-- The free list after boot: every page of the range, the last one freed first. -/
def initFree (kend : ℕ) : List ℕ :=
  (pagesFrom (PGROUNDUP kend) ((P2V PHYSTOP - PGROUNDUP kend) / PGSIZE)).reverse

/-- The free list from `h`, threaded through the first word of each page and ended by `0`, is
the list of pages `l`. -/
inductive Chain (mem : ℕ → UInt8) : ℕ → List ℕ → Prop
  | nil : Chain mem 0 []
  | cons {p : ℕ} {l : List ℕ} (hp : p ≠ 0) (h : Chain mem (getLE mem p 4) l) :
      Chain mem p (p :: l)

/-- Every byte of the pages `l` past the link holds the junk `kfree` fills a page with. -/
def Junk (mem : ℕ → UInt8) (l : List ℕ) : Prop :=
  ∀ q ∈ l, ∀ x, q + 4 ≤ x → x < q + PGSIZE → mem x = 1

/-- `mem` and `mem'` agree on every byte of the pages `l`. -/
def Agree (mem mem' : ℕ → UInt8) (l : List ℕ) : Prop :=
  ∀ q ∈ l, ∀ x, q ≤ x → x < q + PGSIZE → mem x = mem' x

/-- The invariant: the free list in memory is the list of free pages, whose bytes past the link
are junk, and the free and the held pages are, between them, each page of the range once. -/
structure Inv (kend : ℕ) (s : Sys) : Prop where
  chain : Chain s.kmem.mem s.kmem.freelist s.free
  junk : Junk s.kmem.mem s.free
  perm : (s.free ++ s.held).Perm (initFree kend)

/-! ### Pages -/

theorem Page.pos {kend v : ℕ} (hk : KERNBASE ≤ kend) (hv : Page kend v) : v ≠ 0 := by
  have := hv.2.1
  unfold KERNBASE at hk
  omega

theorem Page.lt {kend v : ℕ} (hv : Page kend v) : v < 2 ^ 32 := by
  have := hv.2.2
  unfold P2V PHYSTOP KERNBASE PGSIZE at this
  omega

/-- Two pages that are not the same do not overlap. -/
theorem Page.apart {kend p q : ℕ} (hp : Page kend p) (hq : Page kend q) (hne : p ≠ q) :
    p + PGSIZE ≤ q ∨ q + PGSIZE ≤ p := by
  have := hp.1
  have := hq.1
  unfold PGSIZE at *
  omega

/-- The tests of `kfree` pass on a page of the range. -/
theorem kfree_page {kend v : ℕ} (hk : KERNBASE ≤ kend) (hv : Page kend v) (k : Kmem) :
    kfree kend k v = .ok ⟨v, setLE (memset k.mem v 1 PGSIZE) v 4 k.freelist⟩ := by
  obtain ⟨hal, hlo, hhi⟩ := hv
  unfold kfree
  rw [if_neg]
  simp only [V2P, P2V, PHYSTOP, KERNBASE, PGSIZE, Nat.reducePow] at hal hlo hhi hk ⊢
  omega

/-- `kfree(v)` writes no byte outside the page `v`. -/
theorem kfree_mem_other {m : ℕ → UInt8} {v fl x : ℕ} (hx : x < v ∨ v + PGSIZE ≤ x) :
    setLE (memset m v 1 PGSIZE) v 4 fl x = m x := by
  have h4 : (4 : ℕ) ≤ PGSIZE := by decide
  rcases hx with hx | hx
  · rw [setLE_of_lt hx, memset, copy_of_lt hx]
  · rw [setLE_of_le (by omega), memset, copy_of_le hx]

/-- `kfree(v)` leaves the pages apart from `v` as they are. -/
theorem kfree_agree {m : ℕ → UInt8} {v fl : ℕ} {l : List ℕ}
    (hapart : ∀ q ∈ l, q + PGSIZE ≤ v ∨ v + PGSIZE ≤ q) :
    Agree m (setLE (memset m v 1 PGSIZE) v 4 fl) l := by
  intro q hq x h₁ h₂
  refine (kfree_mem_other ?_).symm
  rcases hapart q hq with h | h
  · exact .inl (by omega)
  · exact .inr (by omega)

/-- A store at `a` leaves the pages that do not hold `a` as they are. -/
theorem update_agree {m : ℕ → UInt8} {a : ℕ} {b : UInt8} {l : List ℕ}
    (ha : ∀ q ∈ l, a < q ∨ q + PGSIZE ≤ a) : Agree m (Function.update m a b) l := by
  intro q hq x h₁ h₂
  have hne : x ≠ a := by
    rcases ha q hq with h | h <;> omega
  exact (Function.update_of_ne hne b m).symm

/-! ### The free list in memory -/

namespace Chain

variable {mem mem' : ℕ → UInt8}

/-- The free list reads only the pages on it. -/
theorem congr {h : ℕ} {l : List ℕ} (hc : Chain mem h l) (hm : Agree mem mem' l) :
    Chain mem' h l := by
  induction hc with
  | nil => exact .nil
  | @cons p l hp _ ih =>
    have hnext : getLE mem p 4 = getLE mem' p 4 :=
      getLE_congr fun x h₁ h₂ => hm p List.mem_cons_self x h₁ (by unfold PGSIZE; omega)
    exact .cons hp (hnext ▸ ih fun q hq => hm q (List.mem_cons_of_mem _ hq))

theorem head_eq_zero {h : ℕ} {l : List ℕ} (hc : Chain mem h l) : h = 0 ↔ l = [] := by
  cases hc with
  | nil => simp
  | cons hp _ => simp [hp]

/-- The head of a list of pages below `2 ^ 32` is below `2 ^ 32`. -/
theorem head_lt {h : ℕ} {l : List ℕ} (hc : Chain mem h l) (hl : ∀ q ∈ l, q < 2 ^ 32) :
    h < 2 ^ 32 := by
  cases hc with
  | nil => decide
  | cons _ _ => exact hl _ List.mem_cons_self

/-- `kfree(v)` of a page apart from those of the list pushes it on the list. -/
theorem kfree {v h : ℕ} {l : List ℕ} (hc : Chain mem h l) (hv : v ≠ 0)
    (hh : h < 2 ^ 32) (hapart : ∀ q ∈ l, q + PGSIZE ≤ v ∨ v + PGSIZE ≤ q) :
    Chain (setLE (memset mem v 1 PGSIZE) v 4 h) v (v :: l) := by
  refine .cons hv ?_
  rw [getLE_setLE, Nat.mod_eq_of_lt (by simpa using hh)]
  exact hc.congr (kfree_agree hapart)

end Chain

namespace Junk

variable {mem mem' : ℕ → UInt8}

theorem congr {l : List ℕ} (hj : Junk mem l) (hm : Agree mem mem' l) : Junk mem' l :=
  fun q hq x h₁ h₂ => (hm q hq x (by omega) h₂).symm.trans (hj q hq x h₁ h₂)

/-- `kfree(v)` of a page apart from those of the list fills it with junk. -/
theorem kfree {v h : ℕ} {l : List ℕ} (hj : Junk mem l)
    (hapart : ∀ q ∈ l, q + PGSIZE ≤ v ∨ v + PGSIZE ≤ q) :
    Junk (setLE (memset mem v 1 PGSIZE) v 4 h) (v :: l) := by
  intro q hq x h₁ h₂
  rcases List.mem_cons.1 hq with rfl | hq
  · rw [setLE_of_le h₁, memset, copy_of_mem (by omega) h₂]
  · exact (kfree_agree hapart q hq x (by omega) h₂).symm.trans (hj q hq x h₁ h₂)

end Junk

/-- What `kalloc()` does, read off the free list: with the list empty it returns `0` and
changes nothing; otherwise it returns the head and leaves the rest as the list. -/
theorem kalloc_of_chain {fl : ℕ} {mem : ℕ → UInt8} {l : List ℕ} (hc : Chain mem fl l) :
    (l = [] ∧ kalloc ⟨fl, mem⟩ = (0, ⟨fl, mem⟩)) ∨
      ∃ l', l = fl :: l' ∧ fl ≠ 0 ∧ kalloc ⟨fl, mem⟩ = (fl, ⟨getLE mem fl 4, mem⟩) ∧
        Chain mem (getLE mem fl 4) l' := by
  cases hc with
  | nil => exact .inl ⟨rfl, rfl⟩
  | @cons _ l' hp h => exact .inr ⟨l', rfl, hp, by simp [kalloc, hp], h⟩

/-! ### Boot -/

theorem mem_pagesFrom {p n v : ℕ} : v ∈ pagesFrom p n ↔ ∃ i < n, p + i * PGSIZE = v := by
  simp [pagesFrom]

theorem pagesFrom_succ (p n : ℕ) : pagesFrom p (n + 1) = p :: pagesFrom (p + PGSIZE) n := by
  simp only [pagesFrom, List.range_succ_eq_map, List.map_cons, List.map_map, List.cons.injEq]
  refine ⟨by simp, List.map_congr_left fun i _ => ?_⟩
  simp only [Function.comp_apply, Nat.succ_eq_add_one]
  ring

theorem pagesFrom_add (p a b : ℕ) :
    pagesFrom p (a + b) = pagesFrom p a ++ pagesFrom (p + a * PGSIZE) b := by
  simp only [pagesFrom, List.range_add, List.map_append, List.map_map]
  congr 1
  refine List.map_congr_left fun i _ => ?_
  simp only [Function.comp_apply]
  ring

theorem nodup_pagesFrom (p n : ℕ) : (pagesFrom p n).Nodup :=
  (List.nodup_range).map fun i j h => by
    have : i * PGSIZE = j * PGSIZE := by simpa using h
    exact Nat.eq_of_mul_eq_mul_right (by decide) this

theorem PGROUNDUP_eq {kend : ℕ} (hk : kend ≤ P2V PHYSTOP) :
    PGROUNDUP kend = (kend + PGSIZE - 1) / PGSIZE * PGSIZE := by
  unfold PGROUNDUP
  refine Nat.mod_eq_of_lt ?_
  unfold P2V PHYSTOP KERNBASE PGSIZE at *
  omega

/-- The pages after boot are the pages of the range. -/
theorem mem_initFree {kend v : ℕ} (hk : kend ≤ P2V PHYSTOP) : v ∈ initFree kend ↔ Page kend v := by
  rw [initFree, List.mem_reverse, mem_pagesFrom, PGROUNDUP_eq hk, Page]
  unfold P2V PHYSTOP KERNBASE PGSIZE
  constructor
  · rintro ⟨i, hi, rfl⟩
    omega
  · rintro ⟨hal, hlo, hhi⟩
    exact ⟨(v - (kend + 4096 - 1) / 4096 * 4096) / 4096, by omega, by omega⟩

theorem nodup_initFree (kend : ℕ) : (initFree kend).Nodup :=
  List.nodup_reverse.2 (nodup_pagesFrom _ _)

/-- **The loop of `freerange`** pushes its pages, each above the pages already on the list, one
after another, filling each with junk: the induction is on the number of pages. -/
theorem freerangeLoop_ok {kend : ℕ} (hk : KERNBASE ≤ kend) :
    ∀ (n p : ℕ) (k : Kmem) (l : List ℕ), (∀ i < n, Page kend (p + i * PGSIZE)) →
      (∀ q ∈ l, Page kend q ∧ q < p) → Chain k.mem k.freelist l → Junk k.mem l →
      ∃ k', freerangeLoop kend n p k = .ok k' ∧
        Chain k'.mem k'.freelist ((pagesFrom p n).reverse ++ l) ∧
        Junk k'.mem ((pagesFrom p n).reverse ++ l)
  | 0, p, k, l, _, _, hc, hj => ⟨k, rfl, by simpa [pagesFrom] using hc, by simpa [pagesFrom] using hj⟩
  | n + 1, p, k, l, hpg, hl, hc, hj => by
    have hp : Page kend p := by simpa using hpg 0 (Nat.succ_pos n)
    have hapart : ∀ q ∈ l, q + PGSIZE ≤ p ∨ p + PGSIZE ≤ q := fun q hq =>
      (hl q hq).1.apart hp (hl q hq).2.ne
    have hc' : Chain (setLE (memset k.mem p 1 PGSIZE) p 4 k.freelist) p (p :: l) :=
      hc.kfree (hp.pos hk) (hc.head_lt fun q hq => (hl q hq).1.lt) hapart
    have hnext : ∀ i < n, Page kend (p + PGSIZE + i * PGSIZE) := fun i hi => by
      have := hpg (i + 1) (by omega)
      rwa [show p + (i + 1) * PGSIZE = p + PGSIZE + i * PGSIZE by ring] at this
    have hl' : ∀ q ∈ p :: l, Page kend q ∧ q < p + PGSIZE := by
      intro q hq
      rcases List.mem_cons.1 hq with rfl | hq
      · exact ⟨hp, by unfold PGSIZE; omega⟩
      · exact ⟨(hl q hq).1, by have := (hl q hq).2; unfold PGSIZE; omega⟩
    obtain ⟨k', hrun, hc'', hj''⟩ :=
      freerangeLoop_ok hk n (p + PGSIZE) ⟨p, setLE (memset k.mem p 1 PGSIZE) p 4 k.freelist⟩ (p :: l)
        hnext hl' hc' (hj.kfree hapart)
    refine ⟨k', ?_, ?_⟩
    · rw [freerangeLoop, kfree_page hk hp, except_ok_bind]
      exact hrun
    · rw [pagesFrom_succ, List.reverse_cons, List.append_assoc]
      exact ⟨hc'', hj''⟩

/-- **`kinit1` and `kinit2` succeed**, for a kernel image that ends between `KERNBASE` and
`P2V(4MB)`, and leave every page of the range on the free list, filled with junk. -/
theorem kinit_ok {kend : ℕ} (hk : KERNBASE ≤ kend) (hk' : kend ≤ P2V (4 * 1024 * 1024))
    (m : ℕ → UInt8) : ∃ k₀, kinit kend m = .ok k₀ ∧
      Chain k₀.mem k₀.freelist (initFree kend) ∧ Junk k₀.mem (initFree kend) := by
  have hkP : kend ≤ P2V PHYSTOP := by unfold P2V PHYSTOP at *; omega
  have hp₀ : PGROUNDUP kend = (kend + PGSIZE - 1) / PGSIZE * PGSIZE := PGROUNDUP_eq hkP
  have h4M : PGROUNDUP (P2V (4 * 1024 * 1024)) = P2V (4 * 1024 * 1024) := by decide
  obtain ⟨n₁, hn₁⟩ : ∃ n₁, (P2V (4 * 1024 * 1024) - PGROUNDUP kend) / PGSIZE = n₁ := ⟨_, rfl⟩
  obtain ⟨n₂, hn₂⟩ : ∃ n₂, (P2V PHYSTOP - P2V (4 * 1024 * 1024)) / PGSIZE = n₂ := ⟨_, rfl⟩
  -- the pages of `kinit1`, then those of `kinit2`, are those of the range
  have hsplit : PGROUNDUP kend + n₁ * PGSIZE = P2V (4 * 1024 * 1024) := by
    rw [← hn₁, hp₀]
    simp only [P2V, KERNBASE, PGSIZE] at hk' ⊢
    omega
  have hcount : (P2V PHYSTOP - PGROUNDUP kend) / PGSIZE = n₁ + n₂ := by
    rw [← hn₁, ← hn₂, hp₀]
    simp only [P2V, PHYSTOP, KERNBASE, PGSIZE] at hk' ⊢
    omega
  have hpage : ∀ i < n₁ + n₂, Page kend (PGROUNDUP kend + i * PGSIZE) := fun i hi =>
    (mem_initFree hkP).1 (List.mem_reverse.2 (mem_pagesFrom.2 ⟨i, by rw [hcount]; exact hi, rfl⟩))
  obtain ⟨k₁, hrun₁, hc₁, hj₁⟩ := freerangeLoop_ok hk n₁ (PGROUNDUP kend) ⟨0, m⟩ []
    (fun i hi => hpage i (by omega)) (by simp) .nil (by simp [Junk])
  have hl₁ : ∀ q ∈ (pagesFrom (PGROUNDUP kend) n₁).reverse ++ [],
      Page kend q ∧ q < P2V (4 * 1024 * 1024) := by
    intro q hq
    obtain ⟨i, hi, rfl⟩ := mem_pagesFrom.1 (by simpa using hq)
    refine ⟨hpage i (by omega), ?_⟩
    rw [← hsplit]
    unfold PGSIZE
    omega
  have hpage₂ : ∀ i < n₂, Page kend (P2V (4 * 1024 * 1024) + i * PGSIZE) := fun i hi => by
    have := hpage (n₁ + i) (by omega)
    rwa [← hsplit, show PGROUNDUP kend + n₁ * PGSIZE + i * PGSIZE =
      PGROUNDUP kend + (n₁ + i) * PGSIZE by ring]
  obtain ⟨k₂, hrun₂, hc₂, hj₂⟩ :=
    freerangeLoop_ok hk n₂ (P2V (4 * 1024 * 1024)) k₁ _ hpage₂ hl₁ hc₁ hj₁
  have hfree : (pagesFrom (P2V (4 * 1024 * 1024)) n₂).reverse ++
      ((pagesFrom (PGROUNDUP kend) n₁).reverse ++ []) = initFree kend := by
    rw [initFree, hcount, pagesFrom_add, hsplit, List.reverse_append, List.append_nil]
  refine ⟨k₂, ?_, hfree ▸ hc₂, hfree ▸ hj₂⟩
  have h₁ : freerange kend ⟨0, m⟩ kend (P2V (4 * 1024 * 1024)) = .ok k₁ := by
    rw [freerange, hn₁]
    exact hrun₁
  have h₂ : freerange kend k₁ (P2V (4 * 1024 * 1024)) (P2V PHYSTOP) = .ok k₂ := by
    rw [freerange, h4M, hn₂]
    exact hrun₂
  rw [kinit, h₁, except_ok_bind]
  exact h₂

/-! ### The invariant over every run -/

namespace Inv

variable {kend : ℕ} {s s' : Sys}

section

variable (hkP : kend ≤ P2V PHYSTOP)
include hkP

/-- The free and the held pages are the pages of the range. -/
theorem mem_iff (h : Inv kend s) {v : ℕ} : v ∈ s.free ++ s.held ↔ Page kend v :=
  h.perm.mem_iff.trans (mem_initFree hkP)

theorem free_page (h : Inv kend s) {q : ℕ} (hq : q ∈ s.free) : Page kend q :=
  (h.mem_iff hkP).1 (List.mem_append_left _ hq)

theorem held_page (h : Inv kend s) {p : ℕ} (hp : p ∈ s.held) : Page kend p :=
  (h.mem_iff hkP).1 (List.mem_append_right _ hp)

end

theorem nodup (h : Inv kend s) : (s.free ++ s.held).Nodup :=
  h.perm.nodup_iff.2 (nodup_initFree kend)

/-- No page is both free and held. -/
theorem free_ne_held (h : Inv kend s) {q p : ℕ} (hq : q ∈ s.free) (hp : p ∈ s.held) : q ≠ p :=
  (List.nodup_append.1 h.nodup).2.2 q hq p hp

/-- A free page and a held page do not overlap. -/
theorem apart (hkP : kend ≤ P2V PHYSTOP) (h : Inv kend s) {q p : ℕ} (hq : q ∈ s.free)
    (hp : p ∈ s.held) : q + PGSIZE ≤ p ∨ p + PGSIZE ≤ q :=
  (h.free_page hkP hq).apart (h.held_page hkP hp) (h.free_ne_held hq hp)

/-- `kalloc()` keeps the invariant: it moves the head of the free list to the held pages. -/
theorem kalloc_step (h : Inv kend s) (hs : step kend s .kalloc = .ok s') : Inv kend s' := by
  obtain ⟨⟨fl, mem⟩, free, held⟩ := s
  have hc₀ : Chain mem fl free := h.chain
  rw [step_kalloc] at hs
  rcases kalloc_of_chain hc₀ with ⟨rfl, hk⟩ | ⟨l', rfl, hfl, hk, hc⟩
  · rw [hk] at hs
    cases hs
    exact h
  · rw [hk] at hs
    cases hs
    refine ⟨hc, fun q hq => h.junk q (List.mem_cons_of_mem _ hq), ?_⟩
    rw [if_neg hfl]
    exact List.perm_middle.trans h.perm

/-- `kfree(v)` of a held page keeps the invariant: it moves the page to the free list. -/
theorem kfree_step (hk : KERNBASE ≤ kend) (hkP : kend ≤ P2V PHYSTOP) (h : Inv kend s) {v : ℕ}
    (hv : v ∈ s.held) (hs : step kend s (.kfree v) = .ok s') : Inv kend s' := by
  have hpv : Page kend v := h.held_page hkP hv
  have hapart : ∀ q ∈ s.free, q + PGSIZE ≤ v ∨ v + PGSIZE ≤ q := fun q hq => h.apart hkP hq hv
  rw [step, kfree_page hk hpv] at hs
  cases hs
  refine ⟨h.chain.kfree (hpv.pos hk) (h.chain.head_lt fun q hq => (h.free_page hkP hq).lt) hapart,
    h.junk.kfree hapart, ?_⟩
  -- the page leaves the held pages for the head of the free list
  exact List.perm_middle.symm.trans (((List.perm_cons_erase hv).symm.append_left _).trans h.perm)

/-- A store of a caller keeps the invariant: it touches no free page. -/
theorem write_step (hkP : kend ≤ P2V PHYSTOP) (h : Inv kend s) {a : ℕ} {b : UInt8}
    (ha : Allowed kend s (.write a b)) (hs : step kend s (.write a b) = .ok s') : Inv kend s' := by
  have hagree : Agree s.kmem.mem (Function.update s.kmem.mem a b) s.free := by
    refine update_agree fun q hq => ?_
    rcases ha with ⟨p, hp, h₁, h₂⟩ | hout
    · rcases h.apart hkP hq hp with h' | h'
      · exact .inr (by omega)
      · exact .inl (by omega)
    · exact hout q (h.free_page hkP hq)
  cases hs
  exact ⟨h.chain.congr hagree, h.junk.congr hagree, h.perm⟩

theorem step (hk : KERNBASE ≤ kend) (hkP : kend ≤ P2V PHYSTOP) (h : Inv kend s) {a : Event}
    (ha : Allowed kend s a) (hs : Kalloc.step kend s a = .ok s') : Inv kend s' := by
  cases a with
  | kalloc => exact h.kalloc_step hs
  | kfree v => exact h.kfree_step hk hkP ha hs
  | write a b => exact h.write_step hkP ha hs

/-- The invariant holds in every state reached from boot by callers that keep their promise. -/
theorem reach (hk : KERNBASE ≤ kend) (hkP : kend ≤ P2V PHYSTOP) {k₀ : Kmem}
    (hc : Chain k₀.mem k₀.freelist (initFree kend)) (hj : Junk k₀.mem (initFree kend))
    (hs : Machine.ReachAllowed (Kalloc.step kend) (Allowed kend) ⟨k₀, initFree kend, []⟩ s) :
    Inv kend s :=
  hs.invariant ⟨hc, hj, by simp⟩ fun _ _ _ hi ha hst => hi.step hk hkP ha hst

/-- `kalloc()` returns `0` exactly when no page is free. -/
theorem kalloc_eq_zero (h : Inv kend s) : (kalloc s.kmem).1 = 0 ↔ s.free = [] := by
  rcases kalloc_of_chain h.chain with ⟨hl, hk⟩ | ⟨l', hl, hfl, hk, -⟩
  · simp [hk, hl]
  · simp [hk, hl, hfl]

/-- Otherwise it returns the first free page. -/
theorem kalloc_mem (h : Inv kend s) (hr : (kalloc s.kmem).1 ≠ 0) : (kalloc s.kmem).1 ∈ s.free := by
  rcases kalloc_of_chain h.chain with ⟨hl, hk⟩ | ⟨l', hl, hfl, hk, -⟩
  · simp [hk] at hr
  · simp [hk, hl]

end Inv

/-- **The allocator is safe.**  For a kernel image that ends between `KERNBASE` and `P2V(4MB)`,
boot succeeds; and in every state reached after it by callers that give back and write only
pages they hold: no page is lost or invented, none is twice on the list or both free and held;
`kalloc()` returns `0` only when every page is held, and otherwise a page of the range that no
caller holds, every byte of it past the link the junk `kfree` left (nothing of its last
holder's data); and a page a caller holds goes back by `kfree` without a panic. -/
theorem kalloc_safe (kend : ℕ) (hk : KERNBASE ≤ kend) (hk' : kend ≤ P2V (4 * 1024 * 1024))
    (m : ℕ → UInt8) : ∃ k₀, kinit kend m = .ok k₀ ∧
      ∀ s, Machine.ReachAllowed (step kend) (Allowed kend) ⟨k₀, initFree kend, []⟩ s →
        (∀ v, v ∈ s.free ++ s.held ↔ Page kend v) ∧ (s.free ++ s.held).Nodup ∧
        ((kalloc s.kmem).1 = 0 ↔ s.free = []) ∧
        ((kalloc s.kmem).1 ≠ 0 → Page kend (kalloc s.kmem).1 ∧ (kalloc s.kmem).1 ∉ s.held ∧
          ∀ x, (kalloc s.kmem).1 + 4 ≤ x → x < (kalloc s.kmem).1 + PGSIZE → s.kmem.mem x = 1) ∧
        ∀ v ∈ s.held, ∃ k, kfree kend s.kmem v = .ok k := by
  have hkP : kend ≤ P2V PHYSTOP := by unfold P2V PHYSTOP at *; omega
  obtain ⟨k₀, hinit, hc, hj⟩ := kinit_ok hk hk' m
  refine ⟨k₀, hinit, fun s hs => ?_⟩
  have hi : Inv kend s := Inv.reach hk hkP hc hj hs
  refine ⟨fun v => hi.mem_iff hkP, hi.nodup, hi.kalloc_eq_zero, fun hr => ?_,
    fun v hv => ⟨_, kfree_page hk (hi.held_page hkP hv) s.kmem⟩⟩
  have hfree := hi.kalloc_mem hr
  exact ⟨hi.free_page hkP hfree, fun hheld => hi.free_ne_held hfree hheld rfl,
    hi.junk _ hfree⟩

/-- A kernel image that ends at `0x80116000` boots, and the allocator is safe from there. -/
theorem kalloc_safe_end : KERNBASE ≤ 0x80116000 ∧ 0x80116000 ≤ P2V (4 * 1024 * 1024) ∧
    ∃ k₀, kinit 0x80116000 (fun _ => 0) = .ok k₀ := by
  obtain ⟨k₀, hinit, -⟩ := kalloc_safe 0x80116000 (by decide) (by decide) (fun _ => 0)
  exact ⟨by decide, by decide, k₀, hinit⟩

end Kalloc

end Xv6Kernel
