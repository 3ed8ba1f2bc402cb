import Xv6Kernel.Proc.State

/-!
# The user heap (`umalloc.c`: `free`, `morecore`, `malloc`)

The allocator of Kernighan and Ritchie that user programs link.  The free blocks form a circular
list in address order from `freep`, each starting with a `Header` (the next free block and the
block's size in headers), and the static `base` is a block of size `0` on it.  `malloc(nbytes)`
rounds the request up to `nunits` headers, one more for the block's own header, takes the first
free block that is large enough (its tail, when it is larger) and returns the address just past
the block's header; when it has gone round the list it calls `morecore`, which asks `sbrk` for at
least `4096` headers and gives them to `free`.

Memory is the headers it holds, by address (`sizeof(Header)` is `8` on the i386); the bytes of a
block past its header are never read or written by the allocator and are not modelled.  `sbrk`
is `growproc` on the process size, with physical memory never exhausted.  The loops of `free` and
`malloc` run on a fuel bound.

* `malloc_block_size` : whenever `malloc` returns a pointer that is not null, the header just
  before it gives the block `nunits` headers;
* `nunits_of_wrap` : for `nbytes` within `7` of `2 ^ 32`, `nbytes + sizeof(Header) - 1` wraps in
  `uint` and `nunits` is `1`, a block with its header and no byte for the caller;
* `malloc_huge_request` : from a fresh heap, `malloc(0xffffffff)` returns a pointer that is not
  null, to a block of one header, at the end of the memory `sbrk` gave.
-/

namespace Xv6Kernel

namespace Umalloc

/-- `union header`. -/
structure Header where
  /-- `s.ptr`: the next block on the free list. -/
  ptr : UInt32
  /-- `s.size`: the size of the block, in headers. -/
  size : UInt32
  deriving DecidableEq, Repr

/-- `sizeof(Header)`. -/
def HEADER : UInt32 := 8

/-- The allocator's state in a process. -/
structure Heap where
  /-- The headers in memory, by address. -/
  mem : UInt32 → Header
  /-- `freep`, `0` for `NULL`. -/
  freep : UInt32
  /-- The process size, where `sbrk` moves the break. -/
  sz : UInt32

namespace Heap

/-- `p->s.ptr = v`. -/
def setPtr (h : Heap) (p v : UInt32) : Heap :=
  { h with mem := Function.update h.mem p { h.mem p with ptr := v } }

/-- `p->s.size = v`. -/
def setSize (h : Heap) (p v : UInt32) : Heap :=
  { h with mem := Function.update h.mem p { h.mem p with size := v } }

@[simp] theorem size_setPtr (h : Heap) (p v q : UInt32) :
    ((h.setPtr p v).mem q).size = (h.mem q).size := by
  by_cases hq : q = p
  · subst hq
    simp [setPtr]
  · simp [setPtr, Function.update_of_ne hq]

@[simp] theorem size_setSize_self (h : Heap) (p v : UInt32) : ((h.setSize p v).mem p).size = v := by
  simp [setSize]

end Heap

/-- `p + n` for `Header *p`: `n` headers further. -/
def hadd (p n : UInt32) : UInt32 := p + n * HEADER

/-- The search loop of `free` from `p`: the free block after which `bp` goes, the one whose
successor is past `bp`, or the last block of the list when `bp` is past it or before the
first. -/
def freeSearch (mem : UInt32 → Header) (bp : UInt32) : ℕ → UInt32 → Option UInt32
  | 0, _ => none
  | fuel + 1, p =>
    if bp > p ∧ bp < (mem p).ptr then some p
    else if p ≥ (mem p).ptr ∧ (bp > p ∨ bp < (mem p).ptr) then some p
    else freeSearch mem bp fuel (mem p).ptr

/-- `free(ap)`: the block whose header is just before `ap` goes on the list after `p`, joined to
the next free block and to `p` where they touch. -/
def free (fuel : ℕ) (h : Heap) (ap : UInt32) : Option Heap := do
  let bp := ap - HEADER
  let p ← freeSearch h.mem bp fuel h.freep
  let h :=
    if hadd bp (h.mem bp).size = (h.mem p).ptr then
      let h := h.setSize bp ((h.mem bp).size + (h.mem (h.mem p).ptr).size)
      h.setPtr bp (h.mem (h.mem p).ptr).ptr
    else h.setPtr bp (h.mem p).ptr
  let h :=
    if hadd p (h.mem p).size = bp then
      let h := h.setSize p ((h.mem p).size + (h.mem bp).size)
      h.setPtr p (h.mem bp).ptr
    else h.setPtr p bp
  return { h with freep := p }

/-- A `uint` passed as an `int`. -/
def asInt (x : UInt32) : ℤ := if x.toNat < 2 ^ 31 then x.toNat else x.toNat - 2 ^ 32

/-- `sbrk(n)` (`sys_sbrk`, `growproc`): the old size, or `-1` when `allocuvm` refuses a size
from `KERNBASE` on or `deallocuvm` leaves `0`; and the new size. -/
def sbrk (sz : UInt32) (n : ℤ) : UInt32 × UInt32 :=
  let newsz := sz + UInt32.ofInt n
  if n > 0 then
    if newsz.toNat ≥ KERNBASE then (0xffffffff, sz)
    else if newsz < sz then (sz, sz)
    else (sz, newsz)
  else if n < 0 then
    let sz' := if newsz ≥ sz then sz else newsz
    if sz' = 0 then (0xffffffff, sz) else (sz, sz')
  else (sz, sz)

/-- `morecore(nu)`: at least `4096` headers from `sbrk`, given to `free`; `freep`, or `0` when
`sbrk` fails. -/
def morecore (fuel : ℕ) (h : Heap) (nu : UInt32) : Option (UInt32 × Heap) :=
  let nu := if nu < 4096 then 4096 else nu
  let (p, sz) := sbrk h.sz (asInt (nu * HEADER))
  if p = 0xffffffff then some (0, h)
  else
    let h := ({ h with sz := sz } : Heap).setSize p nu
    (free fuel h (hadd p 1)).map fun h => (h.freep, h)

/-- The loop of `malloc` at the block `p` after `prevp`: the pointer returned, `0` for `NULL`. -/
def mallocLoop (nunits : UInt32) : ℕ → Heap → UInt32 → UInt32 → Option (UInt32 × Heap)
  | 0, _, _, _ => none
  | fuel + 1, h, prevp, p =>
    if (h.mem p).size ≥ nunits then
      if (h.mem p).size = nunits then
        some (hadd p 1, { h.setPtr prevp (h.mem p).ptr with freep := prevp })
      else
        -- the tail of the block goes to the caller
        let h := h.setSize p ((h.mem p).size - nunits)
        let p := hadd p (h.mem p).size
        some (hadd p 1, { h.setSize p nunits with freep := prevp })
    else if p = h.freep then
      -- round the whole list: more memory
      match morecore fuel h nunits with
      | none => none
      | some (p, h) => if p = 0 then some (0, h) else mallocLoop nunits fuel h p (h.mem p).ptr
    else mallocLoop nunits fuel h p (h.mem p).ptr

/-- `malloc(nbytes)` with `base` at the address `base`: the pointer returned, `0` for `NULL`;
`none` when a loop runs out of fuel. -/
def malloc (fuel : ℕ) (base : UInt32) (h : Heap) (nbytes : UInt32) : Option (UInt32 × Heap) :=
  let nunits := (nbytes + HEADER - 1) / HEADER + 1
  -- the first call makes the list of `base` alone
  let h := if h.freep = 0 then ({ h.setPtr base base with freep := base } : Heap).setSize base 0
    else h
  mallocLoop nunits fuel h h.freep (h.mem h.freep).ptr

/-! ### The size of the block `malloc` returns -/

theorem hadd_one_sub (p : UInt32) : hadd p 1 - HEADER = p := by
  unfold hadd HEADER
  grind

/-- A pointer that is not null returned by the loop of `malloc` is just past the header of a
block of `nunits` headers. -/
theorem mallocLoop_block_size {nunits : UInt32} :
    ∀ {fuel : ℕ} {h : Heap} {prevp p q : UInt32} {h' : Heap},
      mallocLoop nunits fuel h prevp p = some (q, h') → q ≠ 0 →
        (h'.mem (q - HEADER)).size = nunits
  | 0, _, _, _, _, _, hm, _ => by cases hm
  | fuel + 1, h, prevp, p, q, h', hm, hq => by
    unfold mallocLoop at hm
    by_cases hfit : (h.mem p).size ≥ nunits
    · rw [if_pos hfit] at hm
      by_cases hexact : (h.mem p).size = nunits
      · -- the whole block, unlinked from the list
        rw [if_pos hexact] at hm
        obtain ⟨rfl, rfl⟩ := Prod.mk.inj (Option.some.inj hm)
        show ((h.setPtr prevp (h.mem p).ptr).mem (hadd p 1 - HEADER)).size = nunits
        rw [hadd_one_sub, Heap.size_setPtr, hexact]
      · -- the tail of the block, with its own header
        rw [if_neg hexact] at hm
        obtain ⟨rfl, rfl⟩ := Prod.mk.inj (Option.some.inj hm)
        rw [hadd_one_sub]
        exact Heap.size_setSize_self _ _ _
    · rw [if_neg hfit] at hm
      split_ifs at hm with hwrap
      · -- round the list: `morecore`, then on from its result
        split at hm
        · cases hm
        · next p' h₁ _ =>
          split_ifs at hm with hzero
          · obtain ⟨rfl, -⟩ := Prod.mk.inj (Option.some.inj hm)
            exact absurd rfl hq
          · exact mallocLoop_block_size hm hq
      · exact mallocLoop_block_size hm hq

/-- Whenever `malloc(nbytes)` returns a pointer that is not null, the block before it has
`nunits` headers. -/
theorem malloc_block_size {fuel : ℕ} {base : UInt32} {h : Heap} {nbytes q : UInt32} {h' : Heap}
    (hm : malloc fuel base h nbytes = some (q, h')) (hq : q ≠ 0) :
    (h'.mem (q - HEADER)).size = (nbytes + HEADER - 1) / HEADER + 1 :=
  mallocLoop_block_size hm hq

/-- `nbytes + sizeof(Header) - 1` wraps in `uint` for `nbytes` within `7` of `2 ^ 32`, and the
request becomes one header. -/
theorem nunits_of_wrap {nbytes : UInt32} (h : 2 ^ 32 - 7 ≤ nbytes.toNat) :
    (nbytes + HEADER - 1) / HEADER + 1 = 1 := by
  have hlt := nbytes.toNat_lt
  rw [← UInt32.toNat_inj]
  simp only [HEADER, UInt32.toNat_add, UInt32.toNat_sub, UInt32.toNat_div, UInt32.toNat_ofNat,
    Nat.reducePow, Nat.reduceMod] at h hlt ⊢
  omega

/-- A process of `12288` bytes that has not called `malloc` yet, with `base` at `3072`. -/
def freshHeap : Heap := ⟨fun _ => ⟨0, 0⟩, 0, 12288⟩

/-- **A huge request gets a block with no room.**  For every heap and every `nbytes` within `7`
of `2 ^ 32`, a pointer that is not null returned by `malloc(nbytes)` is just past a block of one
header, with no byte for the caller.  From a fresh heap, `malloc(0xffffffff)` returns such a
pointer: `45056`, the end of the memory `sbrk` gave. -/
theorem malloc_huge_request :
    (∀ (fuel : ℕ) (base : UInt32) (h : Heap) (nbytes q : UInt32) (h' : Heap),
      2 ^ 32 - 7 ≤ nbytes.toNat → malloc fuel base h nbytes = some (q, h') → q ≠ 0 →
        (h'.mem (q - HEADER)).size = 1) ∧
    (malloc 4 3072 freshHeap 0xffffffff).map (fun r => (r.1, r.2.sz, (r.2.mem (r.1 - HEADER)).size)) =
      some (45056, 45056, 1) := by
  refine ⟨fun fuel base h nbytes q h' hn hm hq => ?_, by decide⟩
  rw [malloc_block_size hm hq, nunits_of_wrap hn]

end Umalloc

end Xv6Kernel
