import Mathlib
import Xv6Kernel.Lib.DList
import Xv6Kernel.Lib.Except
import Xv6Kernel.Lib.Machine

/-!
# The buffer cache (`bio.c`)

`bcache` holds `NBUF` buffers, threaded by `prev` and `next` into a ring through the sentinel
`bcache.head`, most recently released first.  `bget` looks for a block forward from
`head.next` and, when it is not cached, recycles the first buffer from `head.prev` backward
that no one holds and that `log_write` has not pinned with `B_DIRTY`.  `brelse` drops a
reference and, at the last one, moves the buffer to the front.

A buffer is its index in `bcache.buf`, and the sentinel is `none` (`DList`).  Every event is one
call of `bio.c` (or `log_write`), atomic as its updates under `bcache.lock` are.  The sleep
lock of a buffer is not modelled: its holder holds a reference, so the tests `holdingsleep`
of `bwrite`, `brelse` and `iderw` are modelled as `refcnt != 0`.  The sleeps in `acquiresleep`
and `iderw` come after `bget` has updated the list and the tags, and happen with a reference
held, so the buffer is never a victim meanwhile.  A buffer's data, the disk queue and the
log's own bookkeeping are not modelled; `refcnt` is a natural number, since it counts the
references that processes hold.

* `Inv` : the list is a ring holding every buffer once (`DList.Ring`), and two buffers hold the
  same block only when it is block `0` of device `0`, the tag of the zeroed table;
* `Inv.binit`, `Inv.step` : `binit` sets it up and every event keeps it;
* `bget_cases` : `bget` increments a buffer that holds the block, or re-tags one that is free;
* `bread_cached` : a block that a buffer holds is read from that buffer;
* `order_brelse` : `brelse` moves a buffer to the front exactly when its last reference goes;
* `bcache_coherent` : all of this, in every state the cache reaches.
-/

namespace Xv6Kernel

namespace Bcache

open Function

/-- `NBUF`, `MAXOPBLOCKS * 3`. -/
def NBUF : ℕ := 30

instance : NeZero NBUF := ⟨by decide⟩

/-- `B_VALID`: the data has been read from the disk. -/
def B_VALID : UInt32 := 2

/-- `B_DIRTY`: the data needs to be written to the disk. -/
def B_DIRTY : UInt32 := 4

/-- The fields of `bcache` that `bio.c` reads and writes. -/
structure Cache where
  /-- `b->flags`. -/
  flags : Fin NBUF → UInt32
  /-- `b->dev`. -/
  dev : Fin NBUF → UInt32
  /-- `b->blockno`. -/
  blockno : Fin NBUF → UInt32
  /-- `b->refcnt`. -/
  refcnt : Fin NBUF → ℕ
  /-- `b->next`, with `none` for `&bcache.head`; `next none` is `bcache.head.next`. -/
  next : Option (Fin NBUF) → Option (Fin NBUF)
  /-- `b->prev`, likewise. -/
  prev : Option (Fin NBUF) → Option (Fin NBUF)

namespace Cache

/-- `b->flags = v`. -/
def setFlags (s : Cache) (b : Fin NBUF) (v : UInt32) : Cache :=
  { s with flags := update s.flags b v }

/-- `b->refcnt = v`. -/
def setRefcnt (s : Cache) (b : Fin NBUF) (v : ℕ) : Cache :=
  { s with refcnt := update s.refcnt b v }

/-- The recycling of `b` for the block `blockno` of `dev`. -/
def retag (s : Cache) (b : Fin NBUF) (dev blockno : UInt32) : Cache :=
  { s with dev := update s.dev b dev, blockno := update s.blockno b blockno,
           flags := update s.flags b 0, refcnt := update s.refcnt b 1 }

/-- `b` put first in the list. -/
def pushFront (s : Cache) (b : Fin NBUF) : Cache :=
  { s with next := (DList.pushFront s.next s.prev b).1, prev := (DList.pushFront s.next s.prev b).2 }

/-- `b` taken out of the list. -/
def unlink (s : Cache) (b : Fin NBUF) : Cache :=
  { s with next := (DList.unlink s.next s.prev b).1, prev := (DList.unlink s.next s.prev b).2 }

/-- The buffers met from `bcache.head.next` along `next`, at most `NBUF` of them. -/
def order (s : Cache) : List (Fin NBUF) :=
  Chain.nodes (fun b => s.next (some b)) NBUF (s.next none)

/-- `b->dev == dev && b->blockno == blockno`. -/
def isBlock (s : Cache) (dev blockno : UInt32) (b : Fin NBUF) : Bool :=
  s.dev b == dev && s.blockno b == blockno

@[simp] theorem isBlock_eq_true {s : Cache} {dev blockno : UInt32} {b : Fin NBUF} :
    s.isBlock dev blockno b = true ↔ s.dev b = dev ∧ s.blockno b = blockno := by
  simp [isBlock]

/-- `b->refcnt == 0 && (b->flags & B_DIRTY) == 0`. -/
def isFree (s : Cache) (b : Fin NBUF) : Bool :=
  s.refcnt b == 0 && s.flags b &&& B_DIRTY == 0

@[simp] theorem setFlags_next (s : Cache) (b v) : (s.setFlags b v).next = s.next := rfl
@[simp] theorem setFlags_prev (s : Cache) (b v) : (s.setFlags b v).prev = s.prev := rfl
@[simp] theorem setFlags_dev (s : Cache) (b v) : (s.setFlags b v).dev = s.dev := rfl
@[simp] theorem setFlags_blockno (s : Cache) (b v) : (s.setFlags b v).blockno = s.blockno := rfl
@[simp] theorem setFlags_refcnt (s : Cache) (b v) : (s.setFlags b v).refcnt = s.refcnt := rfl
@[simp] theorem setRefcnt_next (s : Cache) (b v) : (s.setRefcnt b v).next = s.next := rfl
@[simp] theorem setRefcnt_prev (s : Cache) (b v) : (s.setRefcnt b v).prev = s.prev := rfl
@[simp] theorem setRefcnt_dev (s : Cache) (b v) : (s.setRefcnt b v).dev = s.dev := rfl
@[simp] theorem setRefcnt_blockno (s : Cache) (b v) : (s.setRefcnt b v).blockno = s.blockno := rfl
@[simp] theorem setRefcnt_flags (s : Cache) (b v) : (s.setRefcnt b v).flags = s.flags := rfl
@[simp] theorem setRefcnt_refcnt (s : Cache) (b v) : (s.setRefcnt b v).refcnt = update s.refcnt b v :=
  rfl
@[simp] theorem retag_next (s : Cache) (b d n) : (s.retag b d n).next = s.next := rfl
@[simp] theorem retag_prev (s : Cache) (b d n) : (s.retag b d n).prev = s.prev := rfl
@[simp] theorem pushFront_dev (s : Cache) (b) : (s.pushFront b).dev = s.dev := rfl
@[simp] theorem pushFront_blockno (s : Cache) (b) : (s.pushFront b).blockno = s.blockno := rfl
@[simp] theorem pushFront_refcnt (s : Cache) (b) : (s.pushFront b).refcnt = s.refcnt := rfl
@[simp] theorem unlink_dev (s : Cache) (b) : (s.unlink b).dev = s.dev := rfl
@[simp] theorem unlink_blockno (s : Cache) (b) : (s.unlink b).blockno = s.blockno := rfl
@[simp] theorem unlink_refcnt (s : Cache) (b) : (s.unlink b).refcnt = s.refcnt := rfl

end Cache

open Cache

/-- `binit()`: `head.prev = head.next = &head`, then each buffer in turn goes first. -/
def binit (s : Cache) : Cache :=
  (List.finRange NBUF).foldl Cache.pushFront
    { s with next := update s.next none none, prev := update s.prev none none }

/-- The loops of `bget(dev, blockno)` under `bcache.lock`: the buffer returned and the cache
after.  A walk that goes round `NBUF` buffers without reaching the head would go on for ever. -/
def bget (s : Cache) (dev blockno : UInt32) : Except String (Fin NBUF × Cache) :=
  -- Is the block already cached?
  match Chain.find (fun b => s.next (some b)) (s.isBlock dev blockno) NBUF (s.next none) with
  | .error () => .error "bget: the cache list is cyclic"
  | .ok (some b) => .ok (b, s.setRefcnt b (s.refcnt b + 1))
  | .ok none =>
    -- Not cached; recycle an unused buffer.
    match Chain.find (fun b => s.prev (some b)) s.isFree NBUF (s.prev none) with
    | .error () => .error "bget: the cache list is cyclic"
    | .ok (some b) => .ok (b, s.retag b dev blockno)
    | .ok none => .error "bget: no buffers"

/-- `iderw(b)` until `ideintr` is done with `b`: the block read or written, `B_VALID` set and
`B_DIRTY` clear. -/
def iderw (s : Cache) (b : Fin NBUF) : Except String Cache :=
  if s.refcnt b = 0 then .error "iderw: buf not locked"
  else if s.flags b &&& (B_VALID ||| B_DIRTY) = B_VALID then .error "iderw: nothing to do"
  else .ok (s.setFlags b ((s.flags b ||| B_VALID) &&& ~~~B_DIRTY))

/-- `bread(dev, blockno)`: `bget`, then the disk read when the data is not valid. -/
def bread (s : Cache) (dev blockno : UInt32) : Except String (Fin NBUF × Cache) := do
  let (b, s) ← bget s dev blockno
  if s.flags b &&& B_VALID = 0 then
    let s ← iderw s b
    return (b, s)
  else return (b, s)

/-- `bwrite(b)`: `B_DIRTY` set, then the disk write. -/
def bwrite (s : Cache) (b : Fin NBUF) : Except String Cache :=
  if s.refcnt b = 0 then .error "bwrite" else iderw (s.setFlags b (s.flags b ||| B_DIRTY)) b

/-- `brelse(b)`: one reference less, and at the last one `b` goes to the front. -/
def brelse (s : Cache) (b : Fin NBUF) : Except String Cache :=
  if s.refcnt b = 0 then .error "brelse"
  else
    let s := s.setRefcnt b (s.refcnt b - 1)
    .ok (if s.refcnt b = 0 then (s.unlink b).pushFront b else s)

/-- `log_write(b)` on the cache: `B_DIRTY` pins `b` until the commit writes it. -/
def logWrite (s : Cache) (b : Fin NBUF) : Cache := s.setFlags b (s.flags b ||| B_DIRTY)

/-- The calls into the buffer cache. -/
inductive Event
  | bread (dev blockno : UInt32)
  | bwrite (b : Fin NBUF)
  | brelse (b : Fin NBUF)
  | logWrite (b : Fin NBUF)
  deriving DecidableEq, Repr

/-- One call. -/
def step (s : Cache) : Event → Except String Cache
  | .bread dev blockno => Prod.snd <$> bread s dev blockno
  | .bwrite b => bwrite s b
  | .brelse b => brelse s b
  | .logWrite b => .ok (logWrite s b)

/-- The table in the kernel's zeroed data, before `binit`. -/
def zero : Cache := ⟨fun _ => 0, fun _ => 0, fun _ => 0, fun _ => 0, fun _ => none, fun _ => none⟩

/-- The states of the cache from `binit` on. -/
def Reachable (s : Cache) : Prop := Machine.Reach step (binit zero) s

/-! ### The list is a ring of all the buffers -/

theorem length_order_le (s : Cache) : s.order.length ≤ NBUF := Chain.length_nodes_le _ _

/-- A ring through the head is the list that `order` walks. -/
theorem order_of_ring {s : Cache} {l : List (Fin NBUF)} (h : DList.Ring s.next s.prev l) :
    s.order = l := by
  have hlen : l.length ≤ NBUF := by simpa using h.nodup.length_le_card
  exact DList.nodes_next h.links h.next_last hlen

theorem order_congr {s s' : Cache} (hn : s'.next = s.next) : s'.order = s.order := by
  rw [Cache.order, Cache.order, hn]

/-- Two buffers hold the same block only when it is block `0` of device `0`. -/
def TagsUnique (s : Cache) : Prop :=
  ∀ b c, s.dev b = s.dev c → s.blockno b = s.blockno c → (s.dev b, s.blockno b) ≠ (0, 0) → b = c

/-- The invariant of the cache. -/
structure Inv (s : Cache) : Prop where
  ring : DList.Ring s.next s.prev s.order
  mem : ∀ b, b ∈ s.order
  tags : TagsUnique s

/-- The links and the tags are all the invariant reads. -/
theorem Inv.congr {s s' : Cache} (hi : Inv s) (hn : s'.next = s.next) (hp : s'.prev = s.prev)
    (htags : TagsUnique s') : Inv s' := by
  have ho := order_congr hn
  refine ⟨?_, fun b => ho ▸ hi.mem b, htags⟩
  rw [ho, hn, hp]
  exact hi.ring

theorem Inv.setFlags {s : Cache} (hi : Inv s) (b : Fin NBUF) (v : UInt32) : Inv (s.setFlags b v) :=
  hi.congr rfl rfl hi.tags

theorem Inv.setRefcnt {s : Cache} (hi : Inv s) (b : Fin NBUF) (v : ℕ) : Inv (s.setRefcnt b v) :=
  hi.congr rfl rfl hi.tags

/-- Re-tagging a buffer for a block that no buffer holds keeps the tags apart. -/
theorem TagsUnique.retag {s : Cache} (h : TagsUnique s) {d n : UInt32}
    (hfresh : ∀ c, s.isBlock d n c = false) (b : Fin NBUF) : TagsUnique (s.retag b d n) := by
  -- the new tag of `b` is `(d, n)`, which no other buffer holds
  have hne : ∀ c, s.dev c = d → s.blockno c ≠ n := fun c hd hn => by
    simpa [Cache.isBlock, hd, hn] using hfresh c
  intro c c' hd hn hz
  simp only [Cache.retag, update_apply] at hd hn hz
  by_cases hc : c = b <;> by_cases hc' : c' = b
  · rw [hc, hc']
  · rw [if_pos hc, if_neg hc'] at hd hn
    exact absurd hn.symm (hne c' hd.symm)
  · rw [if_neg hc, if_pos hc'] at hd hn
    exact absurd hn (hne c hd)
  · rw [if_neg hc, if_neg hc'] at hd hn
    simp only [if_neg hc] at hz
    exact h c c' hd hn hz

/-! ### `binit` -/

theorem ring_foldl_pushFront :
    ∀ {s : Cache} {l : List (Fin NBUF)} (bs : List (Fin NBUF)), DList.Ring s.next s.prev l →
      bs.Nodup → (∀ b ∈ bs, b ∉ l) →
        DList.Ring (bs.foldl Cache.pushFront s).next (bs.foldl Cache.pushFront s).prev
          (bs.reverse ++ l)
  | _, _, [], h, _, _ => h
  | s, l, b :: bs, h, hnd, hout => by
    obtain ⟨hb, hnd⟩ := List.nodup_cons.1 hnd
    have h' : DList.Ring (s.pushFront b).next (s.pushFront b).prev (b :: l) :=
      h.pushFront (hout b List.mem_cons_self)
    have hout' : ∀ c ∈ bs, c ∉ b :: l := fun c hc hcl => by
      rcases List.mem_cons.1 hcl with rfl | hcl
      · exact hb hc
      · exact hout c (List.mem_cons_of_mem b hc) hcl
    rw [List.foldl_cons, List.reverse_cons, List.append_assoc, List.singleton_append]
    exact ring_foldl_pushFront bs h' hnd hout'

theorem tags_foldl_pushFront : ∀ (s : Cache) (bs : List (Fin NBUF)),
    (bs.foldl Cache.pushFront s).dev = s.dev ∧ (bs.foldl Cache.pushFront s).blockno = s.blockno
  | _, [] => ⟨rfl, rfl⟩
  | s, b :: bs => tags_foldl_pushFront (s.pushFront b) bs

@[simp] theorem dev_binit (s : Cache) : (binit s).dev = s.dev := (tags_foldl_pushFront _ _).1

@[simp] theorem blockno_binit (s : Cache) : (binit s).blockno = s.blockno :=
  (tags_foldl_pushFront _ _).2

/-- `binit` leaves the ring of the buffers in reverse, the last of the table first. -/
theorem Inv.binit : Inv (binit zero) := by
  -- the empty ring: the head alone, pointing at itself
  let s₀ : Cache :=
    { zero with next := update zero.next none none, prev := update zero.prev none none }
  have h₀ : DList.Ring s₀.next s₀.prev [] :=
    ⟨trivial, update_self none none zero.next, update_self none none zero.prev, List.nodup_nil⟩
  have hb : Bcache.binit zero = (List.finRange NBUF).foldl Cache.pushFront s₀ := rfl
  have hring := ring_foldl_pushFront (List.finRange NBUF) h₀ (List.nodup_finRange NBUF)
    (fun _ _ => List.not_mem_nil)
  rw [List.append_nil] at hring
  have ho := order_of_ring hring
  refine ⟨?_, fun b => ?_, fun b c _ _ hz => absurd rfl hz⟩
  · rw [hb, ho]
    exact hring
  · rw [hb, ho, List.mem_reverse]
    exact List.mem_finRange b

/-! ### `bget` -/

/-- What `bget` does: it increments a buffer that holds the block, or, when the walk forward
finds none, re-tags a free one. -/
theorem bget_cases {s s' : Cache} {d n : UInt32} {b : Fin NBUF} (h : bget s d n = .ok (b, s')) :
    (s.isBlock d n b = true ∧ s' = s.setRefcnt b (s.refcnt b + 1)) ∨
      ((∀ c ∈ s.order, s.isBlock d n c = false) ∧ s.isFree b = true ∧ s' = s.retag b d n) := by
  unfold bget at h
  split at h
  · cases h
  · next b' hfind =>
    cases h
    exact .inl ⟨(Chain.find_eq_some hfind).1, rfl⟩
  · next hfind =>
    split at h
    · cases h
    · next b' hvictim =>
      cases h
      exact .inr ⟨Chain.find_eq_none hfind, (Chain.find_eq_some hvictim).1, rfl⟩
    · cases h

/-- A buffer held or pinned by `B_DIRTY` keeps its tag through `bget`. -/
theorem bget_keeps_busy {s s' : Cache} {d n : UInt32} {b : Fin NBUF}
    (h : bget s d n = .ok (b, s')) (c : Fin NBUF)
    (hc : 0 < s.refcnt c ∨ s.flags c &&& B_DIRTY ≠ 0) :
    s'.dev c = s.dev c ∧ s'.blockno c = s.blockno c := by
  rcases bget_cases h with ⟨-, rfl⟩ | ⟨-, hfree, rfl⟩
  · exact ⟨rfl, rfl⟩
  · -- the victim is free, so it is not `c`
    have hcb : c ≠ b := by
      rintro rfl
      simp only [Cache.isFree, Bool.and_eq_true, beq_iff_eq] at hfree
      rcases hc with hc | hc
      · omega
      · exact hc hfree.2
    simp [Cache.retag, update_of_ne hcb]

theorem Inv.bget {s s' : Cache} (hi : Inv s) {d n : UInt32} {b : Fin NBUF}
    (h : bget s d n = .ok (b, s')) : Inv s' := by
  rcases bget_cases h with ⟨-, rfl⟩ | ⟨hfresh, -, rfl⟩
  · exact hi.setRefcnt _ _
  · exact hi.congr rfl rfl (hi.tags.retag (fun c => hfresh c (hi.mem c)) b)

/-- On the ring, the walk forward is `find?` on the list. -/
theorem find_forward {s : Cache} (hi : Inv s) (p : Fin NBUF → Bool) :
    Chain.find (fun b => s.next (some b)) p NBUF (s.next none) = .ok (s.order.find? p) :=
  DList.find_next p hi.ring.links hi.ring.next_last (length_order_le s)

/-- A block that a buffer holds is found by the walk forward, and `bget` takes the first
buffer that holds it. -/
theorem bget_cached {s : Cache} (hi : Inv s) {d n : UInt32} {c : Fin NBUF}
    (hc : s.isBlock d n c = true) :
    ∃ b, s.isBlock d n b = true ∧ bget s d n = .ok (b, s.setRefcnt b (s.refcnt b + 1)) := by
  obtain ⟨b, hb⟩ : ∃ b, s.order.find? (s.isBlock d n) = some b := by
    rw [← Option.isSome_iff_exists, List.find?_isSome]
    exact ⟨c, hi.mem c, hc⟩
  refine ⟨b, List.find?_some hb, ?_⟩
  rw [bget, find_forward hi, hb]

/-! ### `iderw` and `bread` -/

theorem iderw_cases {s s' : Cache} {b : Fin NBUF} (h : iderw s b = .ok s') :
    ∃ v, s' = s.setFlags b v := by
  unfold iderw at h
  split_ifs at h
  cases h
  exact ⟨_, rfl⟩

/-- `iderw` from `bread` does not panic: the caller holds a reference, and the data is not
valid. -/
theorem iderw_of_invalid {s : Cache} {b : Fin NBUF} (hr : s.refcnt b ≠ 0)
    (hv : s.flags b &&& B_VALID = 0) :
    iderw s b = .ok (s.setFlags b ((s.flags b ||| B_VALID) &&& ~~~B_DIRTY)) := by
  have hnot : s.flags b &&& (B_VALID ||| B_DIRTY) ≠ B_VALID := by
    intro h
    have h2 : (s.flags b &&& (B_VALID ||| B_DIRTY)) &&& B_VALID = s.flags b &&& B_VALID := by
      rw [UInt32.and_assoc]
      rfl
    rw [h, hv] at h2
    exact absurd h2 (by decide)
  rw [iderw, if_neg hr, if_neg hnot]

/-- `bread` after the `bget` it starts with. -/
theorem bread_eq {s s₁ : Cache} {d n : UInt32} {b : Fin NBUF} (h : bget s d n = .ok (b, s₁)) :
    bread s d n =
      if s₁.flags b &&& B_VALID = 0 then iderw s₁ b >>= fun s => .ok (b, s) else .ok (b, s₁) := by
  rw [bread, h, except_ok_bind]
  rfl

/-- What `bread` does: `bget`, and the flags of the buffer it returns. -/
theorem bread_cases {s s' : Cache} {d n : UInt32} {b : Fin NBUF} (h : bread s d n = .ok (b, s')) :
    ∃ s₁, bget s d n = .ok (b, s₁) ∧ (s' = s₁ ∨ ∃ v, s' = s₁.setFlags b v) := by
  cases hget : bget s d n with
  | error e =>
    rw [bread, hget, except_error_bind] at h
    cases h
  | ok r =>
    obtain ⟨b₁, s₁⟩ := r
    rw [bread_eq hget] at h
    split_ifs at h
    · obtain ⟨s₂, hide, h⟩ := Except.bind_eq_ok.1 h
      cases h
      exact ⟨_, rfl, .inr (iderw_cases hide)⟩
    · cases h
      exact ⟨_, rfl, .inl rfl⟩

/-- **`bread` reads a cached block from its buffer.**  When a buffer holds the block, `bread`
returns a buffer that held it already, and re-tags none. -/
theorem bread_cached {s : Cache} (hi : Inv s) {d n : UInt32} {c : Fin NBUF}
    (hc : s.isBlock d n c = true) :
    ∃ b s', bread s d n = .ok (b, s') ∧ s.isBlock d n b = true ∧ s'.dev = s.dev ∧
      s'.blockno = s.blockno := by
  obtain ⟨b, hb, hget⟩ := bget_cached hi hc
  set s₁ := s.setRefcnt b (s.refcnt b + 1) with hs₁
  have hr : s₁.refcnt b ≠ 0 := by simp [hs₁]
  rw [bread_eq hget]
  split_ifs with hv
  · refine ⟨b, s₁.setFlags b ((s₁.flags b ||| B_VALID) &&& ~~~B_DIRTY), ?_, hb, rfl, rfl⟩
    rw [iderw_of_invalid hr hv]
    rfl
  · exact ⟨b, s₁, rfl, hb, rfl, rfl⟩

/-! ### `brelse` -/

theorem brelse_cases {s s' : Cache} {b : Fin NBUF} (h : brelse s b = .ok s') :
    (s.refcnt b = 1 ∧ s' = ((s.setRefcnt b 0).unlink b).pushFront b) ∨
      (1 < s.refcnt b ∧ s' = s.setRefcnt b (s.refcnt b - 1)) := by
  unfold brelse at h
  split_ifs at h with h0
  cases h
  split_ifs with h1
  · -- the last reference: `b` goes to the front
    have h1' : s.refcnt b = 1 := by simp at h1; omega
    exact .inl ⟨h1', by rw [h1', Nat.sub_self]⟩
  · have h1' : 1 < s.refcnt b := by simp at h1; omega
    exact .inr ⟨h1', rfl⟩

/-- Moving a buffer of the ring to the front keeps the invariant, and the buffer is first. -/
theorem Inv.moveFront {s : Cache} (hi : Inv s) (b : Fin NBUF) :
    Inv ((s.unlink b).pushFront b) ∧ ((s.unlink b).pushFront b).order = b :: s.order.erase b := by
  obtain ⟨pre, post, ho⟩ := List.append_of_mem (hi.mem b)
  have hring := hi.ring
  rw [ho] at hring
  have hb : b ∉ pre ++ post := (List.nodup_cons.1 (List.nodup_middle.1 hring.nodup)).1
  have herase : s.order.erase b = pre ++ post := by
    rw [ho, List.erase_append_right _ (fun h => hb (List.mem_append_left _ h)),
      List.erase_cons_head]
  -- `brelse` splices as `DList` does: out of the ring, then in at the front
  have hring' : DList.Ring ((s.unlink b).pushFront b).next ((s.unlink b).pushFront b).prev
      (b :: s.order.erase b) := by
    rw [herase]
    exact hring.unlink.pushFront hb
  have ho' := order_of_ring hring'
  refine ⟨⟨ho' ▸ hring', fun c => ?_, hi.tags⟩, ho'⟩
  rw [ho']
  by_cases hc : c = b
  · rw [hc]
    exact List.mem_cons_self
  · exact List.mem_cons_of_mem b ((List.mem_erase_of_ne hc).2 (hi.mem c))

theorem Inv.brelse {s s' : Cache} (hi : Inv s) {b : Fin NBUF} (h : brelse s b = .ok s') :
    Inv s' := by
  rcases brelse_cases h with ⟨-, rfl⟩ | ⟨-, rfl⟩
  · exact ((hi.setRefcnt b 0).moveFront b).1
  · exact hi.setRefcnt _ _

/-- **`brelse` and the order of the list.**  `brelse` moves `b` to the front when its last
reference goes, and leaves the list as it is otherwise. -/
theorem order_brelse {s s' : Cache} (hi : Inv s) {b : Fin NBUF} (h : brelse s b = .ok s') :
    s'.order = if s'.refcnt b = 0 then b :: s.order.erase b else s.order := by
  rcases brelse_cases h with ⟨-, rfl⟩ | ⟨h1, rfl⟩
  · have hzero : (((s.setRefcnt b 0).unlink b).pushFront b).refcnt b = 0 := by simp
    rw [if_pos hzero, ((hi.setRefcnt b 0).moveFront b).2]
    rfl
  · have hpos : (s.setRefcnt b (s.refcnt b - 1)).refcnt b ≠ 0 := by simp; omega
    rw [if_neg hpos]
    rfl

/-! ### Every state the cache reaches -/

theorem Inv.step {s s' : Cache} (hi : Inv s) {e : Event} (h : step s e = .ok s') : Inv s' := by
  cases e with
  | bread d n =>
    obtain ⟨⟨b, s'⟩, hr, rfl⟩ := Except.map_eq_ok.1 h
    obtain ⟨s₁, hget, rfl | ⟨v, rfl⟩⟩ := bread_cases hr
    · exact hi.bget hget
    · exact (hi.bget hget).setFlags b v
  | bwrite b =>
    have h : bwrite s b = .ok s' := h
    unfold bwrite at h
    split_ifs at h
    obtain ⟨v, rfl⟩ := iderw_cases h
    exact (hi.setFlags _ _).setFlags b v
  | brelse b => exact hi.brelse h
  | logWrite b =>
    cases h
    exact hi.setFlags _ _

theorem Reachable.inv {s : Cache} (h : Reachable s) : Inv s :=
  Machine.Reach.invariant h Inv.binit fun _ _ _ hi hs => hi.step hs

/-- **The buffer cache stays coherent.**  In every state the cache reaches from `binit`: the
list is a ring through `bcache.head` that holds every buffer once, with `prev` undoing `next`;
two buffers hold the same block only when it is block `0` of device `0`; `bget` never re-tags a
buffer that is held or pinned by `B_DIRTY`; `bread` of a block that a buffer holds returns a
buffer that held it, that very one unless the block is `(0, 0)`, and re-tags none; and `brelse`
moves a buffer to the front exactly when its last reference goes. -/
theorem bcache_coherent {s : Cache} (h : Reachable s) :
    (DList.Ring s.next s.prev s.order ∧ ∀ b, b ∈ s.order) ∧
    (∀ b c, s.dev b = s.dev c → s.blockno b = s.blockno c → (s.dev b, s.blockno b) ≠ (0, 0) →
      b = c) ∧
    (∀ d n b s', bget s d n = .ok (b, s') → ∀ c, 0 < s.refcnt c ∨ s.flags c &&& B_DIRTY ≠ 0 →
      s'.dev c = s.dev c ∧ s'.blockno c = s.blockno c) ∧
    (∀ d n c, s.dev c = d → s.blockno c = n →
      ∃ b s', bread s d n = .ok (b, s') ∧ s.dev b = d ∧ s.blockno b = n ∧
        ((d, n) ≠ (0, 0) → b = c) ∧ s'.dev = s.dev ∧ s'.blockno = s.blockno) ∧
    (∀ b s', brelse s b = .ok s' →
      s'.order = if s'.refcnt b = 0 then b :: s.order.erase b else s.order) := by
  have hi := h.inv
  refine ⟨⟨hi.ring, hi.mem⟩, hi.tags, fun d n b s' hget c hc => bget_keeps_busy hget c hc,
    fun d n c hd hn => ?_, fun b s' hrel => order_brelse hi hrel⟩
  obtain ⟨b, s', hread, hb, hdev, hblockno⟩ :=
    bread_cached hi (isBlock_eq_true.2 ⟨hd, hn⟩)
  obtain ⟨hbd, hbn⟩ := isBlock_eq_true.1 hb
  -- the tags of `b` and `c` are the same, so they are one buffer unless the tag is `(0, 0)`
  refine ⟨b, s', hread, hbd, hbn, fun hz => hi.tags b c (hbd.trans hd.symm) (hbn.trans hn.symm)
    (by rwa [hbd, hbn]), hdev, hblockno⟩

/-- The zeroed table tags every buffer with block `0` of device `0`, and `binit` keeps the tags:
in the first state, any two buffers hold the same block. -/
theorem binit_shared_tag :
    ∃ s, Reachable s ∧ ∃ b c : Fin NBUF, b ≠ c ∧ s.dev b = s.dev c ∧ s.blockno b = s.blockno c :=
  ⟨binit zero, .refl, 0, 1, by decide, by rw [dev_binit]; rfl, by rw [blockno_binit]; rfl⟩

/-- Block `5` of device `1` read into buffer `0`, the last that `binit` put in the list, pinned
by `log_write` and released. -/
def readPin : List Event := [.bread 1 5, .logWrite 0, .brelse 0]

theorem bcache_coherent_readPin :
    ∃ s, Reachable s ∧ s.order.head? = some 0 ∧ s.flags 0 &&& B_DIRTY ≠ 0 ∧
    ((DList.Ring s.next s.prev s.order ∧ ∀ b, b ∈ s.order) ∧
    (∀ b c, s.dev b = s.dev c → s.blockno b = s.blockno c → (s.dev b, s.blockno b) ≠ (0, 0) →
      b = c) ∧
    (∀ d n b s', bget s d n = .ok (b, s') → ∀ c, 0 < s.refcnt c ∨ s.flags c &&& B_DIRTY ≠ 0 →
      s'.dev c = s.dev c ∧ s'.blockno c = s.blockno c) ∧
    (∀ d n c, s.dev c = d → s.blockno c = n →
      ∃ b s', bread s d n = .ok (b, s') ∧ s.dev b = d ∧ s.blockno b = n ∧
        ((d, n) ≠ (0, 0) → b = c) ∧ s'.dev = s.dev ∧ s'.blockno = s.blockno) ∧
    (∀ b s', brelse s b = .ok s' →
      s'.order = if s'.refcnt b = 0 then b :: s.order.erase b else s.order)) := by
  -- the run ends with buffer `0` first in the list and pinned
  have hrun : (Machine.run step (binit zero) readPin).toOption.map
      (fun s => decide (s.order.head? = some 0 ∧ s.flags 0 &&& B_DIRTY ≠ 0)) = some true := by
    decide +kernel
  obtain ⟨s, hs, hp⟩ := Machine.exists_reach_of_run hrun
  obtain ⟨hhead, hdirty⟩ := of_decide_eq_true hp
  exact ⟨s, hs, hhead, hdirty, bcache_coherent hs⟩

end Bcache

end Xv6Kernel
