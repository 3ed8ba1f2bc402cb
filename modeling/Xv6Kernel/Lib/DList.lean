import Xv6Kernel.Lib.Chain

/-!
# Doubly linked rings through a sentinel

A doubly linked list threaded through the entries of a table and closed into a ring through a
sentinel node, as `bcache.head` closes the list of the buffer cache.  Nodes are `Option β`, the
sentinel being `none`, and `next` and `prev` give each node's neighbours.  `Links next prev a l`
says that from `a` the nodes of `l` follow one another by `next`, each pointing back by `prev`
to the one before; `Ring next prev l` closes such a path from the sentinel back to it.

* `links_append_cons` : a path splits at any of its nodes;
* `Links.congr` : a path reads `next` only at its nodes but the last (`nexts`), and `prev` only
  at the nodes of `l`;
* `Ring.pushFront`, `Ring.unlink` : the two splices of a list through a sentinel, putting a node
  first and taking one out, written statement by statement as the code does them;
* `find_next`, `find_prev` : the walks from the sentinel along `next` and along
  `prev` (`Chain.find`) meet the nodes in order and in reverse order.
-/

namespace Xv6Kernel

namespace DList

open Function

variable {β : Type*} (next prev : Option β → Option β)

/-- From `a`, `next` goes through the nodes of `l` in order, each pointing back by `prev` to the
node before it. -/
def Links : Option β → List β → Prop
  | _, [] => True
  | a, b :: l => next a = some b ∧ prev (some b) = a ∧ Links (some b) l

/-- The last node of the path from `a` through `l`. -/
def last : Option β → List β → Option β
  | a, [] => a
  | _, b :: l => last (some b) l

/-- The nodes whose `next` the path from `a` through `l` follows: all but its last. -/
def nexts : Option β → List β → List (Option β)
  | _, [] => []
  | a, b :: l => a :: nexts (some b) l

/-- A ring through the sentinel `none` holding each node of `l` once, in order. -/
structure Ring (l : List β) : Prop where
  links : Links next prev none l
  next_last : next (last none l) = none
  prev_head : prev none = last none l
  nodup : l.Nodup

variable {next prev}

@[simp] theorem last_nil (a : Option β) : last a ([] : List β) = a := rfl

@[simp] theorem last_cons (a : Option β) (b : β) (l : List β) : last a (b :: l) = last (some b) l :=
  rfl

theorem last_append_cons (a : Option β) (l₁ : List β) (b : β) (l₂ : List β) :
    last a (l₁ ++ b :: l₂) = last (some b) l₂ := by
  induction l₁ generalizing a with
  | nil => rfl
  | cons c l₁ ih => exact ih (some c)

/-- The last node is the start or a node of `l`. -/
theorem last_mem : ∀ (a : Option β) (l : List β), last a l = a ∨ ∃ b ∈ l, last a l = some b
  | a, [] => .inl rfl
  | _, b :: l => by
    rcases last_mem (some b) l with h | ⟨c, hc, h⟩
    · exact .inr ⟨b, List.mem_cons_self, h⟩
    · exact .inr ⟨c, List.mem_cons_of_mem b hc, h⟩

theorem mem_nexts : ∀ {a x : Option β} {l : List β}, x ∈ nexts a l → x = a ∨ ∃ b ∈ l, x = some b
  | _, _, [], h => by simp [nexts] at h
  | a, x, b :: l, h => by
    rcases List.mem_cons.1 h with rfl | h
    · exact .inl rfl
    · rcases mem_nexts h with rfl | ⟨c, hc, rfl⟩
      · exact .inr ⟨b, List.mem_cons_self, rfl⟩
      · exact .inr ⟨c, List.mem_cons_of_mem b hc, rfl⟩

/-- What holds of the start and of every node holds of every node whose `next` the path
follows. -/
theorem forall_nexts {P : Option β → Prop} {a : Option β} {l : List β} (ha : P a)
    (hl : ∀ b ∈ l, P (some b)) : ∀ x ∈ nexts a l, P x := fun x hx => by
  rcases mem_nexts hx with rfl | ⟨b, hb, rfl⟩
  · exact ha
  · exact hl b hb

/-- What holds of the start and of every node holds of the last node. -/
theorem last_of_forall {P : Option β → Prop} {a : Option β} {l : List β} (ha : P a)
    (hl : ∀ b ∈ l, P (some b)) : P (last a l) := by
  rcases last_mem a l with h | ⟨b, hb, h⟩
  · rw [h]
    exact ha
  · rw [h]
    exact hl b hb

theorem some_ne_of_not_mem {b : β} {l : List β} (hb : b ∉ l) : ∀ d ∈ l, some d ≠ some b :=
  fun _ hd h => hb (Option.some.inj h ▸ hd)

/-- On a path with no node twice, the last node is not one whose `next` the path follows. -/
theorem last_not_mem_nexts :
    ∀ {a : Option β} {l : List β}, (∀ b ∈ l, a ≠ some b) → l.Nodup → last a l ∉ nexts a l
  | _, [], _, _ => by simp [nexts]
  | a, b :: l, ha, hnd => by
    have hb : ∀ c ∈ l, some b ≠ some c := fun c hc =>
      (some_ne_of_not_mem (List.nodup_cons.1 hnd).1 c hc).symm
    rw [last_cons, nexts, List.mem_cons, not_or]
    refine ⟨fun h => ?_, last_not_mem_nexts hb (List.nodup_cons.1 hnd).2⟩
    -- the last node is `b` or after it, so it is not `a`
    rcases last_mem (some b) l with h' | ⟨c, hc, h'⟩
    · exact ha b List.mem_cons_self (h.symm.trans h')
    · exact ha c (List.mem_cons_of_mem b hc) (h.symm.trans h')

/-- A path splits at any of its nodes. -/
theorem links_append_cons (a : Option β) (l₁ : List β) (b : β) (l₂ : List β) :
    Links next prev a (l₁ ++ b :: l₂) ↔
      Links next prev a l₁ ∧ next (last a l₁) = some b ∧ prev (some b) = last a l₁ ∧
        Links next prev (some b) l₂ := by
  induction l₁ generalizing a with
  | nil => simp [Links]
  | cons c l₁ ih =>
    simp only [List.cons_append, Links, last_cons, ih (some c)]
    tauto

/-- A path reads `next` only at `nexts` and `prev` only at its nodes. -/
theorem Links.congr {next' prev' : Option β → Option β} :
    ∀ {a : Option β} {l : List β}, Links next prev a l →
      (∀ x ∈ nexts a l, next' x = next x) → (∀ b ∈ l, prev' (some b) = prev (some b)) →
      Links next' prev' a l
  | _, [], _, _, _ => trivial
  | a, b :: l, ⟨hn, hp, h⟩, hnext, hprev => by
    refine ⟨(hnext a List.mem_cons_self).trans hn, (hprev b List.mem_cons_self).trans hp, ?_⟩
    exact h.congr (fun x hx => hnext x (List.mem_cons_of_mem a hx))
      (fun c hc => hprev c (List.mem_cons_of_mem b hc))

/-- The walk along `next` from the node after `a` meets the nodes of a path that ends at the
sentinel in order. -/
theorem find_next (p : β → Bool) : ∀ {a : Option β} {l : List β} {n : ℕ},
    Links next prev a l → next (last a l) = none → l.length ≤ n →
      Chain.find (fun b => next (some b)) p n (next a) = .ok (l.find? p)
  | a, [], n, _, hend, _ => by
    rw [last_nil] at hend
    rw [hend, Chain.find_none]
    rfl
  | _, _ :: _, 0, _, _, hlen => absurd hlen (by simp)
  | a, b :: l, n + 1, ⟨hn, _, hl⟩, hend, hlen => by
    rw [hn, Chain.find_succ_some]
    by_cases hb : p b = true
    · rw [if_pos hb, List.find?_cons_of_pos hb]
    · rw [if_neg hb, List.find?_cons_of_neg hb]
      exact find_next p hl hend (by simpa using hlen)

/-- The walk along `prev` from the last node of a path from the sentinel meets its nodes in
reverse order. -/
theorem find_prev (p : β → Bool) {l : List β} :
    ∀ {n : ℕ}, Links next prev none l → l.length ≤ n →
      Chain.find (fun b => prev (some b)) p n (last none l) = .ok (l.reverse.find? p) := by
  induction l using List.reverseRecOn with
  | nil => intro n _ _; rw [last_nil, Chain.find_none]; rfl
  | append_singleton l b ih =>
    intro n hl hlen
    obtain ⟨hl, -, hpb, -⟩ := (links_append_cons none l b []).1 hl
    obtain ⟨m, rfl⟩ : ∃ m, n = m + 1 := ⟨n - 1, by simp at hlen; omega⟩
    rw [last_append_cons, last_nil, Chain.find_succ_some, List.reverse_append, List.reverse_singleton,
      List.singleton_append]
    by_cases hb : p b = true
    · rw [if_pos hb, List.find?_cons_of_pos hb]
    · rw [if_neg hb, List.find?_cons_of_neg hb, hpb]
      exact ih hl (by simp at hlen; omega)

/-- The nodes met along `next` from the node after `a`, on a path that ends at the sentinel,
are those of the path. -/
theorem nodes_next : ∀ {a : Option β} {l : List β} {n : ℕ},
    Links next prev a l → next (last a l) = none → l.length ≤ n →
      Chain.nodes (fun b => next (some b)) n (next a) = l
  | a, [], n, _, hend, _ => by
    rw [last_nil] at hend
    rw [hend, Chain.nodes_none]
  | _, _ :: _, 0, _, _, hlen => absurd hlen (by simp)
  | a, b :: l, n + 1, ⟨hn, _, hl⟩, hend, hlen => by
    rw [hn, Chain.nodes, nodes_next hl hend (by simpa using hlen)]

section Splice

variable [DecidableEq β]

section

variable (next prev)

/-- `b->next = head.next; b->prev = &head; head.next->prev = b; head.next = b`: `b` goes first. -/
def pushFront (b : β) : (Option β → Option β) × (Option β → Option β) :=
  let next := update next (some b) (next none)
  let prev := update prev (some b) none
  let prev := update prev (next none) (some b)
  (update next none (some b), prev)

/-- `b->next->prev = b->prev; b->prev->next = b->next`: `b` leaves the list. -/
def unlink (b : β) : (Option β → Option β) × (Option β → Option β) :=
  let prev := update prev (next (some b)) (prev (some b))
  (update next (prev (some b)) (next (some b)), prev)

end

/-- `b` put first in a ring without it gives the ring with `b` first. -/
theorem Ring.pushFront {l : List β} (h : Ring next prev l) {b : β} (hb : b ∉ l) :
    Ring (pushFront next prev b).1 (pushFront next prev b).2 (b :: l) := by
  simp only [DList.pushFront]
  have hbn : some b ≠ none := Option.some_ne_none b
  rw [update_of_ne hbn.symm]
  cases l with
  | nil =>
    have hn : next none = none := h.next_last
    rw [hn]
    exact ⟨⟨update_self .., by rw [update_of_ne hbn, update_self], trivial⟩,
      by rw [last_cons, last_nil, update_of_ne hbn, update_self], update_self .., List.nodup_singleton b⟩
  | cons c l =>
    obtain ⟨⟨hn, hp, hl⟩, hlast, hhead, hnd⟩ := h
    rw [hn]
    have hbl := some_ne_of_not_mem hb
    have hcl := some_ne_of_not_mem (List.nodup_cons.1 hnd).1
    have hbc : some b ≠ some c := (hbl c List.mem_cons_self).symm
    -- the old nodes are neither the sentinel nor `b`
    have hold_c : some c ≠ none ∧ some c ≠ some b := ⟨Option.some_ne_none c, hbc.symm⟩
    have hold_l : ∀ d ∈ l, some d ≠ none ∧ some d ≠ some b := fun d hd =>
      ⟨Option.some_ne_none d, hbl d (List.mem_cons_of_mem c hd)⟩
    have hlast_old := last_of_forall (P := fun x => x ≠ none ∧ x ≠ some b) hold_c hold_l
    refine ⟨⟨update_self .., by rw [update_of_ne hbc, update_self],
      by rw [update_of_ne hbn, update_self], update_self .., ?_⟩, ?_, ?_, List.nodup_cons.2 ⟨hb, hnd⟩⟩
    · -- the links after `c` are those of the old ring
      refine hl.congr (fun x hx => ?_) (fun d hd => ?_)
      · have hx' := forall_nexts (P := fun x => x ≠ none ∧ x ≠ some b) hold_c hold_l x hx
        rw [update_of_ne hx'.1, update_of_ne hx'.2]
      · rw [update_of_ne (hcl d hd), update_of_ne (hbl d (List.mem_cons_of_mem c hd))]
    · rw [last_cons, last_cons, update_of_ne hlast_old.1, update_of_ne hlast_old.2]
      exact hlast
    · rw [update_of_ne (Option.some_ne_none c).symm, update_of_ne hbn.symm, hhead]
      rfl

/-- `b` taken out of a ring leaves the ring of the other nodes, in order. -/
theorem Ring.unlink {pre post : List β} {b : β} (h : Ring next prev (pre ++ b :: post)) :
    Ring (unlink next prev b).1 (unlink next prev b).2 (pre ++ post) := by
  obtain ⟨hl, hlast, hhead, hnd⟩ := h
  obtain ⟨hpre, hnp, hpb, hpost⟩ := (links_append_cons none pre b post).1 hl
  rw [last_append_cons] at hlast hhead
  obtain ⟨hb, hnd'⟩ := List.nodup_cons.1 (List.nodup_middle.1 hnd)
  obtain ⟨hndpre, hndpost, hdisj⟩ := List.nodup_append.1 hnd'
  -- the node before `b` is the sentinel or a node of `pre`, so no node of `post`
  have hp_post : ∀ d ∈ post, last none pre ≠ some d :=
    last_of_forall (P := fun x => ∀ d ∈ post, x ≠ some d) (fun d _ => (Option.some_ne_none d).symm)
      (fun e he d hd h => hdisj e he d hd (Option.some.inj h))
  have hnexts : last none pre ∉ nexts none pre :=
    last_not_mem_nexts (fun d _ => (Option.some_ne_none d).symm) hndpre
  have hpre' : ∀ {y z : Option β} {v : Option β}, (∀ d ∈ pre, some d ≠ v) →
      Links (update next (last none pre) y) (update prev v z) none pre := fun hv =>
    hpre.congr (fun x hx => update_of_ne (fun (h : x = last none pre) => hnexts (h ▸ hx)) _ _)
      (fun d hd => update_of_ne (hv d hd) _ _)
  simp only [DList.unlink]
  cases post with
  | nil =>
    -- `b` was last: the sentinel now follows the node before it
    have hq : next (some b) = none := hlast
    rw [hq, update_of_ne (Option.some_ne_none b), hpb, List.append_nil]
    exact ⟨hpre' fun d _ => Option.some_ne_none d, by simp, by simp, hndpre⟩
  | cons c post =>
    obtain ⟨hq, hpc, hpost⟩ := hpost
    have hbc : some b ≠ some c :=
      (some_ne_of_not_mem hb c (List.mem_append_right pre List.mem_cons_self)).symm
    rw [hq, update_of_ne hbc, hpb]
    have hc_pre : ∀ d ∈ pre, some d ≠ some c := fun d hd h =>
      hdisj d hd c List.mem_cons_self (Option.some.inj h)
    have hc_post := some_ne_of_not_mem (List.nodup_cons.1 hndpost).1
    -- the nodes from `c` on are not the node before `b`
    have hc_ne : some c ≠ last none pre := fun h => hp_post c List.mem_cons_self h.symm
    have hpost_ne : ∀ d ∈ post, some d ≠ last none pre := fun d hd h =>
      hp_post d (List.mem_cons_of_mem c hd) h.symm
    have hc_nexts := forall_nexts (P := fun x => x ≠ last none pre) hc_ne hpost_ne
    have hlast_ne := last_of_forall (P := fun x => x ≠ last none pre) hc_ne hpost_ne
    refine ⟨(links_append_cons none pre c post).2 ⟨hpre' hc_pre, by simp, by simp, ?_⟩, ?_, ?_,
      hnd'⟩
    · exact hpost.congr (fun x hx => update_of_ne (hc_nexts x hx) _ _)
        (fun d hd => update_of_ne (hc_post d hd) _ _)
    · rw [last_append_cons, update_of_ne hlast_ne]
      exact hlast
    · rw [last_append_cons, update_of_ne (Option.some_ne_none c).symm]
      exact hhead

end Splice

end DList

end Xv6Kernel
