import Mathlib.Data.List.Rotate

/-!
# Walking a linked list threaded through a table

The kernel's lists (the stride queue, the thread list of a group) are threaded through the
entries of a fixed table: each node names the next by a `next` field, and `NULL` ends the list.
A loop over such a list terminates only if the list does; over a table of `n` entries, `n`
nodes examined without reaching the end or a match mean that the walk has entered a cycle and
runs forever, since every node it ever visits is among the first `n` (two of the first `n + 1`
coincide, and from there the walk repeats).  So the walks here carry an explicit bound and
report a walk that exceeds it as `error ()`.

* `Chain.nodes next n a` : the first `n` nodes of the list from `a`;
* `Chain.ends next n a` : whether the list from `a` ends within `n` nodes;
* `Chain.find next p n a` : the loop `while (x) { if (p x) break; x = next(x); }`.

A list that ends within `n` nodes ends within its own length, and so does the rest of it from
any of its nodes (`ends_length`, `ends_of_mem`); a search of such a list with that bound never
runs out (`find_ok_of_ends`).  With `NULL` taken back to the head, `next` goes round the list
(`walksTo_nodes`), so a walk from the node after `x` meets the others in the order
`Chain.after l x`, and `x` last.

A list that a structure keeps is a list segment, `Chain.Seg next a l z`: from `a` the walk meets
the nodes `l` and arrives at `z` (`NULL` for a whole list).  A whole list meets no node twice
(`Seg.nodup`), the walk to its last node finds it (`Seg.find_last`), and writing `next` at the
last node appends a node (`Seg.snoc_update`).
-/

namespace Xv6Kernel

namespace Chain

variable {β : Type*} (next : β → Option β)

/-- The first `n` nodes of the list starting at `a`. -/
def nodes : ℕ → Option β → List β
  | _, none => []
  | 0, some _ => []
  | n + 1, some b => b :: nodes n (next b)

/-- Whether the list from `a` ends within `n` nodes. -/
def ends : ℕ → Option β → Bool
  | _, none => true
  | 0, some _ => false
  | n + 1, some b => ends n (next b)

/-- The loop `while (x) { if (p x) break; x = next(x); }` from `a`: `ok (some b)` when it
breaks at `b`, `ok none` when it runs off the end of the list, and `error ()` when `n` nodes
were examined and the list goes on. -/
def find (p : β → Bool) : ℕ → Option β → Except Unit (Option β)
  | _, none => .ok none
  | 0, some _ => .error ()
  | n + 1, some b => if p b then .ok (some b) else find p n (next b)

variable {next}

@[simp] theorem find_none (p : β → Bool) (n : ℕ) : find next p n none = .ok none := by
  cases n <;> rfl

theorem find_succ_some (p : β → Bool) (n : ℕ) (b : β) :
    find next p (n + 1) (some b) = if p b then .ok (some b) else find next p n (next b) := rfl

/-- A node where the loop breaks satisfies the test and lies on the list. -/
theorem find_eq_some {p : β → Bool} :
    ∀ {n : ℕ} {a : Option β} {b : β}, find next p n a = .ok (some b) →
      p b = true ∧ b ∈ nodes next n a
  | 0, none, _, h => by cases h
  | 0, some _, _, h => by cases h
  | n + 1, none, _, h => by cases h
  | n + 1, some c, b, h => by
    rw [find_succ_some] at h
    by_cases hc : p c = true
    · rw [if_pos hc] at h
      cases h
      exact ⟨hc, List.mem_cons_self⟩
    · rw [if_neg hc] at h
      obtain ⟨hb, hmem⟩ := find_eq_some h
      exact ⟨hb, List.mem_cons_of_mem _ hmem⟩

/-- When the loop runs off the end, no node of the list satisfies the test. -/
theorem find_eq_none {p : β → Bool} :
    ∀ {n : ℕ} {a : Option β}, find next p n a = .ok none → ∀ b ∈ nodes next n a, p b = false
  | 0, none, _ => by simp [nodes]
  | 0, some _, h => by cases h
  | n + 1, none, _ => by simp [nodes]
  | n + 1, some c, h => by
    rw [find_succ_some] at h
    by_cases hc : p c = true
    · rw [if_pos hc] at h; cases h
    · rw [if_neg hc] at h
      intro b hb
      rcases List.mem_cons.1 hb with rfl | hb
      · simpa using hc
      · exact find_eq_none h b hb

@[simp] theorem nodes_none (n : ℕ) : nodes next n none = [] := by cases n <;> rfl

@[simp] theorem ends_none (n : ℕ) : ends next n none = true := by cases n <;> rfl

theorem length_nodes_le : ∀ (n : ℕ) (a : Option β), (nodes next n a).length ≤ n
  | n, none => by simp
  | 0, some _ => by simp [nodes]
  | n + 1, some b => by simpa [nodes] using length_nodes_le n (next b)

/-! ### Lists that end -/

theorem ends_mono : ∀ {n n' : ℕ} {a : Option β}, ends next n a = true → n ≤ n' →
    ends next n' a = true
  | _, n', none, _, _ => ends_none n'
  | 0, _, some _, h, _ => by simp [ends] at h
  | _ + 1, 0, some _, _, hle => absurd hle (by omega)
  | n + 1, n' + 1, some b, h, hle => ends_mono (n := n) (a := next b) h (by omega)

/-- A list that ends within `n` nodes ends within its length. -/
theorem ends_length : ∀ {n : ℕ} {a : Option β}, ends next n a = true →
    ends next (nodes next n a).length a = true
  | _, none, _ => ends_none _
  | 0, some _, h => by simp [ends] at h
  | n + 1, some b, h => ends_length (n := n) (a := next b) h

/-- The rest of such a list from one of its nodes ends within the length of the whole list. -/
theorem ends_of_mem : ∀ {n : ℕ} {a b : β}, ends next n (some a) = true →
    b ∈ nodes next n (some a) → ends next (nodes next n (some a)).length (some b) = true
  | 0, _, _, _, hb => by simp [nodes] at hb
  | n + 1, a, b, h, hb => by
    rcases List.mem_cons.1 hb with rfl | hb
    · exact ends_length h
    · cases hc : next a with
      | none =>
        rw [hc] at hb
        simp at hb
      | some c =>
        have h' : ends next n (some c) = true := by
          rw [← hc]
          exact h
        rw [hc] at hb
        refine ends_mono (ends_of_mem h' hb) ?_
        rw [show nodes next (n + 1) (some a) = a :: nodes next n (next a) from rfl, hc]
        exact Nat.le_succ _

/-- A search with the bound of a list that ends within it never runs out. -/
theorem find_ok_of_ends (p : β → Bool) : ∀ {n : ℕ} {a : Option β}, ends next n a = true →
    ∃ r, find next p n a = .ok r
  | _, none, _ => ⟨none, find_none p _⟩
  | 0, some _, h => by simp [ends] at h
  | n + 1, some b, h => by
    rw [find_succ_some]
    by_cases hb : p b = true
    · exact ⟨some b, if_pos hb⟩
    · rw [if_neg hb]
      exact find_ok_of_ends p (n := n) h

/-- A search that ends within a bound ends the same way with a larger one. -/
theorem find_mono {p : β → Bool} {r : Option β} : ∀ {n n' : ℕ} {a : Option β},
    find next p n a = .ok r → n ≤ n' → find next p n' a = .ok r
  | _, n', none, h, _ => by rw [find_none] at h ⊢; exact h
  | 0, _, some _, h, _ => by cases h
  | _ + 1, 0, some _, _, hle => absurd hle (by omega)
  | n + 1, n' + 1, some b, h, hle => by
    rw [find_succ_some] at h ⊢
    by_cases hb : p b = true
    · rwa [if_pos hb] at h ⊢
    · rw [if_neg hb] at h ⊢
      exact find_mono h (by omega)

/-! ### Going round a list -/

/-- `f` moves along `l`, from each node to the next and from the last to `y`. -/
def WalksTo (f : β → β) : List β → β → Prop
  | [], _ => True
  | x :: l, y => f x = l.headD y ∧ WalksTo f l y

theorem walksTo_append {f : β → β} {y : β} : ∀ {l₁ l₂ : List β},
    WalksTo f (l₁ ++ l₂) y ↔ WalksTo f l₁ (l₂.headD y) ∧ WalksTo f l₂ y
  | [], _ => by simp [WalksTo]
  | x :: l₁, l₂ => by
    have hhead : (l₁ ++ l₂).headD y = l₁.headD (l₂.headD y) := by cases l₁ <;> rfl
    simp only [List.cons_append, WalksTo, hhead, walksTo_append, and_assoc]

/-- With `NULL` taken back to `a`, `next` walks a list that ends and returns to `a`. -/
theorem walksTo_nodes (a : β) : ∀ {n : ℕ} {b : β}, ends next n (some b) = true →
    WalksTo (fun x => (next x).getD a) (nodes next n (some b)) a
  | 0, _, h => by simp [ends] at h
  | n + 1, b, h => by
    rw [show nodes next (n + 1) (some b) = b :: nodes next n (next b) from rfl]
    cases hc : next b with
    | none => simp [WalksTo, hc]
    | some c =>
      have h' : ends next n (some c) = true := by
        rw [← hc]
        exact h
      -- the list goes on from `c`, so it has a node there
      obtain ⟨n, rfl⟩ : ∃ n', n = n' + 1 := by
        cases n with
        | zero => simp [ends] at h'
        | succ n' => exact ⟨n', rfl⟩
      exact ⟨by simp [hc, nodes], walksTo_nodes a h'⟩

/-- The nodes of `l` after `x`, round the end back to the head, then `x`. -/
def after [DecidableEq β] (l : List β) (x : β) : List β := l.rotate (l.idxOf x + 1)

theorem after_eq [DecidableEq β] {pre post : List β} {x : β} (hx : x ∉ pre) :
    after (pre ++ x :: post) x = post ++ pre ++ [x] := by
  have hidx : (pre ++ x :: post).idxOf x = (pre ++ [x]).length - 1 := by
    rw [List.idxOf_append, if_neg hx, List.idxOf_cons_self]
    simp
  rw [after, hidx, show pre ++ x :: post = (pre ++ [x]) ++ post by simp,
    Nat.sub_add_cancel (by simp), List.rotate_append_length_eq]
  simp

/-! ### List segments -/

variable (next) in
/-- `Seg next a l z` : from `a`, following `next`, the walk meets the nodes `l` and arrives at
`z`; `Seg next a l none` says that the list from `a` is `l`. -/
inductive Seg : Option β → List β → Option β → Prop
  | nil (a : Option β) : Seg a [] a
  | cons {b : β} {l : List β} {z : Option β} : Seg (next b) l z → Seg (some b) (b :: l) z

namespace Seg

variable {next' : β → Option β}

theorem eq_of_nil {a z : Option β} (h : Seg next a [] z) : a = z := by
  cases h
  rfl

theorem of_cons {a z : Option β} {b : β} {l : List β} (h : Seg next a (b :: l) z) :
    a = some b ∧ Seg next (next b) l z := by
  cases h with
  | cons h' => exact ⟨rfl, h'⟩

/-- Nothing is met from `NULL`. -/
theorem of_none {l : List β} {z : Option β} (h : Seg next none l z) : l = [] ∧ z = none := by
  cases h
  exact ⟨rfl, rfl⟩

theorem append {a b c : Option β} {l₁ l₂ : List β} (h₁ : Seg next a l₁ b)
    (h₂ : Seg next b l₂ c) : Seg next a (l₁ ++ l₂) c := by
  induction h₁ with
  | nil => exact h₂
  | cons _ ih => exact .cons (ih h₂)

theorem split {a c : Option β} : ∀ {l₁ l₂ : List β}, Seg next a (l₁ ++ l₂) c →
    ∃ b, Seg next a l₁ b ∧ Seg next b l₂ c
  | [], _, h => ⟨a, .nil a, h⟩
  | x :: l₁, l₂, h => by
    obtain ⟨rfl, h'⟩ := of_cons h
    obtain ⟨b, h₁, h₂⟩ := split h'
    exact ⟨b, .cons h₁, h₂⟩

theorem snoc_iff {a z : Option β} {l : List β} {x : β} :
    Seg next a (l ++ [x]) z ↔ Seg next a l (some x) ∧ next x = z := by
  constructor
  · intro h
    obtain ⟨b, h₁, h₂⟩ := split h
    obtain ⟨rfl, h₃⟩ := of_cons h₂
    exact ⟨h₁, eq_of_nil h₃⟩
  · rintro ⟨h₁, rfl⟩
    exact h₁.append (.cons (.nil _))

/-- A segment reads `next` only at its nodes. -/
theorem congr {a z : Option β} {l : List β} (h : Seg next a l z)
    (hc : ∀ x ∈ l, next' x = next x) : Seg next' a l z := by
  induction h with
  | nil => exact .nil _
  | @cons b l z _ ih =>
    refine .cons ?_
    rw [hc b List.mem_cons_self]
    exact ih fun x hx => hc x (List.mem_cons_of_mem _ hx)

/-- A list that ends is determined by where it starts. -/
theorem eq_of_none : ∀ {a : Option β} {l l' : List β}, Seg next a l none →
    Seg next a l' none → l = l'
  | _, [], _, h, h' => by
    cases eq_of_nil h
    exact (of_none h').1.symm
  | _, x :: l, l', h, h' => by
    obtain ⟨rfl, h₁⟩ := of_cons h
    cases l' with
    | nil => cases eq_of_nil h'
    | cons y l' =>
      obtain ⟨hy, h₂⟩ := of_cons h'
      cases Option.some.inj hy
      rw [eq_of_none h₁ h₂]

/-- **A list that ends meets no node twice**: from a second visit to a node the walk would go
on as from the first, along the same list, which would then be shorter than itself. -/
theorem nodup : ∀ {a : Option β} {l : List β}, Seg next a l none → l.Nodup
  | _, [], _ => List.nodup_nil
  | _, x :: l, h => by
    obtain ⟨rfl, h'⟩ := of_cons h
    refine List.nodup_cons.2 ⟨fun hx => ?_, nodup h'⟩
    obtain ⟨l₁, l₂, rfl⟩ := List.append_of_mem hx
    obtain ⟨b, -, h₂⟩ := split h'
    obtain ⟨rfl, h₃⟩ := of_cons h₂
    have hlen := congrArg List.length (eq_of_none h (.cons h₃))
    simp only [List.length_cons, List.length_append] at hlen
    omega

/-- The loop `for (pp = &head; *pp; pp = &(*pp)->next);` over a list that ends within `n`
nodes stops at its last node, or stays at the head for an empty list. -/
theorem find_last : ∀ {n : ℕ} {a : Option β} {l : List β}, Seg next a l none → l.length ≤ n →
    find next (fun x => (next x).isNone) n a = .ok l.getLast?
  | n, _, [], h, _ => by
    cases eq_of_nil h
    exact find_none _ n
  | 0, _, _ :: _, _, hn => by simp at hn
  | n + 1, _, x :: l, h, hn => by
    obtain ⟨rfl, h'⟩ := of_cons h
    rw [find_succ_some]
    cases l with
    | nil => simp [eq_of_nil h']
    | cons y l =>
      -- the list goes on from `x`: the walk moves to `y`
      obtain ⟨hy, h''⟩ := of_cons h'
      rw [hy, if_neg (by simp), List.getLast?_cons_cons, ← hy]
      exact find_last h' (by simpa using hn)

/-- **Appending at the end of a list**: with the new node's `next` set to `NULL`, writing it into
the `next` of the last node gives the list with the node at the end. -/
theorem snoc_update [DecidableEq β] {a : Option β} {l : List β} {b c : β} (h : Seg next a l none)
    (hb : b ∉ l) (hc : l.getLast? = some c) :
    Seg (Function.update (Function.update next b none) c (some b)) a (l ++ [b]) none := by
  obtain ⟨l', rfl⟩ := List.getLast?_eq_some_iff.1 hc
  have hnd := nodup h
  have hcb : c ≠ b := fun he => hb (he ▸ List.mem_append_right _ List.mem_cons_self)
  obtain ⟨h₁, -⟩ := snoc_iff.1 h
  refine snoc_iff.2 ⟨snoc_iff.2 ⟨h₁.congr fun x hx => ?_, by simp⟩, by simp [hcb.symm]⟩
  -- the nodes before `c` are neither `c` nor `b`
  have hxc : x ≠ c := fun he => (List.nodup_append.1 hnd).2.2 x hx c List.mem_cons_self he
  have hxb : x ≠ b := fun he => hb (he ▸ List.mem_append_left _ hx)
  simp [hxc, hxb]

end Seg

end Chain

end Xv6Kernel
