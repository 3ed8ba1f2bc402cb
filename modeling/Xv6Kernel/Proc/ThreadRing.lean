import Xv6Kernel.Proc.Groups

/-!
# The walks along a group's thread list

Three loops of the LWP code walk the thread list of a group, from the main thread `m` along
`t_link`:

* `update_next_t(m)` goes round the list from the node after the current choice `next_t[pid]`
  (`NULL` taken back to `m`) until it is back at that choice or finds a thread that can run
  (`nextTSearch`);
* `thread_create` searches the list from the caller for a thread whose stack page is free
  (`stackSlot`);
* `rm_thread(p)` searches the list from `m` for the node before `p`.

None of them has a bound of its own: each ends only because the list does.  `GroupList` is the
shape the invariant of a group's list gives it.  On such a list:

* `walk_round` : from any node of the list, the walk along `t_link` (`NULL` taken back to `m`)
  meets every other node once and comes back to it;
* `updateNextT_spec` : the loop of `update_next_t` visits each node of the list at most once,
  and `next_t` becomes the first node after the old choice, in circular order and with the old
  choice last, that can run (`nextTChoice`), or `NULL` when none can (`nextTSearch_walk` is
  the loop along a walk);
* `find_within_count` : a search of the list from any of its nodes ends within `thread_count`
  nodes, as it does within the table.
-/

namespace Xv6Kernel

/-- The shape of the thread list of the group with main thread `m` that the walks along it rest
on, as the invariant of the group lists states it: the list from `m` along `t_link` ends within
the table and names each node once, `thread_count` is its length, it holds every running thread
of the group, and `next_t[m->pid]`, when set, is one of its nodes. -/
structure GroupList (k : Kernel) (m : Slot) : Prop where
  ends : Chain.ends k.tNext NPROC (some m) = true
  nodup : (groupList k m).Nodup
  count : ((groupList k m).length : ℤ) = (k.proc m).threadCount
  running : ∀ j, (k.proc j).lwpgroup = some m → (k.proc j).state = .running → j ∈ groupList k m
  nextT : ∀ g, pidSlot (k.proc m).pid = .ok g → ∀ t ∈ k.mlfqstr.nextT g, t ∈ groupList k m

instance (k : Kernel) (m : Slot) : Decidable (GroupList k m) :=
  decidable_of_iff (Chain.ends k.tNext NPROC (some m) = true ∧ (groupList k m).Nodup ∧
      ((groupList k m).length : ℤ) = (k.proc m).threadCount ∧
      (∀ j, (k.proc j).lwpgroup = some m → (k.proc j).state = .running → j ∈ groupList k m) ∧
      ∀ g, pidSlot (k.proc m).pid = .ok g → ∀ t ∈ k.mlfqstr.nextT g, t ∈ groupList k m)
    ⟨fun ⟨h₁, h₂, h₃, h₄, h₅⟩ => ⟨h₁, h₂, h₃, h₄, h₅⟩, fun h => ⟨h.1, h.2, h.3, h.4, h.5⟩⟩

/-- The choice `update_next_t(m)` is for: the first node of the list, in circular order after
the old choice `old` and with `old` last, that can run; `none` when no node can. -/
def nextTChoice (k : Kernel) (m old : Slot) : Option Slot :=
  (Chain.after (groupList k m) old).find? k.canRun

/-- No node is chosen exactly when no node of the list can run. -/
theorem nextTChoice_eq_none {k : Kernel} {m old : Slot} :
    nextTChoice k m old = none ↔ ∀ j ∈ groupList k m, k.canRun j = false := by
  simp [nextTChoice, Chain.after, List.mem_rotate]

/-! ### The loop of `update_next_t` -/

/-- The loop of `update_next_t` along a walk that ends at `old` and does not meet it before:
it stops at the first node that can run, and at `old` when none does, within the length of the
walk. -/
theorem nextTSearch_walk {k : Kernel} {m old : Slot} : ∀ {path : List Slot},
    Chain.WalksTo (fun t => ((k.proc t).tLink).getD m) path old → old ∉ path → ∀ extra : ℕ,
      nextTSearch k m old (path.length + extra) (path.headD old) =
        .ok ((path.find? k.canRun).getD old)
  | [], _, _, extra => by cases extra <;> simp [nextTSearch]
  | x :: path, hw, hx, extra => by
    obtain ⟨hstep, hw⟩ := hw
    simp only at hstep
    have hxo : x ≠ old := fun h => hx (h ▸ List.mem_cons_self)
    rw [List.length_cons, Nat.add_right_comm, List.headD_cons, nextTSearch, if_neg hxo]
    by_cases hc : k.canRun x = true
    · simp [hc]
    · -- `x` cannot run: the loop moves on to the next node of the walk
      rw [if_neg hc, List.find?_cons_of_neg hc, hstep]
      exact nextTSearch_walk hw (fun h => hx (List.mem_cons_of_mem x h)) extra

/-- The main thread heads its list. -/
theorem groupList_eq (k : Kernel) (m : Slot) :
    groupList k m = m :: Chain.nodes k.tNext (NPROC - 1) (k.tNext m) := rfl

/-- Going round the list from one of its nodes `old`: the walk from the node after it meets the
other nodes once each, in circular order (`Chain.after`), and comes back to `old`. -/
theorem walk_round {k : Kernel} {m old : Slot} (hl : GroupList k m) (hold : old ∈ groupList k m) :
    ∃ rest, Chain.after (groupList k m) old = rest ++ [old] ∧ old ∉ rest ∧
      rest.length + 1 = (groupList k m).length ∧
      Chain.WalksTo (fun t => ((k.proc t).tLink).getD m) rest old ∧
      ((k.proc old).tLink).getD m = rest.headD old := by
  -- the list is `pre`, then `old`, then `post`, and `old` is in neither part
  obtain ⟨pre, post, hsplit⟩ := List.append_of_mem hold
  have hout : old ∉ pre ++ post := by
    have hnd := hl.nodup
    rw [hsplit] at hnd
    exact (List.nodup_cons.1 (List.nodup_middle.1 hnd)).1
  have hpre : old ∉ pre := fun h => hout (List.mem_append_left post h)
  -- going round the list from `m`
  have hw : Chain.WalksTo (fun t => ((k.proc t).tLink).getD m) (groupList k m) m :=
    Chain.walksTo_nodes m hl.ends
  rw [hsplit] at hw
  obtain ⟨hwpre, hstart, hwpost⟩ := Chain.walksTo_append.1 hw
  simp only [List.headD_cons] at hwpre hstart
  have hhead : pre.headD old = m := by
    have h := groupList_eq k m
    rw [hsplit] at h
    cases pre with
    | nil => exact (List.cons.inj h).1
    | cons x pre => exact (List.cons.inj h).1
  -- so the walk from `old` goes through `post`, then `pre`, back to `old`
  refine ⟨post ++ pre, by rw [hsplit, Chain.after_eq hpre],
    fun h => hout (List.mem_append.2 (List.mem_append.1 h).symm), ?_,
    Chain.walksTo_append.2 ⟨hhead ▸ hwpost, hwpre⟩, ?_⟩
  · rw [hsplit]
    simp only [List.length_append, List.length_cons]
    omega
  · rw [hstart]
    cases post with
    | nil => exact hhead.symm
    | cons y post => rfl

/-- **What `update_next_t` does.**  On a list with the invariant's shape and a `pid` within
`next_t`, the loop visits each node at most once (it ends within `length - 1` moves), and
`next_t` becomes `nextTChoice`: the result is `0` when a node can run and `-1` when none can. -/
theorem updateNextT_spec {k : Kernel} {m g : Slot} (hl : GroupList k m)
    (hg : pidSlot (k.proc m).pid = .ok g) :
    (∃ t, nextTSearch k m ((k.mlfqstr.nextT g).getD m) ((groupList k m).length - 1)
        (((k.proc ((k.mlfqstr.nextT g).getD m)).tLink).getD m) = .ok t) ∧
    updateNextT k m = .ok (if (nextTChoice k m ((k.mlfqstr.nextT g).getD m)).isSome then 0 else -1,
      k.setNextT g (nextTChoice k m ((k.mlfqstr.nextT g).getD m))) := by
  obtain ⟨old, hold_def⟩ : ∃ old, (k.mlfqstr.nextT g).getD m = old := ⟨_, rfl⟩
  rw [hold_def]
  have hold : old ∈ groupList k m := by
    cases ht : k.mlfqstr.nextT g with
    | none =>
      rw [← hold_def, ht, Option.getD_none, groupList_eq]
      exact List.mem_cons_self
    | some t =>
      rw [← hold_def, ht, Option.getD_some]
      exact hl.nextT g hg t ht
  obtain ⟨rest, hafter, hout, hlen, hpath, hfirst⟩ := walk_round hl hold
  have hle : (groupList k m).length ≤ NPROC := Chain.length_nodes_le _ _
  -- the loop walks `rest` from its first node, with any bound from its length on
  have hsearch (extra : ℕ) := nextTSearch_walk hpath hout extra
  rw [← hfirst] at hsearch
  refine ⟨⟨_, by simpa [← hlen] using hsearch 0⟩, ?_⟩
  have hN := hsearch (NPROC - rest.length)
  rw [Nat.add_sub_cancel' (by omega)] at hN
  rw [nextTChoice, hafter, List.find?_append]
  simp only [updateNextT, hg, except_ok_bind, hold_def, hN]
  -- the node that can run, or `old` when no other can
  cases hf : rest.find? k.canRun with
  | some x =>
    have hx : k.canRun x = true := List.find?_some hf
    simp [hx]
  | none =>
    by_cases hc : k.canRun old = true
    · simp [hc]
    · simp [hc]

/-! ### The searches of `thread_create` and `rm_thread` -/

/-- A search of the list from one of its nodes ends within `thread_count` nodes, and ends the
same way within the table. -/
theorem find_within_count {k : Kernel} {m cur : Slot} (hl : GroupList k m)
    (hcur : cur ∈ groupList k m) (p : Slot → Bool) :
    ∃ r, Chain.find k.tNext p (k.proc m).threadCount.toNat (some cur) = .ok r ∧
      Chain.find k.tNext p NPROC (some cur) = .ok r := by
  have hlen : (k.proc m).threadCount.toNat = (groupList k m).length := by
    rw [← hl.count, Int.toNat_natCast]
  obtain ⟨r, hr⟩ := Chain.find_ok_of_ends p (Chain.ends_of_mem hl.ends hcur)
  rw [hlen]
  exact ⟨r, hr, Chain.find_mono hr (Chain.length_nodes_le _ _)⟩

/-- **The walks along a thread list end.**  On a group whose thread list has the invariant's
shape, `update_next_t(m)` ends within `length - 1` moves and sets `next_t[m->pid]` to the first
node after the old choice, in circular order with the old choice last, that is runnable and not
joining, or to `NULL` exactly when no node is; the stack search of `thread_create` from a
running thread of the group, and the search of `rm_thread(p)` from `m` for the node before `p`,
end within `thread_count` nodes. -/
theorem lwp_walks_terminate {k : Kernel} {m : Slot} (hl : GroupList k m) :
    (∀ g, pidSlot (k.proc m).pid = .ok g →
      (∃ t, nextTSearch k m ((k.mlfqstr.nextT g).getD m) ((groupList k m).length - 1)
          (((k.proc ((k.mlfqstr.nextT g).getD m)).tLink).getD m) = .ok t) ∧
      updateNextT k m =
        .ok (if (nextTChoice k m ((k.mlfqstr.nextT g).getD m)).isSome then 0 else -1,
          k.setNextT g (nextTChoice k m ((k.mlfqstr.nextT g).getD m))) ∧
      (nextTChoice k m ((k.mlfqstr.nextT g).getD m) = none ↔
        ∀ j ∈ groupList k m, k.canRun j = false)) ∧
    (∀ (pd : PageDir) (cur : Slot), (k.proc cur).lwpgroup = some m →
      (k.proc cur).state = .running →
      ∃ r, Chain.find k.tNext (fun j => pd.walkpgdir (k.proc j).ustack != some true)
          (k.proc m).threadCount.toNat (some cur) = .ok r ∧
        Chain.find k.tNext (fun j => pd.walkpgdir (k.proc j).ustack != some true) NPROC
          (some cur) = .ok r) ∧
    (∀ p : Slot, ∃ r, Chain.find k.tNext (fun j => decide ((k.proc j).tLink = some p))
          (k.proc m).threadCount.toNat (some m) = .ok r ∧
        Chain.find k.tNext (fun j => decide ((k.proc j).tLink = some p)) NPROC (some m) = .ok r) := by
  refine ⟨fun g hg => ?_, fun pd cur hg hr => ?_, fun p => ?_⟩
  · obtain ⟨hloop, hspec⟩ := updateNextT_spec hl hg
    exact ⟨hloop, hspec, nextTChoice_eq_none⟩
  · -- a running thread of the group is on its list
    exact find_within_count hl (hl.running cur hg hr) _
  · -- the search of `rm_thread` starts at the head
    exact find_within_count hl (by rw [groupList_eq]; exact List.mem_cons_self) _

/-- The shell creates two threads and yields to one of them. -/
def threadRing : List Event :=
  bootShell ++ [.syscall cpu0 .threadCreate, .syscall cpu0 .threadCreate, .syscall cpu0 .yield,
    .resume cpu0]

/-- After `threadRing` the shell's group is a list of three with the invariant's shape. -/
theorem lwp_walks_terminate_threadRing :
    ∃ k m, Reachable 1 k ∧ GroupList k m ∧ (groupList k m).length = 3 ∧
    (∀ g, pidSlot (k.proc m).pid = .ok g →
      (∃ t, nextTSearch k m ((k.mlfqstr.nextT g).getD m) ((groupList k m).length - 1)
          (((k.proc ((k.mlfqstr.nextT g).getD m)).tLink).getD m) = .ok t) ∧
      updateNextT k m =
        .ok (if (nextTChoice k m ((k.mlfqstr.nextT g).getD m)).isSome then 0 else -1,
          k.setNextT g (nextTChoice k m ((k.mlfqstr.nextT g).getD m))) ∧
      (nextTChoice k m ((k.mlfqstr.nextT g).getD m) = none ↔
        ∀ j ∈ groupList k m, k.canRun j = false)) ∧
    (∀ (pd : PageDir) (cur : Slot), (k.proc cur).lwpgroup = some m →
      (k.proc cur).state = .running →
      ∃ r, Chain.find k.tNext (fun j => pd.walkpgdir (k.proc j).ustack != some true)
          (k.proc m).threadCount.toNat (some cur) = .ok r ∧
        Chain.find k.tNext (fun j => pd.walkpgdir (k.proc j).ustack != some true) NPROC
          (some cur) = .ok r) ∧
    (∀ p : Slot, ∃ r, Chain.find k.tNext (fun j => decide ((k.proc j).tLink = some p))
          (k.proc m).threadCount.toNat (some m) = .ok r ∧
        Chain.find k.tNext (fun j => decide ((k.proc j).tLink = some p)) NPROC (some m) = .ok r) := by
  obtain ⟨k, m, hk, hq⟩ := Reachable.slot_of_run 1 threadRing
    (fun k m => decide (GroupList k m ∧ (groupList k m).length = 3)) (by decide +kernel)
  obtain ⟨hl, hlen⟩ := of_decide_eq_true hq
  exact ⟨k, m, hk, hl, hlen, lwp_walks_terminate hl⟩

end Xv6Kernel
