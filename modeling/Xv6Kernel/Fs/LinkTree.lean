import Mathlib.Algebra.Order.BigOperators.Group.Finset
import Xv6Kernel.Fs.Links

/-!
# The link counts are kept while no count overflows (`sysfile.c`)

`LinkCounts` rests on the shape of the directory tree (`Tree`): a directory starts with `.`
naming itself and `..` naming a directory, and has no other `.` or `..`; files and devices have
no entries; no entry names a free inode; the root is named by no entry, and every other
directory by one entry, in its parent.  The counts are sums over the inodes of how many of
their entries name an inode (`namesOf`, `parentsOf`), and each call moves them at one or two
inodes (`total_change`).

* `create_eq`, `sysLink_cases`, `sysUnlink_cases` : what each call does when it changes the
  tree, as a closed form (`created`, `linkedAs`, `unlinked`).
* `create_tree`, `link_tree`, `unlink_tree`, and `create_linkCounts`, `link_linkCounts`,
  `unlink_linkCounts` : each closed form keeps the shape of the tree, and the counts.
* `linkStep_keeps` : from a state whose counts can all take one more link (`Roomy`), every call
  keeps the shape of the tree and the link counts.
* `linkCounts_kept` : every state reached from the image `mkfs` makes, by calls each made from
  a roomy state, has the right link counts.  In particular `sys_link`'s failure path gives back
  its increment, and `sys_unlink` removes a directory only when it is empty, with the `..` whose
  link it takes from the parent.
-/

namespace Xv6Kernel

namespace Links

open Names

/-! ### Counts as sums of weights -/

/-- The entries of a directory other than `.` and `..` that name `i`. -/
def namesOf (i : ℕ) (x : INode) : ℕ :=
  x.entries.countP fun e => e.1 ≠ .dot ∧ e.1 ≠ .dotdot ∧ e.2 = i

/-- The `..` entries of a directory that name `i`. -/
def parentsOf (i : ℕ) (x : INode) : ℕ :=
  x.entries.countP fun e => e.1 = .dotdot ∧ e.2 = i

-- the weights read the entries only, not the link count a call moves
@[simp] theorem namesOf_nlink (i : ℕ) (x : INode) (n : Int16) :
    namesOf i { x with nlink := n } = namesOf i x := rfl

@[simp] theorem parentsOf_nlink (i : ℕ) (x : INode) (n : Int16) :
    parentsOf i { x with nlink := n } = parentsOf i x := rfl

/-- The weight `w` of the inode `d`, `0` for a free one. -/
def weight (w : INode → ℕ) (s : Names) (d : ℕ) : ℕ :=
  ((s.inode d).map w).getD 0

/-- The weights of the inodes in `D`. -/
def total (w : INode → ℕ) (s : Names) (D : Finset ℕ) : ℕ :=
  ∑ d ∈ D, weight w s d

theorem entryCount_eq (s : Names) (i : ℕ) :
    entryCount s i = total (namesOf i) s (Finset.range NINODES) := rfl

theorem subdirCount_eq (s : Names) (i : ℕ) :
    subdirCount s i = total (parentsOf i) s ((Finset.range NINODES).erase i) := rfl

section Weights

variable {w : INode → ℕ} {s t : Names} {D : Finset ℕ}

@[simp] theorem weight_of_none {d : ℕ} (h : s.inode d = none) : weight w s d = 0 := by
  simp [weight, h]

@[simp] theorem weight_of_some {d : ℕ} {x : INode} (h : s.inode d = some x) :
    weight w s d = w x := by
  simp [weight, h]

theorem weight_eq_of_inode {d : ℕ} (h : t.inode d = s.inode d) : weight w t d = weight w s d := by
  rw [weight, weight, h]

/-- **A change at one inode moves a total by the change of its weight**, when every other
inode of `D` keeps its weight. -/
theorem total_change (a : ℕ) (h : ∀ d ∈ D, d ≠ a → weight w t d = weight w s d) :
    total w t D + (if a ∈ D then weight w s a else 0) =
      total w s D + (if a ∈ D then weight w t a else 0) := by
  unfold total
  by_cases ha : a ∈ D
  · have hrest : ∑ d ∈ D.erase a, weight w t d = ∑ d ∈ D.erase a, weight w s d :=
      Finset.sum_congr rfl fun d hd => h d (Finset.mem_of_mem_erase hd) (Finset.ne_of_mem_erase hd)
    rw [if_pos ha, if_pos ha, ← Finset.add_sum_erase _ _ ha, ← Finset.add_sum_erase _ _ ha, hrest]
    omega
  · rw [if_neg ha, if_neg ha]
    exact congrArg (· + 0) (Finset.sum_congr rfl fun d hd => h d hd fun hda => ha (hda ▸ hd))

/-- A total keeps its value when every inode of `D` keeps its weight. -/
theorem total_congr (h : ∀ d ∈ D, weight w t d = weight w s d) : total w t D = total w s D :=
  Finset.sum_congr rfl h

theorem weight_le_total {d : ℕ} (hd : d ∈ D) : weight w s d ≤ total w s D :=
  Finset.single_le_sum (fun _ _ => Nat.zero_le _) hd

/-- Two inodes of `D` with weight make a total of at least two. -/
theorem two_le_total {d d' : ℕ} (hd : d ∈ D) (hd' : d' ∈ D) (hne : d ≠ d')
    (h : 0 < weight w s d) (h' : 0 < weight w s d') : 2 ≤ total w s D := by
  have := Finset.add_le_sum (f := weight w s) (fun _ _ => Nat.zero_le _) hd hd' hne
  unfold total
  omega

end Weights

/-! ### What the calls do to the weights -/

/-- Erasing the first element that `p` finds takes it out of every count. -/
theorem countP_eraseP_of_find? {α : Type*} {p q : α → Bool} {l : List α} {e : α}
    (h : l.find? p = some e) : (l.eraseP p).countP q + (if q e then 1 else 0) = l.countP q := by
  induction l with
  | nil => cases h
  | cons x xs ih =>
    by_cases hx : p x
    · -- the head is the element found
      rw [List.find?_cons_of_pos hx] at h
      cases h
      rw [List.eraseP_cons_of_pos hx, List.countP_cons]
    · rw [List.find?_cons_of_neg hx] at h
      rw [List.eraseP_cons_of_neg hx, List.countP_cons, List.countP_cons, ← ih h]
      omega

section Entries

variable (i : ℕ) {nm : DirName}

theorem namesOf_append {x x' : INode} (hnm : nm ≠ .dot ∧ nm ≠ .dotdot) {ip : ℕ}
    (hx' : x'.entries = x.entries ++ [(nm, ip)]) :
    namesOf i x' = namesOf i x + if i = ip then 1 else 0 := by
  by_cases h : i = ip
  · subst h
    simp [namesOf, hx', List.countP_append, hnm.1, hnm.2]
  · simp [namesOf, hx', List.countP_append, Ne.symm h, h]

theorem parentsOf_append {x x' : INode} (hnm : nm ≠ .dotdot) {ip : ℕ}
    (hx' : x'.entries = x.entries ++ [(nm, ip)]) : parentsOf i x' = parentsOf i x := by
  simp [parentsOf, hx', List.countP_append, hnm]

end Entries

/-! ### `short` arithmetic -/

theorem toInt_add_one {a : Int16} (h : a.toInt < 2 ^ 15 - 1) : (a + 1).toInt = a.toInt + 1 := by
  have hlo := Int16.le_toInt a
  rw [Int16.toInt_add, show (1 : Int16).toInt = 1 by decide]
  apply Int.bmod_eq_of_le <;> simp <;> omega

theorem toInt_add_neg_one {a : Int16} (h : 1 ≤ a.toInt) : (a + -1).toInt = a.toInt - 1 := by
  have hhi := Int16.toInt_lt a
  rw [Int16.toInt_add, show (-1 : Int16).toInt = -1 by decide]
  apply Int.bmod_eq_of_le <;> simp <;> omega

/-! ### What each call does -/

/-- `ialloc` returns a free inode, numbered from `1` below `NINODES`. -/
theorem ialloc_spec {s : Names} {ip : ℕ} (h : s.ialloc = some ip) :
    s.inode ip = none ∧ 0 < ip ∧ ip < NINODES := by
  have hfree := List.find?_some h
  have hmem := List.mem_of_find?_eq_some h
  rw [List.mem_range'_1] at hmem
  exact ⟨by simpa using hfree, by omega, by omega⟩

/-- `ialloc` returns a free inode, so none that is allocated. -/
theorem ne_of_ialloc {s : Names} {d ip : ℕ} {y : INode} (hy : s.inode d = some y)
    (halloc : s.ialloc = some ip) : d ≠ ip := by
  rintro rfl
  rw [(ialloc_spec halloc).1] at hy
  cases hy

/-- The tree once `create` has made the free inode `ip` as `nm` in the directory `dp`: the new
inode with its one link, and for a directory `.` and `..`; the parent's new entry, and for a
directory the parent's link for `..`. -/
def created (s : Names) (dp : ℕ) (nm : DirName) (type : IType) (ip : ℕ) : Names :=
  ⟨fun d =>
    if d = ip then some ⟨type, 1, if type = .dir then [(.dot, ip), (.dotdot, dp)] else []⟩
    else if d = dp then (s.inode dp).map fun y =>
      { y with nlink := if type = .dir then y.nlink + 1 else y.nlink,
               entries := y.entries ++ [(nm, ip)] }
    else s.inode d⟩

section Created

variable {s : Names} {dp ip : ℕ} {nm : DirName} {type : IType}

theorem created_self : (created s dp nm type ip).inode ip =
    some ⟨type, 1, if type = .dir then [(.dot, ip), (.dotdot, dp)] else []⟩ :=
  if_pos rfl

theorem created_dp (hne : dp ≠ ip) : (created s dp nm type ip).inode dp = (s.inode dp).map fun y =>
      { y with nlink := if type = .dir then y.nlink + 1 else y.nlink,
               entries := y.entries ++ [(nm, ip)] } := by
  simp [created, hne]

theorem created_other {d : ℕ} (h1 : d ≠ ip) (h2 : d ≠ dp) :
    (created s dp nm type ip).inode d = s.inode d := by
  simp [created, h1, h2]

end Created

theorem create_eq {s : Names} {dp ip : ℕ} {nm : DirName} {type : IType}
    (hdp : s.isType dp .dir) (hlook : s.dirlookup dp nm = none) (halloc : s.ialloc = some ip) :
    create s dp nm type = .ok (some ip, created s dp nm type ip) := by
  obtain ⟨hfree, -, -⟩ := ialloc_spec halloc
  have hne : dp ≠ ip := by
    rintro rfl
    simp [isType, hfree] at hdp
  unfold create
  rw [hlook]
  simp only [halloc]
  -- the new inode, before anything names it
  set s₁ : Names := ⟨Function.update s.inode ip (some ⟨type, 1, []⟩)⟩ with hs₁
  have hlook₁ : s₁.dirlookup dp nm = none := by
    rw [← hlook]
    simp [dirlookup, hs₁, Function.update_of_ne hne]
  by_cases htype : type = .dir
  · subst htype
    have hdot : (s₁.addNlink dp 1).dirlookup ip .dot = none := by
      rw [dirlookup_addNlink]
      simp [dirlookup, hs₁]
    have hdotdot : ((s₁.addNlink dp 1).modify ip fun y =>
        { y with entries := y.entries ++ [(.dot, ip)] }).dirlookup ip .dotdot = none := by
      rw [dirlookup_of_some (x := ⟨.dir, 1, [(.dot, ip)]⟩)]
      · rfl
      · simp [addNlink, hs₁, Ne.symm hne]
    have hname : (((s₁.addNlink dp 1).modify ip fun y =>
        { y with entries := y.entries ++ [(.dot, ip)] }).modify ip fun y =>
          { y with entries := y.entries ++ [(.dotdot, dp)] }).dirlookup dp nm = none := by
      rw [dirlookup_modify_of_ne _ _ hne, dirlookup_modify_of_ne _ _ hne, dirlookup_addNlink, hlook₁]
    simp only [if_true, dirlink, hdot, Option.bind_some, hdotdot, hname]
    congr 2
    ext1
    funext d
    by_cases hip : d = ip
    · subst hip
      simp [created, addNlink, hs₁, Ne.symm hne]
    by_cases hdp' : d = dp
    · subst hdp'
      simp [created, addNlink, hs₁, hne, Function.comp_def]
    · simp [created, addNlink, hs₁, hip, hdp']
  · have hname : s₁.dirlookup dp nm = none := hlook₁
    simp only [htype, if_false, dirlink, hname]
    congr 2
    ext1
    funext d
    by_cases hip : d = ip
    · subst hip
      simp [created, hs₁, Ne.symm hne, htype]
    by_cases hdp' : d = dp
    · subst hdp'
      simp [created, hs₁, hne, htype]
    · simp [created, hs₁, hip, hdp']

/-- The `bad:` path of `sys_link` gives back the link it took. -/
theorem addNlink_cancel (s : Names) (i : ℕ) : (s.addNlink i 1).addNlink i (-1) = s := by
  ext1
  funext d
  by_cases hd : d = i
  · subst hd
    cases hx : s.inode d with
    | none => simp [addNlink, hx]
    | some x =>
      have hback : x.nlink + 1 + -1 = x.nlink := by grind
      simp [addNlink, hx, hback]
  · simp [addNlink, hd]

/-- The tree once `sys_link` has named the file `ip` as `nm` in the directory `dp`. -/
def linkedAs (s : Names) (ip dp : ℕ) (nm : DirName) : Names :=
  (s.addNlink ip 1).modify dp fun y => { y with entries := y.entries ++ [(nm, ip)] }

section LinkedAs

variable {s : Names} {ip dp : ℕ} {nm : DirName}

theorem linkedAs_dp (hne : dp ≠ ip) : (linkedAs s ip dp nm).inode dp =
    (s.inode dp).map fun y => { y with entries := y.entries ++ [(nm, ip)] } := by
  simp [linkedAs, addNlink, hne]

theorem linkedAs_ip (hne : dp ≠ ip) :
    (linkedAs s ip dp nm).inode ip = (s.inode ip).map fun x => { x with nlink := x.nlink + 1 } := by
  simp [linkedAs, addNlink, Ne.symm hne]

theorem linkedAs_other {d : ℕ} (h1 : d ≠ dp) (h2 : d ≠ ip) :
    (linkedAs s ip dp nm).inode d = s.inode d := by
  simp [linkedAs, addNlink, h1, h2]

end LinkedAs

/-- **What `sys_link` does**: nothing, or one more link of a file and one more entry naming it
in a directory, under a new name. -/
theorem sysLink_cases (s : Names) (ip dp : ℕ) (nm : DirName) :
    sysLink s ip dp nm = s ∨
    ∃ x, s.inode ip = some x ∧ x.type ≠ .dir ∧ s.isType dp .dir ∧ s.dirlookup dp nm = none ∧
      sysLink s ip dp nm = linkedAs s ip dp nm := by
  cases hx : s.inode ip with
  | none => exact .inl (by simp [sysLink, hx])
  | some x =>
    by_cases hdir : x.type = .dir
    · exact .inl (by simp [sysLink, hx, hdir])
    by_cases hdp : s.isType dp .dir
    · cases hl : s.dirlookup dp nm with
      | none => exact .inr ⟨x, rfl, hdir, hdp, rfl, sysLink_ok hx hdir hdp hl⟩
      | some j =>
        -- the name is there: `dirlink` fails and the link is given back
        left
        simp [sysLink, hx, hdir, hdp, dirlink, hl, addNlink_cancel]
    · left
      simp [sysLink, hx, hdir, hdp, addNlink_cancel]

/-- The tree once `sys_unlink` has taken the entry `nm`, which names the inode `i` (`x`), out of
the directory `dp`: for a directory, `dp` loses the link of its `..`; `i` loses a link and is
freed when none is left. -/
def unlinked (s : Names) (dp : ℕ) (nm : DirName) (i : ℕ) (x : INode) : Names :=
  ⟨fun d =>
    if d = i then (if x.nlink + -1 = 0 then none else some { x with nlink := x.nlink + -1 })
    else if d = dp then (s.inode dp).map fun y =>
      { y with nlink := if x.type = .dir then y.nlink + -1 else y.nlink,
               entries := y.entries.eraseP (·.1 = nm) }
    else s.inode d⟩

section Unlinked

variable {s : Names} {dp i : ℕ} {nm : DirName} {x : INode}

-- stated with `if_pos`/`if_neg` in mind: a `simp` that sees `x.nlink + -1` next to a hypothesis
-- about it normalises `-1` and leaves the kernel a slow check
theorem unlinked_self : (unlinked s dp nm i x).inode i =
    if x.nlink + -1 = 0 then none else some { x with nlink := x.nlink + -1 } :=
  if_pos rfl

theorem unlinked_dp (hne : i ≠ dp) :
    (unlinked s dp nm i x).inode dp = (s.inode dp).map fun y =>
      { y with nlink := if x.type = .dir then y.nlink + -1 else y.nlink,
               entries := y.entries.eraseP (·.1 = nm) } := by
  simp [unlinked, Ne.symm hne]

theorem unlinked_other {d : ℕ} (h1 : d ≠ i) (h2 : d ≠ dp) :
    (unlinked s dp nm i x).inode d = s.inode d := by
  simp [unlinked, h1, h2]

/-- The inode taken out weighs nothing once freed, and what it weighed before otherwise. -/
theorem weight_unlinked_self {w : INode → ℕ} (hw : ∀ n, w { x with nlink := n } = w x) :
    weight w (unlinked s dp nm i x) i = if x.nlink + -1 = 0 then 0 else w x := by
  rw [weight, unlinked_self]
  by_cases hz : x.nlink + -1 = 0
  · rw [if_pos hz, if_pos hz]
    rfl
  · rw [if_neg hz, if_neg hz]
    exact hw _

end Unlinked

/-- `sys_unlink`'s writes, the entry, then `dp`'s and `i`'s counts, then `iput`, make
`unlinked`. -/
theorem unlink_writes {s : Names} {dp i : ℕ} {nm : DirName} {x : INode} (hx : s.inode i = some x)
    (hne : i ≠ dp) :
    let s₁ := s.modify dp fun y => { y with entries := y.entries.eraseP (·.1 = nm) }
    let s₂ := if x.type = .dir then s₁.addNlink dp (-1) else s₁
    let s₃ := s₂.addNlink i (-1)
    (if (s₃.inode i).any (·.nlink = 0) then ⟨Function.update s₃.inode i none⟩ else s₃) =
      unlinked s dp nm i x := by
  intro s₁ s₂ s₃
  have h₂i : s₂.inode i = some x := by
    by_cases hty : x.type = .dir <;> simp [s₂, s₁, addNlink, hty, hne, hx]
  have h₃i : s₃.inode i = some { x with nlink := x.nlink + -1 } := by
    simp only [s₃, addNlink, modify_self, h₂i, Option.map_some]
  have h₃dp : s₃.inode dp = (s.inode dp).map fun y =>
      { y with nlink := if x.type = .dir then y.nlink + -1 else y.nlink,
               entries := y.entries.eraseP (·.1 = nm) } := by
    rw [show s₃.inode dp = s₂.inode dp from modify_of_ne _ _ (Ne.symm hne)]
    by_cases hty : x.type = .dir
    · simp [s₂, s₁, addNlink, hty, Function.comp_def]
    · simp [s₂, s₁, hty]
  have h₃d : ∀ d, d ≠ i → d ≠ dp → s₃.inode d = s.inode d := by
    intro d h1 h2
    rw [show s₃.inode d = s₂.inode d from modify_of_ne _ _ h1]
    by_cases hty : x.type = .dir <;> simp [s₂, s₁, addNlink, hty, h2]
  rw [h₃i, Option.any_some]
  ext1
  funext d
  -- `iput` frees `i` at its last link and changes nothing else
  by_cases hdi : d = i
  · subst d
    rw [unlinked_self]
    by_cases hz : x.nlink + -1 = 0
    · rw [if_pos (decide_eq_true hz), if_pos hz]
      exact Function.update_self _ _ _
    · rw [if_neg (fun h => hz (of_decide_eq_true h)), if_neg hz, h₃i]
  have hs₃ : (if decide (x.nlink + -1 = 0) = true then (⟨Function.update s₃.inode i none⟩ : Names)
      else s₃).inode d = s₃.inode d := by
    split
    · exact Function.update_of_ne hdi _ _
    · rfl
  rw [hs₃]
  by_cases hdd : d = dp
  · rw [hdd, h₃dp, unlinked_dp hne]
  · rw [h₃d d hdi hdd, unlinked_other hdi hdd]

/-- **What `sys_unlink` does**: nothing, or it takes out an entry other than `.` and `..` whose
inode has a link and, for a directory, is empty. -/
theorem sysUnlink_cases {s s' : Names} {dp : ℕ} {nm : DirName} (h : sysUnlink s dp nm = .ok s') :
    s' = s ∨ ∃ i x, nm ≠ .dot ∧ nm ≠ .dotdot ∧ s.dirlookup dp nm = some i ∧ s.inode i = some x ∧
      ¬ x.nlink < 1 ∧ (x.type = .dir → isdirempty x) ∧ (i ≠ dp → s' = unlinked s dp nm i x) := by
  unfold sysUnlink at h
  split_ifs at h with hdot
  · exact .inl (Except.ok.inj h).symm
  cases hl : s.dirlookup dp nm with
  | none =>
    rw [hl] at h
    exact .inl (Except.ok.inj h).symm
  | some i =>
    rw [hl] at h
    dsimp only at h
    cases hx : s.inode i with
    | none =>
      rw [hx] at h
      cases h
    | some x =>
      rw [hx] at h
      dsimp only at h
      by_cases hlt : x.nlink < 1
      · rw [if_pos hlt] at h
        cases h
      rw [if_neg hlt] at h
      by_cases hfull : x.type = .dir ∧ !isdirempty x
      · -- a directory that is not empty stays
        rw [if_pos hfull] at h
        exact .inl (Except.ok.inj h).symm
      rw [if_neg hfull] at h
      right
      refine ⟨i, x, fun h => hdot (.inl h), fun h => hdot (.inr h), rfl, hx, hlt,
        fun hd => by simpa [hd] using hfull, fun hne => ?_⟩
      rw [← Except.ok.inj h]
      exact unlink_writes hx hne

/-! ### The shape of the tree -/

/-- A directory's entries: `.` naming the directory `i`, `..` naming `p`, then entries named
neither. -/
def DirEntries (i p : ℕ) (l : List (DirName × ℕ)) : Prop :=
  ∃ rest, l = (.dot, i) :: (.dotdot, p) :: rest ∧ ∀ e ∈ rest, e.1 ≠ .dot ∧ e.1 ≠ .dotdot

namespace DirEntries

variable {i p : ℕ} {l : List (DirName × ℕ)} {nm : DirName}

theorem unique {q : ℕ} (h : DirEntries i p l) (h' : DirEntries i q l) : p = q := by
  obtain ⟨rest, rfl, -⟩ := h
  obtain ⟨rest', heq, -⟩ := h'
  simp only [List.cons.injEq, Prod.mk.injEq, true_and] at heq
  exact heq.1

theorem append (h : DirEntries i p l) (hnm : nm ≠ .dot ∧ nm ≠ .dotdot) (k : ℕ) :
    DirEntries i p (l ++ [(nm, k)]) := by
  obtain ⟨rest, rfl, hrest⟩ := h
  refine ⟨rest ++ [(nm, k)], rfl, fun e he => ?_⟩
  rcases List.mem_append.1 he with he | he
  · exact hrest e he
  · rw [List.mem_singleton.1 he]
    exact hnm

theorem eraseP (h : DirEntries i p l) (hnm : nm ≠ .dot ∧ nm ≠ .dotdot) :
    DirEntries i p (l.eraseP (·.1 = nm)) := by
  obtain ⟨rest, rfl, hrest⟩ := h
  refine ⟨rest.eraseP (·.1 = nm), ?_, fun e he => hrest e (List.eraseP_sublist.subset he)⟩
  simp [Ne.symm hnm.1, Ne.symm hnm.2]

theorem ne_nil (h : DirEntries i p l) : l ≠ [] := by
  obtain ⟨rest, rfl, -⟩ := h
  exact List.cons_ne_nil _ _

/-- The `..` of a directory names its parent, and nothing else names anything as `..`. -/
theorem parentsOf_eq {x : INode} (h : DirEntries i p x.entries) (j : ℕ) :
    parentsOf j x = if j = p then 1 else 0 := by
  obtain ⟨rest, hx, hrest⟩ := h
  have hnone : rest.countP (fun e => e.1 = .dotdot ∧ e.2 = j) = 0 :=
    List.countP_eq_zero.2 fun e he hdd => (hrest e he).2 (of_decide_eq_true hdd).1
  rw [parentsOf, hx, List.countP_cons, List.countP_cons, hnone]
  by_cases hj : j = p
  · subst hj
    simp
  · simp [Ne.symm hj, hj]

/-- A directory with nothing past `.` and `..` names nothing. -/
theorem namesOf_of_empty {x : INode} (h : DirEntries i p x.entries) (he : isdirempty x)
    (j : ℕ) : namesOf j x = 0 := by
  obtain ⟨rest, hx, -⟩ := h
  have hrest : rest = [] := by simpa [isdirempty, hx] using he
  simp [namesOf, hx, hrest]

end DirEntries

theorem namesOf_of_flat {x : INode} (h : x.entries = []) (j : ℕ) : namesOf j x = 0 := by
  simp [namesOf, h]

theorem parentsOf_of_flat {x : INode} (h : x.entries = []) (j : ℕ) : parentsOf j x = 0 := by
  simp [parentsOf, h]

/-- **The shape of the tree** that the link counts rest on. -/
structure Tree (s : Names) : Prop where
  /-- `ialloc` numbers the inodes from `1` below `NINODES`. -/
  range : ∀ i x, s.inode i = some x → 0 < i ∧ i < NINODES
  /-- The root is a directory that is its own parent. -/
  root : ∃ r, s.inode ROOTINO = some r ∧ r.type = .dir ∧ DirEntries ROOTINO ROOTINO r.entries
  /-- No entry names the root. -/
  root_unnamed : entryCount s ROOTINO = 0
  /-- A directory has `.`, and `..` naming a directory. -/
  dir : ∀ i x, s.inode i = some x → x.type = .dir → ∃ p, s.isType p .dir ∧ DirEntries i p x.entries
  /-- Files and devices have no entries. -/
  flat : ∀ i x, s.inode i = some x → x.type ≠ .dir → x.entries = []
  /-- No entry names a free inode. -/
  free_unnamed : ∀ i, s.inode i = none → entryCount s i = 0
  /-- A directory other than the root is named once, in its parent, another directory. -/
  once : ∀ i x p, s.inode i = some x → i ≠ ROOTINO → DirEntries i p x.entries →
    p ≠ i ∧ entryCount s i = 1 ∧ weight (namesOf i) s p = 1

/-- Every count can take one more link without overflowing its `short`. -/
def Roomy (s : Names) : Prop :=
  ∀ i x, s.inode i = some x → x.nlink.toInt < 2 ^ 15 - 1

theorem isType_iff {s : Names} {i : ℕ} {t : IType} :
    s.isType i t ↔ ∃ x, s.inode i = some x ∧ x.type = t := by
  cases hx : s.inode i <;> simp [isType, hx]

/-- An inode that a call keeps is free before the call when it is free after it. -/
theorem inode_none_of_kept {s s' : Names} {d : ℕ}
    (hfwd : ∀ x₀, s.inode d = some x₀ → ∃ x', s'.inode d = some x') (h : s'.inode d = none) :
    s.inode d = none := by
  cases h₀ : s.inode d with
  | none => rfl
  | some x₀ =>
    obtain ⟨x', hx'⟩ := hfwd x₀ h₀
    rw [h] at hx'
    cases hx'

/-- An inode that stays, with its type, keeps every `isType` test. -/
theorem isType_eq_of_kept {s s' : Names} {d : ℕ} {t : IType}
    (hback : ∀ x', s'.inode d = some x' → ∃ x₀, s.inode d = some x₀ ∧ x'.type = x₀.type)
    (hfwd : ∀ x₀, s.inode d = some x₀ → ∃ x', s'.inode d = some x') :
    s'.isType d t = s.isType d t := by
  cases h' : s'.inode d with
  | some x' =>
    obtain ⟨x₀, h₀, htype⟩ := hback x' h'
    simp [isType, h', h₀, htype]
  | none => simp [isType, h', inode_none_of_kept hfwd h']

/-- The inode that a name other than `.` and `..` finds in a directory has an entry there. -/
theorem namesOf_pos_of_lookup {s : Names} {dp i : ℕ} {nm : DirName}
    (hnm : nm ≠ .dot ∧ nm ≠ .dotdot) (hl : s.dirlookup dp nm = some i) :
    ∃ y, s.inode dp = some y ∧ 0 < namesOf i y := by
  cases hy : s.inode dp with
  | none => simp [dirlookup, hy] at hl
  | some y =>
    rw [dirlookup_of_some hy] at hl
    obtain ⟨e, he, rfl⟩ := Option.map_eq_some_iff.1 hl
    have hname : e.1 = nm := by simpa using List.find?_some he
    refine ⟨y, rfl, List.countP_pos_iff.2 ⟨e, List.mem_of_find?_eq_some he, ?_⟩⟩
    simp [hname, hnm.1, hnm.2]

namespace Tree

variable {s : Names}

theorem mem_range {i : ℕ} {x : INode} (ht : Tree s) (hx : s.inode i = some x) :
    i ∈ Finset.range NINODES :=
  Finset.mem_range.2 (ht.range i x hx).2

/-- The root after a call that keeps it, with its type and any `.` and `..` it had. -/
theorem root_of_kept (ht : Tree s) {s' : Names}
    (hfwd : ∀ x₀, s.inode ROOTINO = some x₀ → ∃ x', s'.inode ROOTINO = some x')
    (hback : ∀ x', s'.inode ROOTINO = some x' → ∃ x₀, s.inode ROOTINO = some x₀ ∧
      x'.type = x₀.type ∧ ∀ q, DirEntries ROOTINO q x₀.entries → DirEntries ROOTINO q x'.entries) :
    ∃ r, s'.inode ROOTINO = some r ∧ r.type = .dir ∧ DirEntries ROOTINO ROOTINO r.entries := by
  obtain ⟨r, hr, hrt, hrd⟩ := ht.root
  obtain ⟨r', hr'⟩ := hfwd r hr
  obtain ⟨r₀, h₀, htyp, hedit⟩ := hback r' hr'
  rw [hr] at h₀
  cases h₀
  exact ⟨r', hr', htyp.trans hrt, hedit _ hrd⟩

/-- An inode that is no directory has no entries after a call that changes only the entries of
the directory `dp`. -/
theorem flat_of_kept (ht : Tree s) {dp d : ℕ} {y x₀ x' : INode} (hy : s.inode dp = some y)
    (hty : y.type = .dir) (h₀ : s.inode d = some x₀) (htyp : x'.type = x₀.type)
    (hent : d ≠ dp → x'.entries = x₀.entries) (hnd : x'.type ≠ .dir) : x'.entries = [] := by
  have hddp : d ≠ dp := by
    rintro rfl
    rw [hy] at h₀
    cases h₀
    exact hnd (htyp.trans hty)
  rw [hent hddp]
  exact ht.flat d x₀ h₀ (htyp ▸ hnd)

/-- So an inode with `.` and `..` after such a call is a directory. -/
theorem dir_of_kept (ht : Tree s) {dp d p : ℕ} {y x₀ x' : INode} (hy : s.inode dp = some y)
    (hty : y.type = .dir) (h₀ : s.inode d = some x₀) (htyp : x'.type = x₀.type)
    (hent : d ≠ dp → x'.entries = x₀.entries) (hde : DirEntries d p x'.entries) :
    x'.type = .dir := by
  by_contra hnd
  exact hde.ne_nil (ht.flat_of_kept hy hty h₀ htyp hent hnd)

/-- A directory that a call keeps, with any `.` and `..` it had, is named as `once` says in `s`
under the `..` it has after the call. -/
theorem once_of_kept (ht : Tree s) {d p : ℕ} {x₀ x' : INode} (h₀ : s.inode d = some x₀)
    (hdir : x₀.type = .dir) (hd : d ≠ ROOTINO)
    (hedit : ∀ q, DirEntries d q x₀.entries → DirEntries d q x'.entries)
    (hde : DirEntries d p x'.entries) :
    p ≠ d ∧ entryCount s d = 1 ∧ weight (namesOf d) s p = 1 := by
  obtain ⟨p₀, -, hde₀⟩ := ht.dir d x₀ h₀ hdir
  rw [hde.unique (hedit p₀ hde₀)]
  exact ht.once d x₀ p₀ h₀ hd hde₀

/-- A directory other than the root is named only in its parent. -/
theorem eq_parent (ht : Tree s) {j p d : ℕ} {x y : INode} (hx : s.inode j = some x)
    (hj : j ≠ ROOTINO) (hde : DirEntries j p x.entries) (hy : s.inode d = some y)
    (hpos : 0 < namesOf j y) : d = p := by
  obtain ⟨-, hone, hp⟩ := ht.once j x p hx hj hde
  obtain ⟨z, hz⟩ : ∃ z, s.inode p = some z := by
    cases hz : s.inode p with
    | none => simp [hz] at hp
    | some z => exact ⟨z, rfl⟩
  by_contra hne
  have h2 := two_le_total (w := namesOf j) (ht.mem_range hy) (ht.mem_range hz) hne
    (by rwa [weight_of_some hy]) (by omega)
  rw [← entryCount_eq] at h2
  omega

/-- What a lookup of a name other than `.` and `..` finds is not the root, and, for a directory,
not the directory it is found in. -/
theorem lookup_ne (ht : Tree s) {dp i : ℕ} {nm : DirName} (hnm : nm ≠ .dot ∧ nm ≠ .dotdot)
    (hl : s.dirlookup dp nm = some i) {x : INode} (hx : s.inode i = some x) :
    i ≠ ROOTINO ∧ i ≠ dp := by
  obtain ⟨y, hy, hpos⟩ := namesOf_pos_of_lookup hnm hl
  have hroot : i ≠ ROOTINO := by
    rintro rfl
    have := weight_le_total (w := namesOf ROOTINO) (s := s) (ht.mem_range hy)
    rw [weight_of_some hy, ← entryCount_eq, ht.root_unnamed] at this
    omega
  refine ⟨hroot, ?_⟩
  rintro rfl
  by_cases hdir : x.type = .dir
  · -- a directory named in itself would be its own parent
    obtain ⟨p, -, hde⟩ := ht.dir i x hx hdir
    have hp := ht.eq_parent hx hroot hde hy hpos
    exact (ht.once i x p hx hroot hde).1 hp.symm
  · rw [hx] at hy
    cases hy
    rw [namesOf_of_flat (ht.flat i x hx hdir)] at hpos
    exact absurd hpos (lt_irrefl 0)

/-- A directory that no other directory has as its `..` has no subdirectory. -/
theorem subdirCount_eq_zero (ht : Tree s) {c : ℕ}
    (h : ∀ d y p, s.inode d = some y → d ≠ c → DirEntries d p y.entries → p ≠ c) :
    subdirCount s c = 0 := by
  rw [subdirCount_eq, total, Finset.sum_eq_zero_iff]
  intro d hd
  cases hy : s.inode d with
  | none => exact weight_of_none hy
  | some y =>
    rw [weight_of_some hy]
    by_cases hdir : y.type = .dir
    · obtain ⟨p, -, hde⟩ := ht.dir d y hy hdir
      rw [hde.parentsOf_eq, if_neg (Ne.symm (h d y p hy (Finset.ne_of_mem_erase hd) hde))]
    · exact parentsOf_of_flat (ht.flat d y hy hdir) c

/-- A free inode has no subdirectory. -/
theorem subdirCount_free (ht : Tree s) {c : ℕ} (hc : s.inode c = none) : subdirCount s c = 0 := by
  refine ht.subdirCount_eq_zero fun d y p hy _ hde => ?_
  rintro rfl
  obtain ⟨p', hp', hde'⟩ := ht.dir d y hy (by
    by_contra hdir
    exact hde.ne_nil (ht.flat d y hy hdir))
  rw [hde.unique hde'] at hc
  obtain ⟨z, hz, -⟩ := isType_iff.1 hp'
  rw [hc] at hz
  cases hz

/-- An empty directory other than the root has no subdirectory. -/
theorem subdirCount_empty (ht : Tree s) {c : ℕ} {x : INode} (hx : s.inode c = some x)
    (hc : c ≠ ROOTINO) (he : isdirempty x) {q : ℕ} (hde : DirEntries c q x.entries) :
    subdirCount s c = 0 := by
  refine ht.subdirCount_eq_zero fun d y p hy hdc hdep => ?_
  intro hpc
  rw [hpc] at hdep
  -- a subdirectory is not the root, whose parent is itself, so `c` names it
  have hdroot : d ≠ ROOTINO := by
    rintro rfl
    obtain ⟨r, hr, -, hder⟩ := ht.root
    rw [hy] at hr
    cases hr
    exact hc (hdep.unique hder)
  obtain ⟨-, -, hp⟩ := ht.once d y c hy hdroot hdep
  rw [weight_of_some hx, hde.namesOf_of_empty he] at hp
  cases hp

end Tree

/-! ### Entries taken out -/

/-- Taking out the entry that a lookup of `nm` finds takes away one name of what it names. -/
theorem namesOf_eraseP {x x' : INode} {nm : DirName} {i : ℕ} (hnm : nm ≠ .dot ∧ nm ≠ .dotdot)
    (hf : (x.entries.find? (·.1 = nm)).map (·.2) = some i)
    (hx' : x'.entries = x.entries.eraseP (·.1 = nm)) (j : ℕ) :
    namesOf j x' + (if j = i then 1 else 0) = namesOf j x := by
  obtain ⟨e, he, rfl⟩ := Option.map_eq_some_iff.1 hf
  have hname : e.1 = nm := by simpa using List.find?_some he
  have h := countP_eraseP_of_find? (q := fun e => e.1 ≠ .dot ∧ e.1 ≠ .dotdot ∧ e.2 = j) he
  rw [namesOf, hx']
  by_cases hj : j = e.2
  · subst hj
    simpa [namesOf, hname, hnm.1, hnm.2] using h
  · simpa [namesOf, hj, Ne.symm hj] using h

theorem parentsOf_eraseP {x x' : INode} {nm : DirName} {i : ℕ} (hnm : nm ≠ .dotdot)
    (hf : (x.entries.find? (·.1 = nm)).map (·.2) = some i)
    (hx' : x'.entries = x.entries.eraseP (·.1 = nm)) (j : ℕ) : parentsOf j x' = parentsOf j x := by
  obtain ⟨e, he, rfl⟩ := Option.map_eq_some_iff.1 hf
  have hname : e.1 = nm := by simpa using List.find?_some he
  have h := countP_eraseP_of_find? (q := fun e => e.1 = .dotdot ∧ e.2 = j) he
  rw [parentsOf, hx']
  simpa [parentsOf, hname, hnm] using h

namespace Tree

variable {s : Names}

/-- A name that a directory does not hold is neither `.` nor `..`. -/
theorem not_dots (ht : Tree s) {dp : ℕ} {nm : DirName} (hdp : s.isType dp .dir)
    (hnew : s.dirlookup dp nm = none) : nm ≠ .dot ∧ nm ≠ .dotdot := by
  obtain ⟨y, hy, hty⟩ := isType_iff.1 hdp
  obtain ⟨p, -, rest, hent, -⟩ := ht.dir dp y hy hty
  rw [dirlookup_of_some hy, hent] at hnew
  constructor
  · rintro rfl
    simp at hnew
  · rintro rfl
    simp at hnew

end Tree

/-! ### One more link -/

section Link

variable {s : Names} {ip dp : ℕ} {nm : DirName} {x : INode}

/-- A file is not the directory it is linked in. -/
theorem ne_of_isType_dir (hdp : s.isType dp .dir) (hx : s.inode ip = some x)
    (hfile : x.type ≠ .dir) : dp ≠ ip := by
  rintro rfl
  obtain ⟨y, hy, hty⟩ := isType_iff.1 hdp
  rw [hx] at hy
  cases hy
  exact hfile hty

/-- The counts after `sys_link` named the file `ip` as `nm` in `dp`: one more name of `ip`. -/
theorem link_counts (ht : Tree s) (hx : s.inode ip = some x) (hfile : x.type ≠ .dir)
    (hdp : s.isType dp .dir) (hnew : s.dirlookup dp nm = none) (j : ℕ) :
    let s' := linkedAs s ip dp nm
    (∀ d, weight (namesOf j) s' d = weight (namesOf j) s d + if d = dp ∧ j = ip then 1 else 0) ∧
    entryCount s' j = entryCount s j + (if j = ip then 1 else 0) ∧
    subdirCount s' j = subdirCount s j := by
  intro s'
  obtain ⟨y, hy, -⟩ := isType_iff.1 hdp
  have hnm := ht.not_dots hdp hnew
  have hne := ne_of_isType_dir hdp hx hfile
  -- the weights move at `dp` only, by the new entry
  have hnames : ∀ d, weight (namesOf j) s' d =
      weight (namesOf j) s d + if d = dp ∧ j = ip then 1 else 0 := by
    intro d
    by_cases hd : d = dp
    · subst d
      have happ : namesOf j { y with entries := y.entries ++ [(nm, ip)] } =
          namesOf j y + if j = ip then 1 else 0 := namesOf_append j hnm rfl
      simp [weight, s', linkedAs_dp hne, hy, happ]
    · by_cases hdi : d = ip
      · subst d
        simp [weight, s', linkedAs_ip hne, hx, hd]
      · simp [weight, s', linkedAs_other hd hdi, hd]
  have hparents : ∀ d, weight (parentsOf j) s' d = weight (parentsOf j) s d := by
    intro d
    by_cases hd : d = dp
    · subst d
      have happ : parentsOf j { y with entries := y.entries ++ [(nm, ip)] } = parentsOf j y :=
        parentsOf_append j hnm.2 rfl
      simp [weight, s', linkedAs_dp hne, hy, happ]
    · by_cases hdi : d = ip
      · subst d
        simp [weight, s', linkedAs_ip hne, hx]
      · exact weight_eq_of_inode (linkedAs_other hd hdi)
  refine ⟨hnames, ?_, total_congr fun d _ => hparents d⟩
  have h := total_change (w := namesOf j) (s := s) (t := s') (D := Finset.range NINODES) dp
    fun d _ hd => by rw [hnames d, if_neg fun h => hd h.1, Nat.add_zero]
  rw [if_pos (ht.mem_range hy), if_pos (ht.mem_range hy), hnames dp] at h
  rw [entryCount_eq, entryCount_eq]
  by_cases hj : j = ip <;> simp [hj] at h ⊢ <;> omega

/-- **`sys_link` keeps the counts** from a roomy state: the file has one more link and one
more name. -/
theorem link_linkCounts (ht : Tree s) (hc : LinkCounts s) (hr : Roomy s)
    (hx : s.inode ip = some x) (hfile : x.type ≠ .dir) (hdp : s.isType dp .dir)
    (hnew : s.dirlookup dp nm = none) : LinkCounts (linkedAs s ip dp nm) := by
  obtain ⟨y, hy, hty⟩ := isType_iff.1 hdp
  have hne := ne_of_isType_dir hdp hx hfile
  have hcounts := link_counts ht hx hfile hdp hnew
  intro i x' hx'
  by_cases hiip : i = ip
  · subst i
    rw [linkedAs_ip hne, hx, Option.map_some, Option.some.injEq] at hx'
    subst hx'
    have h₀ := hc ip x hx
    rw [if_neg hfile] at h₀
    rw [if_neg hfile, toInt_add_one (hr ip x hx), h₀, (hcounts ip).2.1, if_pos rfl]
    push_cast
    rfl
  by_cases hidp : i = dp
  · subst i
    rw [linkedAs_dp hne, hy, Option.map_some, Option.some.injEq] at hx'
    subst hx'
    have h₀ := hc dp y hy
    rw [if_pos hty] at h₀
    rw [if_pos hty, h₀, (hcounts dp).2.2]
  · rw [linkedAs_other hidp hiip] at hx'
    have h₀ := hc i x' hx'
    rwa [(hcounts i).2.1, (hcounts i).2.2, if_neg hiip, Nat.add_zero]

/-- **`sys_link` keeps the tree** when it names a file once more. -/
theorem link_tree (ht : Tree s) (hx : s.inode ip = some x) (hfile : x.type ≠ .dir)
    (hdp : s.isType dp .dir) (hnew : s.dirlookup dp nm = none) : Tree (linkedAs s ip dp nm) := by
  set s' := linkedAs s ip dp nm with hs'
  obtain ⟨y, hy, hty⟩ := isType_iff.1 hdp
  have hnm := ht.not_dots hdp hnew
  have hne := ne_of_isType_dir hdp hx hfile
  have hcounts := link_counts ht hx hfile hdp hnew
  -- the inodes after the call
  have hs'dp : s'.inode dp = some { y with entries := y.entries ++ [(nm, ip)] } := by
    rw [hs', linkedAs_dp hne, hy]
    rfl
  have hs'ip : s'.inode ip = some { x with nlink := x.nlink + 1 } := by
    rw [hs', linkedAs_ip hne, hx]
    rfl
  have hs'other : ∀ d, d ≠ dp → d ≠ ip → s'.inode d = s.inode d := by
    intro d h1 h2
    rw [hs', linkedAs_other h1 h2]
  -- every inode stays, with its type, and its entries but for `dp`'s new one past `.` and `..`
  have hfwd : ∀ d x₀, s.inode d = some x₀ → ∃ x', s'.inode d = some x' := by
    intro d x₀ h₀
    by_cases h1 : d = dp
    · exact ⟨_, h1 ▸ hs'dp⟩
    by_cases h2 : d = ip
    · exact ⟨_, h2 ▸ hs'ip⟩
    · exact ⟨x₀, by rw [hs'other d h1 h2, h₀]⟩
  have hback : ∀ d x', s'.inode d = some x' →
      ∃ x₀, s.inode d = some x₀ ∧ x'.type = x₀.type ∧ (d ≠ dp → x'.entries = x₀.entries) ∧
        ∀ q, DirEntries d q x₀.entries → DirEntries d q x'.entries := by
    intro d x' hd
    by_cases h1 : d = dp
    · subst h1
      rw [hs'dp] at hd
      cases hd
      exact ⟨y, hy, rfl, fun h => absurd rfl h, fun q hq => hq.append hnm ip⟩
    by_cases h2 : d = ip
    · subst h2
      rw [hs'ip] at hd
      cases hd
      exact ⟨x, hx, rfl, fun _ => rfl, fun _ hq => hq⟩
    · rw [hs'other d h1 h2] at hd
      exact ⟨x', hd, rfl, fun _ => rfl, fun _ hq => hq⟩
  have hisType : ∀ d t, s'.isType d t = s.isType d t := fun d _ =>
    isType_eq_of_kept (fun x' hd => (hback d x' hd).imp fun _ h => ⟨h.1, h.2.1⟩) (hfwd d)
  have hroot : ROOTINO ≠ ip := by
    obtain ⟨r, hr, hrt, -⟩ := ht.root
    rintro h
    rw [h, hx] at hr
    cases hr
    exact hfile hrt
  refine ⟨fun i x' hx' => ?_, ?_, ?_, fun i x' hx' hdir => ?_, fun i x' hx' hnd => ?_,
    fun i hi => ?_, fun i x' p hx' hi hde => ?_⟩
  · -- no inode is allocated
    obtain ⟨x₀, h₀, -⟩ := hback i x' hx'
    exact ht.range i x₀ h₀
  · -- the root keeps its `.` and `..`
    exact ht.root_of_kept (hfwd _) fun x' hx' =>
      (hback _ x' hx').imp fun _ h => ⟨h.1, h.2.1, h.2.2.2⟩
  · rw [(hcounts ROOTINO).2.1, ht.root_unnamed, if_neg hroot]
  · -- a directory keeps its `.` and `..`, and `dp` gets an entry past them
    obtain ⟨x₀, h₀, htyp, -, hedit⟩ := hback i x' hx'
    obtain ⟨p, hp, hde⟩ := ht.dir i x₀ h₀ (htyp ▸ hdir)
    exact ⟨p, by rw [hisType]; exact hp, hedit p hde⟩
  · obtain ⟨x₀, h₀, htyp, hent, -⟩ := hback i x' hx'
    exact ht.flat_of_kept hy hty h₀ htyp hent hnd
  · -- a free inode stays free and unnamed
    have hi₀ := inode_none_of_kept (hfwd i) hi
    have hiip : i ≠ ip := by
      rintro rfl
      rw [hx] at hi₀
      cases hi₀
    rw [(hcounts i).2.1, ht.free_unnamed i hi₀, if_neg hiip]
  · -- a directory is still named once, in its parent
    obtain ⟨x₀, h₀, htyp, hent, hedit⟩ := hback i x' hx'
    have hdir₀ : x₀.type = .dir := htyp.symm.trans (ht.dir_of_kept hy hty h₀ htyp hent hde)
    have hiip : i ≠ ip := by
      rintro rfl
      rw [hx] at h₀
      cases h₀
      exact hfile hdir₀
    obtain ⟨hpi, hone, hw⟩ := ht.once_of_kept h₀ hdir₀ hi hedit hde
    refine ⟨hpi, by rw [(hcounts i).2.1, hone, if_neg hiip], ?_⟩
    rw [(hcounts i).1 p, hw, if_neg fun h => hiip h.2]

end Link

/-! ### A new inode -/

section Create

variable {s : Names} {dp ip : ℕ} {nm : DirName} {type : IType}

/-- What the new inode's entries name: `..` names the parent, and nothing else is named. -/
theorem namesOf_new (j : ℕ) (ip dp : ℕ) (type : IType) :
    namesOf j ⟨type, 1, if type = .dir then [(.dot, ip), (.dotdot, dp)] else []⟩ = 0 := by
  split_ifs <;> simp [namesOf]

theorem parentsOf_new (j : ℕ) (ip dp : ℕ) (type : IType) :
    parentsOf j ⟨type, 1, if type = .dir then [(.dot, ip), (.dotdot, dp)] else []⟩ =
      if type = .dir ∧ j = dp then 1 else 0 := by
  by_cases htype : type = .dir
  · by_cases hj : j = dp
    · subst hj
      simp [parentsOf, htype]
    · simp [parentsOf, htype, hj, Ne.symm hj]
  · simp [parentsOf, htype]

variable (type) in
/-- The counts after `create` made `ip` as `nm` in `dp`: one name of `ip`, and for a directory one
more subdirectory of `dp`. -/
theorem create_counts (ht : Tree s) (hdp : s.isType dp .dir) (hlook : s.dirlookup dp nm = none)
    (halloc : s.ialloc = some ip) (j : ℕ) :
    let s' := created s dp nm type ip
    (∀ d, weight (namesOf j) s' d = weight (namesOf j) s d + if d = dp ∧ j = ip then 1 else 0) ∧
    entryCount s' j = entryCount s j + (if j = ip then 1 else 0) ∧
    subdirCount s' j = subdirCount s j + (if type = .dir ∧ j = dp then 1 else 0) := by
  intro s'
  obtain ⟨y, hy, -⟩ := isType_iff.1 hdp
  obtain ⟨hfree, -, hipN⟩ := ialloc_spec halloc
  have hnm := ht.not_dots hdp hlook
  have hne := ne_of_ialloc hy halloc
  have hnames : ∀ d, weight (namesOf j) s' d =
      weight (namesOf j) s d + if d = dp ∧ j = ip then 1 else 0 := by
    intro d
    by_cases hd : d = dp
    · subst hd
      have happ : namesOf j
          { y with nlink := if type = .dir then y.nlink + 1 else y.nlink,
                   entries := y.entries ++ [(nm, ip)] } = namesOf j y + if j = ip then 1 else 0 :=
        namesOf_append j hnm rfl
      simp [s', created, weight, hy, hne, happ]
    · by_cases hdi : d = ip
      · subst hdi
        simp [s', created, weight, hfree, namesOf_new, Ne.symm hne]
      · simp [s', created, weight, hd, hdi]
  -- `..` of a new directory is the one new name as `..`
  have hparents : ∀ d, d ≠ ip → weight (parentsOf j) s' d = weight (parentsOf j) s d := by
    intro d hdi
    by_cases hd : d = dp
    · subst hd
      have happ : parentsOf j
          { y with nlink := if type = .dir then y.nlink + 1 else y.nlink,
                   entries := y.entries ++ [(nm, ip)] } = parentsOf j y :=
        parentsOf_append j hnm.2 rfl
      simp [s', created, weight, hy, hne, happ]
    · simp [s', created, weight, hd, hdi]
  have hparent_ip : weight (parentsOf j) s' ip = if type = .dir ∧ j = dp then 1 else 0 := by
    simp [s', created, weight, parentsOf_new]
  refine ⟨hnames, ?_, ?_⟩
  · have h := total_change (w := namesOf j) (s := s) (t := s') (D := Finset.range NINODES) dp
      fun d _ hd => by rw [hnames d, if_neg fun h => hd h.1, Nat.add_zero]
    rw [if_pos (ht.mem_range hy), if_pos (ht.mem_range hy), hnames dp] at h
    rw [entryCount_eq, entryCount_eq]
    by_cases hj : j = ip <;> simp [hj] at h ⊢ <;> omega
  · have h := total_change (w := parentsOf j) (s := s) (t := s')
      (D := (Finset.range NINODES).erase j) ip fun d _ hd => hparents d hd
    rw [subdirCount_eq, subdirCount_eq]
    by_cases hj : j = ip
    · -- the new inode is not counted among its own subdirectories
      subst hj
      rw [if_neg (Finset.notMem_erase j _), if_neg (Finset.notMem_erase j _)] at h
      rw [if_neg fun h => hne h.2.symm]
      omega
    · have hmem : ip ∈ (Finset.range NINODES).erase j :=
        Finset.mem_erase.2 ⟨Ne.symm hj, Finset.mem_range.2 hipN⟩
      rw [if_pos hmem, if_pos hmem, weight_of_none hfree, hparent_ip] at h
      omega

/-- **`create` keeps the counts** from a roomy state: the new inode has its one link, and the
parent one more for a new directory's `..`. -/
theorem create_linkCounts (ht : Tree s) (hc : LinkCounts s) (hroomy : Roomy s)
    (hdp : s.isType dp .dir) (hlook : s.dirlookup dp nm = none) (halloc : s.ialloc = some ip) :
    LinkCounts (created s dp nm type ip) := by
  obtain ⟨y, hy, hty⟩ := isType_iff.1 hdp
  have hfree := (ialloc_spec halloc).1
  have hne := ne_of_ialloc hy halloc
  have hcounts := create_counts type ht hdp hlook halloc
  intro i x' hx'
  by_cases hiip : i = ip
  · -- the new inode has its one link
    subst i
    rw [created_self, Option.some.injEq] at hx'
    subst hx'
    by_cases htype : type = .dir
    · have hsub : subdirCount (created s dp nm type ip) ip = 0 := by
        rw [(hcounts ip).2.2, ht.subdirCount_free hfree, if_neg fun h => hne h.2.symm]
      rw [hsub]
      simp only [htype, if_true]
      decide
    · have hent : entryCount (created s dp nm type ip) ip = 1 := by
        rw [(hcounts ip).2.1, ht.free_unnamed ip hfree, if_pos rfl]
      rw [hent]
      simp only [htype, if_false]
      decide
  by_cases hidp : i = dp
  · -- the parent has one more link for a new directory's `..`
    subst i
    rw [created_dp hne, hy, Option.map_some, Option.some.injEq] at hx'
    subst hx'
    have h₀ := hc dp y hy
    rw [if_pos hty] at h₀
    simp only [hty, if_true]
    rw [(hcounts dp).2.2]
    by_cases htype : type = .dir
    · rw [if_pos htype, if_pos ⟨htype, rfl⟩, toInt_add_one (hroomy dp y hy), h₀]
      push_cast
      omega
    · rw [if_neg htype, if_neg fun h => htype h.1, h₀, Nat.add_zero]
  · rw [created_other hiip hidp] at hx'
    have hent : entryCount (created s dp nm type ip) i = entryCount s i := by
      rw [(hcounts i).2.1, if_neg hiip, Nat.add_zero]
    have hsub : subdirCount (created s dp nm type ip) i = subdirCount s i := by
      rw [(hcounts i).2.2, if_neg fun h => hidp h.2, Nat.add_zero]
    rw [hent, hsub]
    exact hc i x' hx'

/-- **`create` keeps the tree**: a new file is named once, and a new directory also has `.` and
`..` naming itself and its parent. -/
theorem create_tree (ht : Tree s) (hdp : s.isType dp .dir) (hlook : s.dirlookup dp nm = none)
    (halloc : s.ialloc = some ip) : Tree (created s dp nm type ip) := by
  set s' := created s dp nm type ip with hs'
  obtain ⟨y, hy, hty⟩ := isType_iff.1 hdp
  obtain ⟨hfree, hip0, hipN⟩ := ialloc_spec halloc
  have hnm := ht.not_dots hdp hlook
  have hne := ne_of_ialloc hy halloc
  have hcounts := create_counts type ht hdp hlook halloc
  -- the inodes after the call
  have hs'ip : s'.inode ip =
      some ⟨type, 1, if type = .dir then [(.dot, ip), (.dotdot, dp)] else []⟩ := by
    rw [hs', created_self]
  have hs'dp : s'.inode dp = some { y with nlink := if type = .dir then y.nlink + 1 else y.nlink,
                                           entries := y.entries ++ [(nm, ip)] } := by
    rw [hs', created_dp hne, hy]
    rfl
  have hs'other : ∀ d, d ≠ ip → d ≠ dp → s'.inode d = s.inode d := by
    intro d h1 h2
    rw [hs', created_other h1 h2]
  have hback : ∀ d x', d ≠ ip → s'.inode d = some x' →
      ∃ x₀, s.inode d = some x₀ ∧ x'.type = x₀.type ∧ (d ≠ dp → x'.entries = x₀.entries) ∧
        ∀ q, DirEntries d q x₀.entries → DirEntries d q x'.entries := by
    intro d x' hdi hd
    by_cases h1 : d = dp
    · subst h1
      rw [hs'dp] at hd
      cases hd
      exact ⟨y, hy, rfl, fun h => absurd rfl h, fun q hq => hq.append hnm ip⟩
    · rw [hs'other d hdi h1] at hd
      exact ⟨x', hd, rfl, fun _ => rfl, fun _ hq => hq⟩
  -- an inode of `s` is not the new one
  have hold : ∀ d x₀, s.inode d = some x₀ → d ≠ ip := fun _ _ h₀ => ne_of_ialloc h₀ halloc
  -- every old inode stays
  have hfwd : ∀ d x₀, s.inode d = some x₀ → ∃ x', s'.inode d = some x' := by
    intro d x₀ h₀
    by_cases h1 : d = dp
    · exact ⟨_, h1 ▸ hs'dp⟩
    · exact ⟨x₀, by rw [hs'other d (hold d x₀ h₀) h1, h₀]⟩
  have hisType : ∀ d t, d ≠ ip → s'.isType d t = s.isType d t := fun d _ hdi =>
    isType_eq_of_kept (fun x' hd => (hback d x' hdi hd).imp fun _ h => ⟨h.1, h.2.1⟩) (hfwd d)
  obtain ⟨r, hr, -⟩ := ht.root
  have hroot : ROOTINO ≠ ip := hold _ _ hr
  refine ⟨fun i x' hx' => ?_, ?_, ?_, fun i x' hx' hdir => ?_, fun i x' hx' hnd => ?_,
    fun i hi => ?_, fun i x' p hx' hi hde => ?_⟩
  · -- the new inode is numbered as `ialloc` numbers
    by_cases hiip : i = ip
    · subst hiip
      exact ⟨hip0, hipN⟩
    · obtain ⟨x₀, h₀, -⟩ := hback i x' hiip hx'
      exact ht.range i x₀ h₀
  · exact ht.root_of_kept (hfwd _) fun x' hx' =>
      (hback _ x' hroot hx').imp fun _ h => ⟨h.1, h.2.1, h.2.2.2⟩
  · rw [(hcounts ROOTINO).2.1, ht.root_unnamed, if_neg hroot]
  · by_cases hiip : i = ip
    · -- a new directory: `.` and `..` naming `dp`
      subst hiip
      rw [hs'ip] at hx'
      cases hx'
      refine ⟨dp, by rw [hisType _ _ hne]; exact hdp, [], ?_, by simp⟩
      simp only at hdir
      simp [hdir]
    obtain ⟨x₀, h₀, htyp, -, hedit⟩ := hback i x' hiip hx'
    obtain ⟨p, hp, hde⟩ := ht.dir i x₀ h₀ (htyp ▸ hdir)
    obtain ⟨z, hz, -⟩ := isType_iff.1 hp
    exact ⟨p, by rw [hisType _ _ (hold p z hz)]; exact hp, hedit p hde⟩
  · by_cases hiip : i = ip
    · subst hiip
      rw [hs'ip] at hx'
      cases hx'
      simp only at hnd
      simp [hnd]
    obtain ⟨x₀, h₀, htyp, hent, -⟩ := hback i x' hiip hx'
    exact ht.flat_of_kept hy hty h₀ htyp hent hnd
  · -- a free inode stays free and unnamed
    have hiip : i ≠ ip := by
      rintro rfl
      rw [hs'ip] at hi
      cases hi
    rw [(hcounts i).2.1, ht.free_unnamed i (inode_none_of_kept (hfwd i) hi), if_neg hiip]
  · by_cases hiip : i = ip
    · -- the new directory is named once, in `dp`
      subst hiip
      rw [hs'ip] at hx'
      cases hx'
      have hp : p = dp := hde.unique (by
        refine ⟨[], ?_, by simp⟩
        by_cases htype : type = .dir
        · simp [htype]
        · simp [htype] at hde
          exact absurd rfl hde.ne_nil)
      subst hp
      have hzero := ht.free_unnamed i hfree
      have hw : weight (namesOf i) s p = 0 := by
        have := weight_le_total (w := namesOf i) (s := s) (ht.mem_range hy)
        rw [← entryCount_eq, hzero] at this
        omega
      refine ⟨hne, by rw [(hcounts i).2.1, hzero, if_pos rfl], ?_⟩
      rw [(hcounts i).1 p, hw, if_pos ⟨rfl, rfl⟩]
    obtain ⟨x₀, h₀, htyp, hent, hedit⟩ := hback i x' hiip hx'
    have hdir₀ : x₀.type = .dir := htyp.symm.trans (ht.dir_of_kept hy hty h₀ htyp hent hde)
    obtain ⟨hpi, hone, hw⟩ := ht.once_of_kept h₀ hdir₀ hi hedit hde
    refine ⟨hpi, by rw [(hcounts i).2.1, hone, if_neg hiip], ?_⟩
    rw [(hcounts i).1 p, hw, if_neg fun h => hiip h.2]

end Create

/-! ### An entry taken out -/

/-- The count that `sys_unlink` takes one from runs out exactly at its last link. -/
theorem add_neg_one_eq_zero_iff {a : Int16} (h : 1 ≤ a.toInt) : a + -1 = 0 ↔ a.toInt = 1 := by
  rw [← Int16.toInt_inj, toInt_add_neg_one h, show (0 : Int16).toInt = 0 by decide]
  omega

theorem one_le_toInt {a : Int16} (h : ¬ a < 1) : 1 ≤ a.toInt := by
  rw [Int16.lt_iff_toInt_lt, show (1 : Int16).toInt = 1 by decide] at h
  omega

namespace Tree

variable {s : Names}

/-- A directory with no subdirectory is no directory's `..`. -/
theorem parent_ne (ht : Tree s) {c d p : ℕ} {y : INode} (hsub : subdirCount s c = 0)
    (hy : s.inode d = some y) (hdc : d ≠ c) (hde : DirEntries d p y.entries) : p ≠ c := by
  rintro rfl
  have hle := weight_le_total (w := parentsOf p) (s := s)
    (Finset.mem_erase.2 ⟨hdc, ht.mem_range hy⟩)
  rw [weight_of_some hy, hde.parentsOf_eq, if_pos rfl, ← subdirCount_eq, hsub] at hle
  omega

end Tree

section Unlink

variable {s : Names} {dp i : ℕ} {nm : DirName} {x : INode}

/-- What `sys_unlink` may take out names nothing: a file has no entries, and the directory it
takes out is empty. -/
theorem namesOf_target (ht : Tree s) (hx : s.inode i = some x)
    (hempty : x.type = .dir → isdirempty x) (j : ℕ) : namesOf j x = 0 := by
  by_cases hdir : x.type = .dir
  · obtain ⟨p, -, hde⟩ := ht.dir i x hx hdir
    exact hde.namesOf_of_empty (hempty hdir) j
  · exact namesOf_of_flat (ht.flat i x hx hdir) j

/-- A directory that `sys_unlink` takes out is a child of `dp` with its one link: it is freed. -/
theorem unlink_dir_freed (ht : Tree s) (hc : LinkCounts s) (hnm : nm ≠ .dot ∧ nm ≠ .dotdot)
    (hl : s.dirlookup dp nm = some i) (hx : s.inode i = some x) (hdir : x.type = .dir)
    (hempty : isdirempty x) : x.nlink + -1 = 0 ∧ DirEntries i dp x.entries := by
  obtain ⟨hroot, -⟩ := ht.lookup_ne hnm hl hx
  obtain ⟨p, -, hde⟩ := ht.dir i x hx hdir
  obtain ⟨y, hy, hpos⟩ := namesOf_pos_of_lookup hnm hl
  have hp : dp = p := ht.eq_parent hx hroot hde hy hpos
  have hcount := hc i x hx
  rw [if_pos hdir, ht.subdirCount_empty hx hroot hempty hde] at hcount
  exact ⟨(add_neg_one_eq_zero_iff (by omega)).2 (by omega), hp ▸ hde⟩

/-- The counts after `sys_unlink` took the entry `nm` of `dp` out: one name of `i` fewer, and,
for a directory, one subdirectory of `dp` fewer. -/
theorem unlink_counts (ht : Tree s) (hc : LinkCounts s) (hnm : nm ≠ .dot ∧ nm ≠ .dotdot)
    (hl : s.dirlookup dp nm = some i) (hx : s.inode i = some x) (hne : i ≠ dp)
    (hempty : x.type = .dir → isdirempty x) (j : ℕ) :
    let s' := unlinked s dp nm i x
    (∀ d, weight (namesOf j) s' d + (if d = dp ∧ j = i then 1 else 0) =
      weight (namesOf j) s d) ∧
    entryCount s' j + (if j = i then 1 else 0) = entryCount s j ∧
    subdirCount s' j + (if x.type = .dir ∧ j = dp then 1 else 0) = subdirCount s j := by
  intro s'
  obtain ⟨y, hy, -⟩ := namesOf_pos_of_lookup hnm hl
  have hf : (y.entries.find? (·.1 = nm)).map (·.2) = some i := by
    rwa [dirlookup_of_some hy] at hl
  have hs'dp : s'.inode dp = some { y with nlink := if x.type = .dir then y.nlink + -1 else y.nlink,
                                           entries := y.entries.eraseP (·.1 = nm) } := by
    rw [unlinked_dp hne, hy]
    rfl
  -- the weights move at `dp`, by the entry, and at `i`, whose `..` goes when it is freed
  have hnames : ∀ d, weight (namesOf j) s' d + (if d = dp ∧ j = i then 1 else 0) =
      weight (namesOf j) s d := by
    intro d
    by_cases hd : d = dp
    · subst hd
      rw [weight_of_some hs'dp, weight_of_some hy]
      simp only [true_and]
      exact namesOf_eraseP hnm hf rfl j
    by_cases hdi : d = i
    · subst d
      rw [weight_unlinked_self (namesOf_nlink j x), weight_of_some hx, namesOf_target ht hx hempty j,
        ite_self, if_neg fun h => hd h.1]
    · rw [weight_eq_of_inode (unlinked_other hdi hd), if_neg fun h => hd h.1, Nat.add_zero]
  have hparents : ∀ d, weight (parentsOf j) s' d + (if d = i ∧ x.type = .dir ∧ j = dp then 1 else 0) =
      weight (parentsOf j) s d := by
    intro d
    by_cases hd : d = dp
    · subst hd
      rw [weight_of_some hs'dp, weight_of_some hy, parentsOf_eraseP hnm.2 hf rfl j,
        if_neg fun h => hne h.1.symm, Nat.add_zero]
    by_cases hdi : d = i
    · subst d
      rw [weight_unlinked_self (parentsOf_nlink j x), weight_of_some hx]
      by_cases hdir : x.type = .dir
      · -- the directory is freed with its `..`, which named `dp`
        obtain ⟨hz, hde⟩ := unlink_dir_freed ht hc hnm hl hx hdir (hempty hdir)
        rw [if_pos hz, hde.parentsOf_eq]
        simp [hdir]
      · rw [parentsOf_of_flat (ht.flat i x hx hdir) j, ite_self, if_neg fun h => hdir h.2.1]
    · rw [weight_eq_of_inode (unlinked_other hdi hd), if_neg fun h => hdi h.1, Nat.add_zero]
  refine ⟨hnames, ?_, ?_⟩
  · have h := total_change (w := namesOf j) (s := s) (t := s') (D := Finset.range NINODES) dp
      fun d _ hd => by simpa [hd] using hnames d
    rw [if_pos (ht.mem_range hy), if_pos (ht.mem_range hy)] at h
    have hdp := hnames dp
    rw [entryCount_eq, entryCount_eq]
    by_cases hj : j = i
    · subst hj
      simp only [true_and, if_true] at hdp ⊢
      omega
    · simp only [hj, and_false, if_false, Nat.add_zero] at hdp ⊢
      omega
  · have h := total_change (w := parentsOf j) (s := s) (t := s')
      (D := (Finset.range NINODES).erase j) i fun d _ hd => by simpa [hd] using hparents d
    have hi := hparents i
    rw [subdirCount_eq, subdirCount_eq]
    by_cases hij : i = j
    · subst hij
      simp [hne] at h ⊢
      exact h
    · rw [if_pos (Finset.mem_erase.2 ⟨hij, ht.mem_range hx⟩),
        if_pos (Finset.mem_erase.2 ⟨hij, ht.mem_range hx⟩)] at h
      simp only [true_and] at hi
      omega

/-- A name found in a directory other than `.` and `..` is in a directory. -/
theorem Tree.lookup_dir (ht : Tree s) (hnm : nm ≠ .dot ∧ nm ≠ .dotdot)
    (hl : s.dirlookup dp nm = some i) : ∃ y, s.inode dp = some y ∧ y.type = .dir := by
  obtain ⟨y, hy, hpos⟩ := namesOf_pos_of_lookup hnm hl
  refine ⟨y, hy, ?_⟩
  by_contra hnd
  rw [namesOf_of_flat (ht.flat dp y hy hnd)] at hpos
  exact lt_irrefl 0 hpos

/-- The inode `sys_unlink` takes out, when it stays, is a file with one link fewer. -/
theorem unlink_self_kept (ht : Tree s) (hc : LinkCounts s) (hnm : nm ≠ .dot ∧ nm ≠ .dotdot)
    (hl : s.dirlookup dp nm = some i) (hx : s.inode i = some x)
    (hempty : x.type = .dir → isdirempty x) {x' : INode}
    (hx' : (unlinked s dp nm i x).inode i = some x') :
    x.type ≠ .dir ∧ x' = { x with nlink := x.nlink + -1 } := by
  rw [unlinked_self] at hx'
  by_cases hz : x.nlink + -1 = 0
  · rw [if_pos hz] at hx'
    cases hx'
  · rw [if_neg hz, Option.some.injEq] at hx'
    exact ⟨fun hdir => hz (unlink_dir_freed ht hc hnm hl hx hdir (hempty hdir)).1, hx'.symm⟩

/-- **`sys_unlink` keeps the counts**: the inode taken out has one link fewer, and `dp` one
fewer for a directory's `..`. -/
theorem unlink_linkCounts (ht : Tree s) (hc : LinkCounts s) (hnm : nm ≠ .dot ∧ nm ≠ .dotdot)
    (hl : s.dirlookup dp nm = some i) (hx : s.inode i = some x) (hne : i ≠ dp)
    (hlt : ¬ x.nlink < 1) (hempty : x.type = .dir → isdirempty x) :
    LinkCounts (unlinked s dp nm i x) := by
  obtain ⟨y, hy, hty⟩ := ht.lookup_dir hnm hl
  have hone := one_le_toInt hlt
  intro d x' hx'
  have hsub := (unlink_counts ht hc hnm hl hx hne hempty d).2.2
  have hent := (unlink_counts ht hc hnm hl hx hne hempty d).2.1
  by_cases hdi : d = i
  · subst d
    obtain ⟨hnd, rfl⟩ := unlink_self_kept ht hc hnm hl hx hempty hx'
    have h₀ := hc i x hx
    rw [if_neg hnd] at h₀
    rw [if_pos rfl] at hent
    rw [if_neg hnd, toInt_add_neg_one hone, h₀]
    omega
  by_cases hddp : d = dp
  · subst d
    rw [unlinked_dp hne, hy, Option.map_some, Option.some.injEq] at hx'
    subst hx'
    have h₀ := hc dp y hy
    rw [if_pos hty] at h₀
    rw [if_pos hty]
    by_cases hdir : x.type = .dir
    · rw [if_pos ⟨hdir, rfl⟩] at hsub
      rw [if_pos hdir, toInt_add_neg_one (by omega), h₀]
      omega
    · rw [if_neg fun h => hdir h.1, Nat.add_zero] at hsub
      rw [if_neg hdir, h₀, hsub]
  · rw [unlinked_other hdi hddp] at hx'
    have h₀ := hc d x' hx'
    rw [if_neg hdi, Nat.add_zero] at hent
    rw [if_neg fun h => hddp h.2, Nat.add_zero] at hsub
    rwa [hent, hsub]

/-- **`sys_unlink` keeps the tree** when it takes out an entry other than `.` and `..` whose
inode has a link and, for a directory, is empty. -/
theorem unlink_tree (ht : Tree s) (hc : LinkCounts s) (hnm : nm ≠ .dot ∧ nm ≠ .dotdot)
    (hl : s.dirlookup dp nm = some i) (hx : s.inode i = some x) (hne : i ≠ dp)
    (hlt : ¬ x.nlink < 1) (hempty : x.type = .dir → isdirempty x) :
    Tree (unlinked s dp nm i x) := by
  have hcounts := unlink_counts ht hc hnm hl hx hne hempty
  set s' := unlinked s dp nm i x with hs'
  obtain ⟨hroot, -⟩ := ht.lookup_ne hnm hl hx
  obtain ⟨y, hy, hty⟩ := ht.lookup_dir hnm hl
  have hone := one_le_toInt hlt
  have hs'dp : s'.inode dp = some { y with nlink := if x.type = .dir then y.nlink + -1 else y.nlink,
                                           entries := y.entries.eraseP (·.1 = nm) } := by
    rw [hs', unlinked_dp hne, hy]
    rfl
  have hs'i : ∀ x', s'.inode i = some x' → x.type ≠ .dir ∧ x' = { x with nlink := x.nlink + -1 } :=
    fun _ => unlink_self_kept ht hc hnm hl hx hempty
  have hs'other : ∀ d, d ≠ i → d ≠ dp → s'.inode d = s.inode d := by
    intro d h1 h2
    rw [hs', unlinked_other h1 h2]
  have hback : ∀ d x', s'.inode d = some x' →
      ∃ x₀, s.inode d = some x₀ ∧ x'.type = x₀.type ∧ (d ≠ dp → x'.entries = x₀.entries) ∧
        ∀ q, DirEntries d q x₀.entries → DirEntries d q x'.entries := by
    intro d x' hd
    by_cases h1 : d = i
    · subst h1
      obtain ⟨-, rfl⟩ := hs'i x' hd
      exact ⟨x, hx, rfl, fun _ => rfl, fun _ hq => hq⟩
    by_cases h2 : d = dp
    · subst h2
      rw [hs'dp] at hd
      cases hd
      exact ⟨y, hy, rfl, fun h => absurd rfl h, fun q hq => hq.eraseP hnm⟩
    · rw [hs'other d h1 h2] at hd
      exact ⟨x', hd, rfl, fun _ => rfl, fun _ hq => hq⟩
  -- every inode but `i` stays
  have hfwd : ∀ d x₀, s.inode d = some x₀ → d ≠ i → ∃ x', s'.inode d = some x' := by
    intro d x₀ h₀ hdi
    by_cases h2 : d = dp
    · exact ⟨_, h2 ▸ hs'dp⟩
    · exact ⟨x₀, by rw [hs'other d hdi h2, h₀]⟩
  -- the inode taken out is no directory any more: a directory is freed
  have hdir_ne : ∀ d x', s'.inode d = some x' → x'.type = .dir → d ≠ i := by
    rintro d x' hd hdir rfl
    obtain ⟨hnd, rfl⟩ := hs'i x' hd
    exact hnd hdir
  have hisType : ∀ d, d ≠ i → s'.isType d .dir = s.isType d .dir := fun d hdi =>
    isType_eq_of_kept (fun x' hd => (hback d x' hd).imp fun _ h => ⟨h.1, h.2.1⟩)
      fun x₀ h₀ => hfwd d x₀ h₀ hdi
  -- nothing has `i` as its `..`: a file is no parent, and the directory is empty
  have hpi : ∀ d y' p, s.inode d = some y' → d ≠ i → DirEntries d p y'.entries →
      s.isType p .dir → p ≠ i := by
    rintro d y' p hy' hdi hde hp rfl
    obtain ⟨x₁, hx₁, hdir⟩ := isType_iff.1 hp
    rw [hx] at hx₁
    cases hx₁
    have hde' := (unlink_dir_freed ht hc hnm hl hx hdir (hempty hdir)).2
    exact ht.parent_ne (ht.subdirCount_empty hx hroot (hempty hdir) hde') hy' hdi hde rfl
  refine ⟨fun d x' hx' => ?_, ?_, ?_, fun d x' hx' hdir => ?_, fun d x' hx' hnd => ?_,
    fun d hd => ?_, fun d x' p hx' hd hde => ?_⟩
  · obtain ⟨x₀, h₀, -⟩ := hback d x' hx'
    exact ht.range d x₀ h₀
  · -- the root keeps its `.` and `..`
    exact ht.root_of_kept (fun x₀ h₀ => hfwd _ x₀ h₀ (Ne.symm hroot)) fun x' hx' =>
      (hback _ x' hx').imp fun _ h => ⟨h.1, h.2.1, h.2.2.2⟩
  · have h := (hcounts ROOTINO).2.1
    rw [ht.root_unnamed] at h
    omega
  · -- a directory keeps its `.` and `..`, and `dp` loses an entry past them
    have hdi := hdir_ne d x' hx' hdir
    obtain ⟨x₀, h₀, htyp, -, hedit⟩ := hback d x' hx'
    obtain ⟨p, hp, hde⟩ := ht.dir d x₀ h₀ (htyp ▸ hdir)
    exact ⟨p, by rw [hisType p (hpi d x₀ p h₀ hdi hde hp)]; exact hp, hedit p hde⟩
  · obtain ⟨x₀, h₀, htyp, hent, -⟩ := hback d x' hx'
    exact ht.flat_of_kept hy hty h₀ htyp hent hnd
  · -- the inode freed had its one name in `dp`, and a free inode stays unnamed
    have h := (hcounts d).2.1
    by_cases hdi : d = i
    · subst hdi
      have hname : entryCount s d = 1 := by
        by_cases hdir : x.type = .dir
        · obtain ⟨-, hde⟩ := unlink_dir_freed ht hc hnm hl hx hdir (hempty hdir)
          exact (ht.once d x dp hx hroot hde).2.1
        · have hz : x.nlink + -1 = 0 := by
            by_contra hz
            rw [hs', unlinked_self, if_neg hz] at hd
            cases hd
          have hcount := hc d x hx
          rw [if_neg hdir] at hcount
          have := (add_neg_one_eq_zero_iff hone).1 hz
          omega
      rw [if_pos rfl] at h
      omega
    · have hd₀ := inode_none_of_kept (fun x₀ h₀ => hfwd d x₀ h₀ hdi) hd
      rw [ht.free_unnamed d hd₀, if_neg hdi] at h
      omega
  · -- a directory is still named once, in its parent
    obtain ⟨x₀, h₀, htyp, hent, hedit⟩ := hback d x' hx'
    have hdir := ht.dir_of_kept hy hty h₀ htyp hent hde
    have hdi := hdir_ne d x' hx' hdir
    obtain ⟨hpd, hname, hw⟩ := ht.once_of_kept h₀ (htyp.symm.trans hdir) hd hedit hde
    have hent' := (hcounts d).2.1
    have hw' := (hcounts d).1 p
    rw [if_neg hdi] at hent'
    rw [if_neg fun h => hdi h.2] at hw'
    exact ⟨hpd, by omega, by omega⟩

end Unlink

/-! ### Every call -/

/-- **Every call keeps the tree and the counts**, from a state whose counts can all take one
more link. -/
theorem linkStep_keeps {s s' : Names} {c : LinkCall} (ht : Tree s) (hc : LinkCounts s)
    (hroomy : Roomy s) (h : linkStep s c = .ok s') : Tree s' ∧ LinkCounts s' := by
  cases c with
  | create dp nm type =>
    by_cases hdp : s.isType dp .dir
    · rw [linkStep, if_pos hdp] at h
      cases hlook : s.dirlookup dp nm with
      | some i =>
        -- the name is there already: `create` returns what it names and changes nothing
        simp only [create, hlook, Except.map, Except.ok.injEq] at h
        exact h ▸ ⟨ht, hc⟩
      | none =>
        cases halloc : s.ialloc with
        | none => simp [create, hlook, halloc, Except.map] at h
        | some ip =>
          rw [create_eq hdp hlook halloc] at h
          cases h
          exact ⟨create_tree ht hdp hlook halloc, create_linkCounts ht hc hroomy hdp hlook halloc⟩
    · rw [linkStep, if_neg hdp] at h
      cases h
      exact ⟨ht, hc⟩
  | link ip dp nm =>
    rw [linkStep] at h
    cases h
    rcases sysLink_cases s ip dp nm with heq | ⟨x, hx, hfile, hdp, hnew, heq⟩
    · rw [heq]
      exact ⟨ht, hc⟩
    · rw [heq]
      exact ⟨link_tree ht hx hfile hdp hnew, link_linkCounts ht hc hroomy hx hfile hdp hnew⟩
  | unlink dp nm =>
    by_cases hdp : s.isType dp .dir
    · rw [linkStep, if_pos hdp] at h
      rcases sysUnlink_cases h with rfl | ⟨i, x, hnm1, hnm2, hl, hx, hlt, hempty, heq⟩
      · exact ⟨ht, hc⟩
      · -- what is taken out is not `dp` itself
        have hne := (ht.lookup_ne ⟨hnm1, hnm2⟩ hl hx).2
        rw [heq hne]
        exact ⟨unlink_tree ht hc ⟨hnm1, hnm2⟩ hl hx hne hlt hempty,
          unlink_linkCounts ht hc ⟨hnm1, hnm2⟩ hl hx hne hlt hempty⟩
    · rw [linkStep, if_neg hdp] at h
      cases h
      exact ⟨ht, hc⟩

/-! ### The image `mkfs` makes, and runs from it -/

theorem mkfsNames_eq {i : ℕ} {x : INode} (hx : mkfsNames.inode i = some x) :
    i = ROOTINO ∧ x = ⟨.dir, 1, [(.dot, ROOTINO), (.dotdot, ROOTINO)]⟩ := by
  by_cases hi : i = ROOTINO
  · simp only [mkfsNames, if_pos hi, Option.some.injEq] at hx
    exact ⟨hi, hx.symm⟩
  · simp [mkfsNames, hi] at hx

theorem mkfs_dirEntries : DirEntries ROOTINO ROOTINO [(.dot, ROOTINO), (.dotdot, ROOTINO)] :=
  ⟨[], rfl, by simp⟩

theorem entryCount_mkfs (j : ℕ) : entryCount mkfsNames j = 0 := by
  rw [entryCount_eq, total, Finset.sum_eq_zero_iff]
  intro d _
  cases hx : mkfsNames.inode d with
  | none => exact weight_of_none hx
  | some x =>
    obtain ⟨-, rfl⟩ := mkfsNames_eq hx
    rw [weight_of_some hx]
    exact mkfs_dirEntries.namesOf_of_empty (x := ⟨.dir, 1, _⟩) rfl j

theorem subdirCount_mkfs (j : ℕ) : subdirCount mkfsNames j = 0 := by
  rw [subdirCount_eq, total, Finset.sum_eq_zero_iff]
  intro d hd
  cases hx : mkfsNames.inode d with
  | none => exact weight_of_none hx
  | some x =>
    obtain ⟨rfl, rfl⟩ := mkfsNames_eq hx
    -- the root's `..` names the root only, and the sum leaves out `j`
    rw [weight_of_some hx, mkfs_dirEntries.parentsOf_eq (x := ⟨.dir, 1, _⟩),
      if_neg (Finset.ne_of_mem_erase hd).symm]

theorem tree_mkfs : Tree mkfsNames where
  range i x hx := by
    rw [(mkfsNames_eq hx).1]
    decide
  root := ⟨_, rfl, rfl, mkfs_dirEntries⟩
  root_unnamed := entryCount_mkfs ROOTINO
  dir i x hx _ := by
    obtain ⟨rfl, rfl⟩ := mkfsNames_eq hx
    exact ⟨ROOTINO, by decide, mkfs_dirEntries⟩
  flat i x hx hnd := by
    obtain ⟨rfl, rfl⟩ := mkfsNames_eq hx
    exact absurd rfl hnd
  free_unnamed i _ := entryCount_mkfs i
  once i x _ hx hi _ := absurd (mkfsNames_eq hx).1 hi

theorem linkCounts_mkfs : LinkCounts mkfsNames := by
  intro i x hx
  obtain ⟨rfl, rfl⟩ := mkfsNames_eq hx
  rw [if_pos rfl, subdirCount_mkfs]
  decide

/-- **The link counts stay right**: every state reached from the image `mkfs` makes, by calls
each made from a state whose counts can all take one more link, has the right link counts, on
a tree of directories. -/
theorem linkCounts_kept {s : Names} (h : Machine.ReachWhile linkStep Roomy mkfsNames s) :
    Tree s ∧ LinkCounts s :=
  h.invariant ⟨tree_mkfs, linkCounts_mkfs⟩ fun _ _ _ hs hroomy hstep =>
    linkStep_keeps hs.1 hs.2 hroomy hstep

/-- The states of `nlink_overflow` are roomy while the file has fewer than `2 ^ 15 - 1`
names. -/
theorem roomy_linked {n : ℕ} (h : n + 2 < 2 ^ 15) : Roomy (linkedNames n) := by
  intro i x hx
  by_cases hroot : i = ROOTINO
  · rw [hroot, linkedNames_root] at hx
    cases hx
    dsimp only
    decide
  by_cases h2 : i = 2
  · rw [h2, linkedNames_two] at hx
    cases hx
    rw [(toInt_ofNat_eq_iff (n + 1)).2 (by omega)]
    push_cast
    omega
  · rw [linkedNames_other hroot h2] at hx
    cases hx

theorem reachWhile_linked {n : ℕ} (h : n + 2 < 2 ^ 15) :
    Machine.ReachWhile linkStep Roomy mkfsNames (linkedNames n) := by
  induction n with
  | zero =>
    exact .tail _ .refl (fun i x hx => by
      obtain ⟨-, rfl⟩ := mkfsNames_eq hx
      decide) create_linked
  | succ n ih =>
    exact .tail _ (ih (by omega)) (roomy_linked (by omega)) (link_linked n)

/-- The run of `nlink_overflow` keeps the counts right up to the file's `2 ^ 15 - 1`st name. -/
theorem linkCounts_kept_linked :
    Machine.ReachWhile linkStep Roomy mkfsNames (linkedNames 32765) ∧
      Tree (linkedNames 32765) ∧ LinkCounts (linkedNames 32765) :=
  have h := reachWhile_linked (n := 32765) (by decide)
  ⟨h, linkCounts_kept h⟩

end Links

end Xv6Kernel
