import Mathlib.Algebra.BigOperators.Group.Finset.Basic
import Xv6Kernel.Fs.Ownership
import Xv6Kernel.Proc.FileRefs

/-!
# Link counts of the directory tree (`sysfile.c`: `create`, `sys_link`, `sys_unlink`)

The names the file system holds: for each allocated inode its type and its `nlink` (a `short`),
and for each directory its live entries (`inum ≠ 0`) in slot order.  Paths are resolved before
the calls here: `create` and `sys_unlink` are given the directory `nameiparent` returned, and
`sys_link` the inode `namei` returned for the old path and the directory for the new one; an
inode number of no allocated inode (`0`) stands for a path that does not resolve.  Names other
than `.` and `..` are kept abstract (`namecmp` only compares them).

* `LinkCounts` : every file's `nlink` is the number of entries that name it, and every
  directory's is `1` plus the number of its subdirectories.
* `nlink_overflow` : from the image `mkfs` makes, a file created in the root directory and
  linked `32767` times has `32768` names while its `short` count has wrapped to `-32768`; the
  next `unlink` of one of its names panics.
-/

namespace Xv6Kernel

namespace Links

/-- A name in a directory entry. -/
inductive DirName
  | dot
  | dotdot
  /-- Any other name. -/
  | name (n : ℕ)
  deriving DecidableEq, Repr

/-- `T_DIR`, `T_FILE`, `T_DEV`. -/
inductive IType
  | dir
  | file
  | dev
  deriving DecidableEq, Repr

/-- An allocated inode. -/
structure INode where
  type : IType
  /-- `nlink`, a `short`. -/
  nlink : Int16
  /-- The live entries of a directory, `.` and `..` first.  A new entry goes last, where
  `dirlink` reuses the first free slot; only their order differs, and names in a directory are
  distinct. -/
  entries : List (DirName × ℕ)
  deriving DecidableEq, Repr

/-- The allocated inodes by number. -/
@[ext]
structure Names where
  inode : ℕ → Option INode

namespace Names

/-- The inode `i` after a change. -/
def modify (s : Names) (i : ℕ) (f : INode → INode) : Names :=
  ⟨Function.update s.inode i ((s.inode i).map f)⟩

/-- `dirlookup(dp, name)`: the inode of the first entry with the name. -/
def dirlookup (s : Names) (dp : ℕ) (nm : DirName) : Option ℕ :=
  ((s.inode dp).bind fun ip => ip.entries.find? (·.1 = nm)).map (·.2)

/-- `dirlink(dp, name, inum)`: `none` (`-1`) if the name is present. -/
def dirlink (s : Names) (dp : ℕ) (nm : DirName) (inum : ℕ) : Option Names :=
  match s.dirlookup dp nm with
  | some _ => none
  | none => some (s.modify dp fun ip => { ip with entries := ip.entries ++ [(nm, inum)] })

/-- `ialloc`: the first free inode number from `1`. -/
def ialloc (s : Names) : Option ℕ :=
  (List.range' 1 (NINODES - 1)).find? fun i => s.inode i = none

/-- `nlink += d`. -/
def addNlink (s : Names) (i : ℕ) (d : Int16) : Names :=
  s.modify i fun ip => { ip with nlink := ip.nlink + d }

/-- Whether `i` is an allocated inode of type `t`. -/
def isType (s : Names) (i : ℕ) (t : IType) : Bool :=
  (s.inode i).any fun ip => ip.type = t

@[simp] theorem modify_self (s : Names) (i : ℕ) (f : INode → INode) :
    (s.modify i f).inode i = (s.inode i).map f := by
  simp [modify]

@[simp] theorem modify_of_ne (s : Names) {i j : ℕ} (f : INode → INode) (h : j ≠ i) :
    (s.modify i f).inode j = s.inode j := by
  simp [modify, h]

/-- `dirlookup` reads the entries of the directory's own inode. -/
theorem dirlookup_of_some {s : Names} {dp : ℕ} {x : INode} (h : s.inode dp = some x)
    (nm : DirName) : s.dirlookup dp nm = (x.entries.find? (·.1 = nm)).map (·.2) := by
  simp [dirlookup, h]

theorem dirlookup_modify_of_ne (s : Names) {i dp : ℕ} (f : INode → INode) (h : dp ≠ i)
    (nm : DirName) : (s.modify i f).dirlookup dp nm = s.dirlookup dp nm := by
  simp [dirlookup, h]

/-- A change of a count leaves every directory's entries. -/
@[simp] theorem dirlookup_addNlink (s : Names) (i dp : ℕ) (d : Int16) (nm : DirName) :
    (s.addNlink i d).dirlookup dp nm = s.dirlookup dp nm := by
  unfold dirlookup addNlink
  by_cases h : dp = i
  · subst h
    cases hx : s.inode dp <;> simp [hx]
  · simp [h]

@[simp] theorem isType_addNlink (s : Names) (i j : ℕ) (d : Int16) (t : IType) :
    (s.addNlink i d).isType j t = s.isType j t := by
  unfold isType addNlink
  by_cases h : j = i
  · subst h
    cases hx : s.inode j <;> simp [hx]
  · simp [h]

end Names

open Names

/-- `create(path, type)` in the directory `dp`: the inode returned (`none` for `0`). -/
def create (s : Names) (dp : ℕ) (nm : DirName) (type : IType) : Except String (Option ℕ × Names) :=
  match s.dirlookup dp nm with
  | some i => .ok (if type = .file ∧ s.isType i .file then some i else none, s)
  | none =>
    match s.ialloc with
    | none => .error "ialloc: no inodes"
    | some ip =>
      let s := { inode := Function.update s.inode ip (some ⟨type, 1, []⟩) }
      -- a directory gets `.` and `..`; the parent's count is for `..`
      let dots : Option Names :=
        if type = .dir then
          ((s.addNlink dp 1).dirlink ip .dot ip).bind fun s => s.dirlink ip .dotdot dp
        else some s
      match dots with
      | none => .error "create dots"
      | some s =>
        match s.dirlink dp nm ip with
        | none => .error "create: dirlink"
        | some s => .ok (some ip, s)

/-- `sys_link` of the inode `ip` (`namei(old)`) as `nm` in the directory `dp`
(`nameiparent(new)`): on a failed `dirlink` the count goes back. -/
def sysLink (s : Names) (ip dp : ℕ) (nm : DirName) : Names :=
  match s.inode ip with
  | none => s
  | some x =>
    if x.type = .dir then s
    else
      let s := s.addNlink ip 1
      let bad := s.addNlink ip (-1)
      if s.isType dp .dir then (s.dirlink dp nm ip).getD bad else bad

/-- `sys_link` when the name is new in a directory: one more link, one more entry. -/
theorem sysLink_ok {s : Names} {ip dp : ℕ} {nm : DirName} {x : INode} (hx : s.inode ip = some x)
    (hfile : x.type ≠ .dir) (hdp : s.isType dp .dir) (hnew : s.dirlookup dp nm = none) :
    sysLink s ip dp nm =
      (s.addNlink ip 1).modify dp fun y => { y with entries := y.entries ++ [(nm, ip)] } := by
  simp [sysLink, hx, hfile, hdp, dirlink, hnew]

/-- `isdirempty(dp)`: no live entry past the first two slots. -/
def isdirempty (x : INode) : Bool := x.entries.drop 2 = []

/-- `sys_unlink` of `nm` in the directory `dp`: the entry goes, a directory's `..` goes from the
parent's count, and an inode left with no link is freed. -/
def sysUnlink (s : Names) (dp : ℕ) (nm : DirName) : Except String Names :=
  if nm = .dot ∨ nm = .dotdot then .ok s
  else
    match s.dirlookup dp nm with
    | none => .ok s
    | some i =>
      match s.inode i with
      | none => .error "ilock: no type"
      | some x =>
        if x.nlink < 1 then .error "unlink: nlink < 1"
        else if x.type = .dir ∧ !isdirempty x then .ok s
        else
          let s := s.modify dp fun y => { y with entries := y.entries.eraseP (·.1 = nm) }
          let s := if x.type = .dir then s.addNlink dp (-1) else s
          let s := s.addNlink i (-1)
          -- `iput`: the last link and reference gone, `itrunc` and `type = 0`
          .ok (if (s.inode i).any (·.nlink = 0) then ⟨Function.update s.inode i none⟩ else s)

/-- A call on the directory tree, with its paths resolved. -/
inductive LinkCall
  /-- `open(O_CREATE)`, `mkdir`, `mknod`. -/
  | create (dp : ℕ) (nm : DirName) (type : IType)
  | link (ip dp : ℕ) (nm : DirName)
  | unlink (dp : ℕ) (nm : DirName)
  deriving DecidableEq, Repr

/-- One call; `nameiparent` only returns directories. -/
def linkStep (s : Names) : LinkCall → Except String Names
  | .create dp nm type => if s.isType dp .dir then (create s dp nm type).map Prod.snd else .ok s
  | .link ip dp nm => .ok (sysLink s ip dp nm)
  | .unlink dp nm => if s.isType dp .dir then sysUnlink s dp nm else .ok s

/-- The image `mkfs` makes with no files: the root directory, with `.` and `..`. -/
def mkfsNames : Names :=
  ⟨fun i => if i = ROOTINO then some ⟨.dir, 1, [(.dot, ROOTINO), (.dotdot, ROOTINO)]⟩ else none⟩

/-! ### The counts -/

/-- The entries other than `.` and `..`, in allocated directories, that name `i`. -/
def entryCount (s : Names) (i : ℕ) : ℕ :=
  ∑ d ∈ Finset.range NINODES,
    ((s.inode d).map fun x => x.entries.countP fun e => e.1 ≠ .dot ∧ e.1 ≠ .dotdot ∧ e.2 = i).getD 0

/-- The allocated directories other than `i` whose `..` names `i`. -/
def subdirCount (s : Names) (i : ℕ) : ℕ :=
  ∑ d ∈ (Finset.range NINODES).erase i,
    ((s.inode d).map fun x => x.entries.countP fun e => e.1 = .dotdot ∧ e.2 = i).getD 0

/-- **The link counts are right**: a file's or device's `nlink` is the number of entries that
name it, a directory's is `1` plus the number of its subdirectories. -/
def LinkCounts (s : Names) : Prop :=
  ∀ i x, s.inode i = some x →
    if x.type = .dir then x.nlink.toInt = 1 + subdirCount s i else x.nlink.toInt = entryCount s i

/-- A `short` holds the count `m` only below `2 ^ 15`. -/
theorem toInt_ofNat_eq_iff (m : ℕ) : (Int16.ofNat m).toInt = m ↔ m < 2 ^ 15 := by
  constructor
  · intro h
    have := Int16.toInt_lt (Int16.ofNat m)
    omega
  · intro h
    rw [Int16.toInt_ofNat']
    apply Int.bmod_eq_of_le
    · simp [Int16.size]
    · simp only [Int16.size]
      omega

/-! ### A file with many names -/

/-- The root directory's entries once the file `2` has the names `0, …, n`. -/
def rootEntries (n : ℕ) : List (DirName × ℕ) :=
  [(.dot, ROOTINO), (.dotdot, ROOTINO)] ++ (List.range (n + 1)).map fun k => (.name k, 2)

/-- The image `mkfs` makes once the file `2` was created as `0` in the root and linked as
`1, …, n`. -/
def linkedNames (n : ℕ) : Names :=
  ⟨fun i => if i = ROOTINO then some ⟨.dir, 1, rootEntries n⟩
    else if i = 2 then some ⟨.file, Int16.ofNat (n + 1), []⟩ else none⟩

/-- The `sys_link` calls that name the file `2` also `1, …, n` in the root. -/
def moreLinks (n : ℕ) : List LinkCall :=
  (List.range n).map fun k => .link 2 ROOTINO (.name (k + 1))

theorem rootEntries_succ (n : ℕ) : rootEntries (n + 1) = rootEntries n ++ [(.name (n + 1), 2)] := by
  simp [rootEntries, List.range_succ]

@[simp] theorem linkedNames_root (n : ℕ) :
    (linkedNames n).inode ROOTINO = some ⟨.dir, 1, rootEntries n⟩ := rfl

@[simp] theorem linkedNames_two (n : ℕ) :
    (linkedNames n).inode 2 = some ⟨.file, Int16.ofNat (n + 1), []⟩ := rfl

theorem linkedNames_other {n i : ℕ} (h1 : i ≠ ROOTINO) (h2 : i ≠ 2) : (linkedNames n).inode i = none := by
  simp [linkedNames, h1, h2]

/-- `open("0", O_CREATE)` in the root of an empty image allocates the inode `2`. -/
theorem create_linked : linkStep mkfsNames (.create ROOTINO (.name 0) .file) = .ok (linkedNames 0) := by
  have hdir : mkfsNames.isType ROOTINO .dir := by decide
  have hlook : mkfsNames.dirlookup ROOTINO (.name 0) = none := by decide
  have halloc : mkfsNames.ialloc = some 2 := by decide
  -- the new inode, before its entry in the root
  have hlook₁ : (⟨Function.update mkfsNames.inode 2 (some ⟨.file, 1, []⟩)⟩ : Names).dirlookup
      ROOTINO (.name 0) = none := by decide
  have hnot : IType.file ≠ .dir := by decide
  simp only [linkStep, hdir, if_true, create, hlook, halloc, hnot, if_false, dirlink, hlook₁,
    Except.map]
  congr 1
  ext1
  funext i
  by_cases hroot : i = ROOTINO
  · subst hroot
    decide
  by_cases htwo : i = 2
  · subst htwo
    decide
  · simp [Function.update_of_ne htwo, mkfsNames, hroot, linkedNames_other hroot htwo]

/-- One more `sys_link` of the file as the next name. -/
theorem link_linked (n : ℕ) :
    linkStep (linkedNames n) (.link 2 ROOTINO (.name (n + 1))) = .ok (linkedNames (n + 1)) := by
  have hdp : (linkedNames n).isType ROOTINO .dir := by simp [isType]
  have hnew : (linkedNames n).dirlookup ROOTINO (.name (n + 1)) = none := by
    simp only [dirlookup, linkedNames_root, Option.bind_some, Option.map_eq_none_iff,
      List.find?_eq_none]
    simp only [rootEntries, List.mem_append, List.mem_map, List.mem_range]
    rintro _ (hdot | ⟨k, hk, rfl⟩)
    · simp at hdot
      rcases hdot with rfl | rfl <;> simp
    · simp only [decide_eq_true_eq, DirName.name.injEq]
      omega
  have h2 : (2 : ℕ) ≠ ROOTINO := by decide
  rw [linkStep, sysLink_ok (linkedNames_two n) (by simp) hdp hnew]
  congr 1
  ext1
  funext i
  by_cases hroot : i = ROOTINO
  · -- the new entry
    subst hroot
    rw [modify_self, addNlink, modify_of_ne _ _ h2.symm, linkedNames_root, linkedNames_root]
    simp [rootEntries_succ]
  by_cases htwo : i = 2
  · -- the new link
    subst htwo
    rw [modify_of_ne _ _ h2, addNlink, modify_self, linkedNames_two, linkedNames_two]
    simp [Int16.ofNat_add]
  · simp only [addNlink, modify_of_ne _ _ hroot, modify_of_ne _ _ htwo,
      linkedNames_other hroot htwo]

theorem run_moreLinks (n : ℕ) :
    Machine.run linkStep (linkedNames 0) (moreLinks n) = .ok (linkedNames n) := by
  induction n with
  | zero => rfl
  | succ n ih =>
    rw [moreLinks, List.range_succ, List.map_append, Machine.run_append, ← moreLinks, ih]
    exact congrArg (Except.bind · _) (link_linked n)

theorem reach_linked (n : ℕ) : Machine.Reach linkStep mkfsNames (linkedNames n) :=
  Machine.Reach.head _ create_linked (Machine.reach_of_run (run_moreLinks n))

/-- The file has the `n + 1` names of the root. -/
theorem entryCount_linked (n : ℕ) : entryCount (linkedNames n) 2 = n + 1 := by
  unfold entryCount
  rw [Finset.sum_eq_single ROOTINO]
  · simp [rootEntries, List.countP_map, Function.comp_def]
  · intro d _ hroot
    by_cases htwo : d = 2
    · subst htwo
      simp
    · simp [linkedNames_other hroot htwo]
  · simp [ROOTINO, NINODES]

/-- No directory but the root has a `..`. -/
theorem subdirCount_linked (n : ℕ) : subdirCount (linkedNames n) ROOTINO = 0 := by
  apply Finset.sum_eq_zero
  intro d hd
  have hroot : d ≠ ROOTINO := Finset.ne_of_mem_erase hd
  by_cases htwo : d = 2
  · subst htwo
    simp
  · simp [linkedNames_other hroot htwo]

/-- The counts are right exactly while the file's `short` count holds its number of names. -/
theorem linkCounts_linked_iff (n : ℕ) : LinkCounts (linkedNames n) ↔ n + 1 < 2 ^ 15 := by
  constructor
  · intro h
    have hfile := h 2 _ (linkedNames_two n)
    simp only [reduceCtorEq, if_false, entryCount_linked] at hfile
    exact (toInt_ofNat_eq_iff (n + 1)).1 (by exact_mod_cast hfile)
  · intro hlt i x hx
    by_cases hroot : i = ROOTINO
    · subst hroot
      cases hx
      simp [subdirCount_linked]
    by_cases htwo : i = 2
    · subst htwo
      cases hx
      simp only [reduceCtorEq, if_false, entryCount_linked]
      exact_mod_cast (toInt_ofNat_eq_iff (n + 1)).2 hlt
    · rw [linkedNames_other hroot htwo] at hx
      cases hx

/-- `sys_unlink` of the file's first name, once its count has wrapped below `1`. -/
theorem unlink_linked {n : ℕ} (hwrap : Int16.ofNat (n + 1) < 1) :
    linkStep (linkedNames n) (.unlink ROOTINO (.name 0)) = .error "unlink: nlink < 1" := by
  have hdp : (linkedNames n).isType ROOTINO .dir := by simp [isType]
  have hlook : (linkedNames n).dirlookup ROOTINO (.name 0) = some 2 := by
    simp [dirlookup, rootEntries, List.range_succ_eq_map]
  simp [linkStep, hdp, sysUnlink, hlook]
  simpa [Int16.ofNat_add] using hwrap

/-- **`nlink` overflows.**  From the image `mkfs` makes, a file created in the root and linked
`32767` times more has `32768` names, while its `short` count reads `-32768`: the counts are no
longer right, and unlinking one of its names panics. -/
theorem nlink_overflow :
    ∃ s x, Machine.Reach linkStep mkfsNames s ∧ s.inode 2 = some x ∧ x.type = .file ∧
      x.nlink.toInt = -32768 ∧ entryCount s 2 = 32768 ∧ ¬ LinkCounts s ∧
      linkStep s (.unlink ROOTINO (.name 0)) = .error "unlink: nlink < 1" := by
  refine ⟨linkedNames 32767, _, reach_linked 32767, linkedNames_two 32767, rfl, by decide,
    entryCount_linked 32767, mt (linkCounts_linked_iff 32767).1 (by decide),
    unlink_linked (by decide)⟩

end Links

end Xv6Kernel
