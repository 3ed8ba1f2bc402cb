import Mathlib.Data.Fintype.Prod
import Xv6Kernel.Lib.Machine
import Xv6Kernel.Proc.State

/-!
# Reference counts of open files and inodes (`file.c`, `sysfile.c`, `proc.c`, `lwp.c`)

The references that procs hold: each slot's open files `ofile[fd]` and current directory `cwd`,
the count `ref` of each `struct file` in `ftable` with the inode it reads, and the count `ref`
of each cached inode.  The inodes are named by their inode numbers; what a path resolves to is
an argument of `open` and `chdir`, as `namei` would have found it.

`fork`, `exit` and `wait` for processes, `thread_create`, `thread_exit` and `thread_join` for
threads, and `close`, `dup`, `open` and `chdir` move the counts as the source does:

* `fork` duplicates each open file of the parent (`filedup`) and its `cwd` (`idup`);
* `thread_create` duplicates each open file but copies `cwd` without `idup`;
* `exit` closes every open file (`fileclose`) and puts `cwd` (`iput`);
* `wait` and `thread_join` free the slot: `thread_join` neither closes the thread's files nor
  puts its `cwd`, and leaves its `ofile` entries in the free slot;
* `thread_exit` only makes the thread a zombie.

`refStep` is one of these calls by a live proc.  `refcounts_broken` gives two runs from boot:
after `thread_create` the inode of `cwd` has fewer references than holders, and after
`thread_exit` and `thread_join` an open file keeps a reference that no proc holds.
-/

namespace Xv6Kernel

/-- `NOFILE`: open files per process. -/
def NOFILE : ℕ := 16

/-- `NFILE`: open files per system. -/
def NFILE : ℕ := 100

/-- `ROOTINO`: the inode number of the root directory. -/
def ROOTINO : ℕ := 1

instance : NeZero NOFILE := ⟨by decide⟩

instance : NeZero NFILE := ⟨by decide⟩

/-- An index into `ftable.file`. -/
abbrev FileId := Fin NFILE

/-- An index into `p->ofile`. -/
abbrev Fd := Fin NOFILE

/-- The references of the procs, the file table and the inode cache. -/
structure Refs where
  state : Slot → ProcState
  parent : Slot → Option Slot
  lwpgroup : Slot → Option Slot
  /-- `p->ofile[fd]`. -/
  ofile : Slot → Fd → Option FileId
  /-- `p->cwd`, by inode number. -/
  cwd : Slot → Option ℕ
  /-- `f->ref` (an `int`). -/
  fref : FileId → ℤ
  /-- `f->ip` of an `FD_INODE` file, by inode number; `none` for `FD_NONE`. -/
  fip : FileId → Option ℕ
  /-- `ip->ref` of the cached inode with each inode number (an `int`). -/
  iref : ℕ → ℤ

namespace Refs

/-- `p->ofile[fd] = f`. -/
def setOfile (r : Refs) (p : Slot) (fd : Fd) (f : Option FileId) : Refs :=
  { r with ofile := Function.update r.ofile p (Function.update (r.ofile p) fd f) }

/-- `idup(ip)`, and the `iget` of a cached inode. -/
def idup (r : Refs) (ip : ℕ) : Refs :=
  { r with iref := Function.update r.iref ip (r.iref ip + 1) }

/-- `iput(ip)`: the count goes down whatever it was. -/
def iput (r : Refs) (ip : ℕ) : Refs :=
  { r with iref := Function.update r.iref ip (r.iref ip - 1) }

/-- `filedup(f)`. -/
def filedup (r : Refs) (f : FileId) : Except String Refs :=
  if r.fref f < 1 then .error "filedup"
  else .ok { r with fref := Function.update r.fref f (r.fref f + 1) }

/-- `fileclose(f)`: the last close puts the file's inode and makes the file `FD_NONE`. -/
def fileclose (r : Refs) (f : FileId) : Except String Refs :=
  if r.fref f < 1 then .error "fileclose"
  else
    let r' := { r with fref := Function.update r.fref f (r.fref f - 1) }
    if 0 < r'.fref f then .ok r'
    else
      let r' := { r' with fip := Function.update r'.fip f none }
      match r.fip f with
      | some ip => .ok (r'.iput ip)
      | none => .ok r'

/-- The loop over `ofile` of `fork` and `thread_create`: each open file of `cur` is duplicated
into the same descriptor of `np`; the other descriptors of `np` are not written. -/
def dupFiles (r : Refs) (cur np : Slot) : Except String Refs :=
  (List.finRange NOFILE).foldlM (fun r fd =>
    match r.ofile cur fd with
    | none => .ok r
    | some f => do
      let r ← r.filedup f
      pure (r.setOfile np fd (some f))) r

/-- The loop over `ofile` of `exit`: each open file is closed and its descriptor cleared. -/
def closeFiles (r : Refs) (cur : Slot) : Except String Refs :=
  (List.finRange NOFILE).foldlM (fun r fd =>
    match r.ofile cur fd with
    | none => .ok r
    | some f => do
      let r ← r.fileclose f
      pure (r.setOfile cur fd none)) r

/-- The first unused slot, as `allocproc` and `find_unused` find it. -/
def unusedSlot (r : Refs) : Option Slot :=
  (List.finRange NPROC).find? fun j => r.state j = .unused

/-- `fdalloc(f)` for `cur`: the first free descriptor. -/
def fdalloc (r : Refs) (cur : Slot) : Option Fd :=
  (List.finRange NOFILE).find? fun fd => r.ofile cur fd = none

/-- `filealloc()`: the first file with no references. -/
def filealloc (r : Refs) : Option FileId :=
  (List.finRange NFILE).find? fun f => r.fref f = 0

/-- `argfd`: the open file of a descriptor given as an `int`. -/
def argfd (r : Refs) (cur : Slot) (fd : ℤ) : Option (Fd × FileId) :=
  if h : 0 ≤ fd ∧ fd < NOFILE then
    let d : Fd := ⟨fd.toNat, by omega⟩
    (r.ofile cur d).map fun f => (d, f)
  else none

/-- `fork()` by `cur`; the copy of the address space is not modelled. -/
def fork (r : Refs) (cur : Slot) : Except String Refs := do
  let some np := r.unusedSlot | return r
  let r := { r with
    state := Function.update r.state np .runnable, parent := Function.update r.parent np (some cur),
    lwpgroup := Function.update r.lwpgroup np (some np) }
  let r ← r.dupFiles cur np
  let some c := r.cwd cur | throw "idup: null inode"
  return { r.idup c with cwd := Function.update r.cwd np (some c) }

/-- `thread_create` by `cur`, on its path that succeeds: the files are duplicated, `cwd` is
copied. -/
def threadCreate (r : Refs) (cur : Slot) : Except String Refs := do
  let some p := r.unusedSlot | return r
  let r := { r with
    state := Function.update r.state p .runnable, parent := Function.update r.parent p none,
    lwpgroup := Function.update r.lwpgroup p (some cur) }
  let r ← r.dupFiles cur p
  return { r with cwd := Function.update r.cwd p (r.cwd cur) }

/-- `exit()` by `cur`: close every open file, put `cwd`, become a zombie. -/
def exit (r : Refs) (cur : Slot) : Except String Refs := do
  if cur.val = 0 then throw "init exiting"
  let r ← r.closeFiles cur
  let some c := r.cwd cur | throw "iput: null inode"
  let r := r.iput c
  -- abandoned children pass to init
  return { r with
    cwd := Function.update r.cwd cur none, state := Function.update r.state cur .zombie,
    parent := fun p => if r.parent p = some cur then some 0 else r.parent p }

/-- `wait()` by `cur`: the first zombie child is freed. -/
def wait (r : Refs) (cur : Slot) : Refs :=
  match (List.finRange NPROC).find? (fun p => r.parent p = some cur ∧ r.state p = .zombie) with
  | none => r
  | some p => { r with
      state := Function.update r.state p .unused, parent := Function.update r.parent p none }

/-- `thread_exit` by `cur`: it becomes a zombie and keeps its files. -/
def threadExit (r : Refs) (cur : Slot) : Refs :=
  { r with state := Function.update r.state cur .zombie }

/-- The reclaim of `thread_join` by `cur` of its thread `p`: the slot is freed, its files and
`cwd` are left as they are. -/
def threadJoin (r : Refs) (cur p : Slot) : Refs :=
  if r.lwpgroup p = some cur ∧ p ≠ cur then
    { r with state := Function.update r.state p .unused, lwpgroup := Function.update r.lwpgroup p none }
  else r

/-- `sys_close` by `cur`. -/
def sysClose (r : Refs) (cur : Slot) (fd : ℤ) : Except String Refs :=
  match r.argfd cur fd with
  | none => .ok r
  | some (d, f) => (r.setOfile cur d none).fileclose f

/-- `sys_dup` by `cur`. -/
def sysDup (r : Refs) (cur : Slot) (fd : ℤ) : Except String Refs :=
  match r.argfd cur fd with
  | none => .ok r
  | some (_, f) =>
    match r.fdalloc cur with
    | none => .ok r
    | some d => (r.setOfile cur d (some f)).filedup f

/-- `sys_open` by `cur` of a path that resolves to the inode `ip` (`namei` or `create` takes a
reference to it): a new file in the first free descriptor, or, when the file table or the
descriptors are full, the reference given back. -/
def sysOpen (r : Refs) (cur : Slot) (ip : ℕ) : Except String Refs := do
  let r := r.idup ip
  match r.filealloc with
  | none => return r.iput ip
  | some f =>
    let r := { r with fref := Function.update r.fref f 1 }
    match r.fdalloc cur with
    | none => return (← r.fileclose f).iput ip
    | some d => return { r.setOfile cur d (some f) with fip := Function.update r.fip f (some ip) }

/-- `sys_chdir` by `cur` to the directory `ip`: the old `cwd` is put. -/
def sysChdir (r : Refs) (cur : Slot) (ip : ℕ) : Except String Refs := do
  let r := r.idup ip
  let some c := r.cwd cur | throw "iput: null inode"
  let r := r.iput c
  return { r with cwd := Function.update r.cwd cur (some ip) }

end Refs

/-- A call that moves references, by the proc in a slot. -/
inductive RefCall
  | fork
  | threadCreate
  | exit
  | wait
  | threadExit
  | threadJoin (p : Slot)
  | close (fd : ℤ)
  | dup (fd : ℤ)
  | open (ip : ℕ)
  | chdir (ip : ℕ)
  deriving DecidableEq, Repr

/-- A call by the proc in slot `cur`, which must be live: neither unused nor a zombie. -/
def refStep (r : Refs) : Slot × RefCall → Except String Refs
  | (cur, call) =>
    if r.state cur = .unused ∨ r.state cur = .zombie then .error "no proc"
    else match call with
      | .fork => r.fork cur
      | .threadCreate => r.threadCreate cur
      | .exit => r.exit cur
      | .wait => .ok (r.wait cur)
      | .threadExit => .ok (r.threadExit cur)
      | .threadJoin p => .ok (r.threadJoin cur p)
      | .close fd => r.sysClose cur fd
      | .dup fd => r.sysDup cur fd
      | .open ip => r.sysOpen cur ip
      | .chdir ip => r.sysChdir cur ip

/-- After `userinit`: init in slot `0`, with the root directory as `cwd`, and nothing open. -/
def bootRefs : Refs where
  state := fun p => if p.val = 0 then .runnable else .unused
  parent := fun _ => none
  lwpgroup := fun p => if p.val = 0 then some p else none
  ofile := fun _ _ => none
  cwd := fun p => if p.val = 0 then some ROOTINO else none
  fref := fun _ => 0
  fip := fun _ => none
  iref := fun i => if i = ROOTINO then 1 else 0

/-! ### The counts the references should have -/

/-- The open descriptors, in live or zombie slots, that point to the file `f`. -/
def fileHolders (r : Refs) (f : FileId) : ℕ :=
  (Finset.univ.filter fun x : Slot × Fd => r.state x.1 ≠ .unused ∧ r.ofile x.1 x.2 = some f).card

/-- The slots in use whose `cwd` is the inode `i`. -/
def cwdHolders (r : Refs) (i : ℕ) : ℕ :=
  (Finset.univ.filter fun p : Slot => r.state p ≠ .unused ∧ r.cwd p = some i).card

/-- The open files that read the inode `i`. -/
def openHolders (r : Refs) (i : ℕ) : ℕ :=
  (Finset.univ.filter fun f : FileId => 0 < r.fref f ∧ r.fip f = some i).card

/-- Every open file's count is the number of descriptors pointing to it. -/
def FileRefsExact (r : Refs) : Prop :=
  ∀ f, 0 < r.fref f → r.fref f = fileHolders r f

/-- Every inode's count covers the `cwd`s and the open files that hold it. -/
def InodeRefsCover (r : Refs) : Prop :=
  ∀ i, (cwdHolders r i + openHolders r i : ℤ) ≤ r.iref i

/-- Two distinct slots in use with `cwd` at `i` are two holders of `i`. -/
theorem two_le_cwdHolders {r : Refs} {i : ℕ} {p q : Slot} (hpq : p ≠ q)
    (hp : r.state p ≠ .unused ∧ r.cwd p = some i) (hq : r.state q ≠ .unused ∧ r.cwd q = some i) :
    2 ≤ cwdHolders r i := by
  have hsub : ({p, q} : Finset Slot) ⊆ Finset.univ.filter fun p => r.state p ≠ .unused ∧ r.cwd p = some i := by
    intro x hx
    rcases Finset.mem_insert.1 hx with rfl | hx
    · simpa using hp
    · rw [Finset.mem_singleton.1 hx]
      simpa using hq
  calc 2 = ({p, q} : Finset Slot).card := (Finset.card_pair hpq).symm
    _ ≤ cwdHolders r i := Finset.card_le_card hsub

/-! ### The counts go wrong with threads -/

/-- init opens a file and creates a thread. -/
def openThenCreate : List (Slot × RefCall) := [(0, .open 2), (0, .threadCreate)]

/-- The thread exits, init joins it and closes the file. -/
def joinThenClose : List (Slot × RefCall) := [(1, .threadExit), (0, .threadJoin 1), (0, .close 0)]

/-- After `thread_create` init and its thread share the root directory, which has one
reference. -/
theorem openThenCreate_run :
    ∃ r, Machine.run refStep bootRefs openThenCreate = .ok r ∧
      r.state 0 ≠ .unused ∧ r.cwd 0 = some ROOTINO ∧ r.state 1 ≠ .unused ∧
      r.cwd 1 = some ROOTINO ∧ r.iref ROOTINO = 1 := by
  refine ⟨_, rfl, ?_⟩
  decide +kernel

/-- After `thread_join` and `close` the file keeps the reference the thread took. -/
theorem joinThenClose_run :
    ∃ r, Machine.run refStep bootRefs (openThenCreate ++ joinThenClose) = .ok r ∧
      r.fref 0 = 1 ∧ fileHolders r 0 = 0 := by
  refine ⟨_, rfl, ?_⟩
  decide +kernel

/-- **The reference counts go wrong.**  After `thread_create` the root directory has fewer
references than the procs whose `cwd` it is; after `thread_join` and the last `close` the file
still has a reference and no descriptor points to it, so it is never closed. -/
theorem refcounts_broken :
    (∃ r, Machine.Reach refStep bootRefs r ∧ ¬ InodeRefsCover r) ∧
    (∃ r f, Machine.Reach refStep bootRefs r ∧ 0 < r.fref f ∧ fileHolders r f = 0 ∧
      ¬ FileRefsExact r) := by
  constructor
  · obtain ⟨r, hrun, h0, hc0, h1, hc1, href⟩ := openThenCreate_run
    refine ⟨r, Machine.reach_of_run hrun, fun hcover => ?_⟩
    have htwo := two_le_cwdHolders (by decide) ⟨h0, hc0⟩ ⟨h1, hc1⟩
    have := hcover ROOTINO
    rw [href] at this
    omega
  · obtain ⟨r, hrun, href, hheld⟩ := joinThenClose_run
    refine ⟨r, 0, Machine.reach_of_run hrun, by rw [href]; decide, hheld, fun hexact => ?_⟩
    have := hexact 0 (by rw [href]; decide)
    rw [href, hheld] at this
    cases this

end Xv6Kernel
