import Xv6Kernel.Proc.State

/-!
# The user memory the project's system calls touch (`syscall.c`, `syssemaphore.c`,
`sysrwlock.c`, `syslwp.c`, `sysfile.c`)

A system call's arguments are words on the caller's user stack, above the saved `esp`.
`fetchint`, `argint` and `argptr` read them, and `argptr` checks that a pointer argument and the
`size` bytes after it lie below the caller's `sz`.  Each handler is given here by the ranges of
user memory it reads or writes on the caller's behalf (`Access`): the semaphore, the rwlock,
the `thread_t`, the `retval` slot or the I/O buffer, field by field as the kernel functions it
calls touch them (`i386` sizes).  A handler that returns `-1` before it touches an object
touches nothing.

* `argptr_confined` : below `KERNBASE`, a range that `argptr` accepts lies in `[0, sz)`.
* `posCall_confined` : `pread` and `pwrite` touch only the buffer `argptr` checked.
* `user_pointers_escape` : the semaphore calls cast an `int` argument to a pointer with no check,
  the rwlock calls and `thread_create` check 4 bytes of larger objects, and `thread_join` writes
  through a pointer read from the stack with no check: each touches memory outside `[0, sz)`,
  and the semaphore calls and `thread_join` touch kernel memory.
-/

namespace Xv6Kernel

/-- The calling proc as the argument checks see it. -/
structure Caller where
  /-- `curproc->sz`. -/
  sz : ℕ
  /-- `curproc->ustack`. -/
  ustack : ℕ
  /-- `curproc->tf->esp`. -/
  esp : ℕ
  /-- The 32-bit word at each user address. -/
  word : ℕ → UInt32

/-- `len` bytes at `addr`, read or written by the kernel for the caller. -/
structure Access where
  addr : ℕ
  len : ℕ
  deriving DecidableEq, Repr

/-- A sum of `uint`s. -/
def u32 (n : ℕ) : ℕ := n % 2 ^ 32

/-- A word as an `int`. -/
def toInt32 (w : ℕ) : ℤ := if w < 2 ^ 31 then w else (w : ℤ) - 2 ^ 32

/-- `sizeof(struct spinlock)`: `locked`, `name`, `cpu`, `pcs[10]`. -/
def SPINLOCK_SIZE : ℕ := 52

/-- The offset of `lock` in `xem_t`, after `value` and `chan`. -/
def XEM_LOCK : ℕ := 8

/-- `sizeof(xem_t)`, the offset of `writelock` in `rwlock_t`. -/
def XEM_SIZE : ℕ := 60

/-- The offset of `readers` in `rwlock_t`, after `lock` and `writelock`. -/
def RW_READERS : ℕ := 120

/-- `sizeof` a pointer. -/
def PTR_SIZE : ℕ := 4

namespace Caller

/-- `fetchint(addr, ip)`. -/
def fetchint (p : Caller) (addr : ℕ) : Option ℕ :=
  if addr ≥ p.sz ∨ u32 (addr + 4) > p.sz then none else some (p.word addr).toNat

/-- `argint(n, ip)`. -/
def argint (p : Caller) (n : ℕ) : Option ℕ :=
  p.fetchint (u32 (p.esp + 4 + 4 * n))

/-- `argptr(n, pp, size)`. -/
def argptr (p : Caller) (n : ℕ) (size : ℤ) : Option ℕ := do
  let i ← p.argint n
  if size < 0 ∨ i ≥ p.sz ∨ u32 (i + size.toNat) > p.sz then none else some i

end Caller

/-- Every range lies in the caller's address space `[0, sz)`. -/
def Confined (p : Caller) (acc : List Access) : Prop :=
  ∀ x ∈ acc, x.addr + x.len ≤ p.sz

instance (p : Caller) (acc : List Access) : Decidable (Confined p acc) :=
  inferInstanceAs (Decidable (∀ x ∈ acc, _))

/-! ### What the kernel functions touch -/

/-- `xem_init(s)`: `value`, `chan`, and `name`, `locked`, `cpu` of the lock in `initlock`. -/
def xemInitFields (a : ℕ) : List Access :=
  [⟨a, 4⟩, ⟨a + 4, 4⟩, ⟨a + XEM_LOCK, 12⟩]

/-- `xem_wait(s)` and `xem_post(s)`: `value`, and the whole lock in `acquire` and `release`. -/
def xemLockFields (a : ℕ) : List Access :=
  [⟨a, 4⟩, ⟨a + XEM_LOCK, SPINLOCK_SIZE⟩]

/-- `rwlock_init(rw)`. -/
def rwlockInitFields (i : ℕ) : List Access :=
  ⟨i + RW_READERS, 4⟩ :: xemInitFields i ++ xemInitFields (i + XEM_SIZE)

/-- `rwlock_acquire_readlock(rw)`: the first reader also waits on `writelock`; `readers` is the
word the caller's memory holds. -/
def rwlockAcquireReadFields (readers : ℤ) (i : ℕ) : List Access :=
  xemLockFields i ++ [⟨i + RW_READERS, 4⟩] ++
    (if readers + 1 = 1 then xemLockFields (i + XEM_SIZE) else []) ++ xemLockFields i

/-- `rwlock_release_readlock(rw)`: the last reader posts `writelock`. -/
def rwlockReleaseReadFields (readers : ℤ) (i : ℕ) : List Access :=
  xemLockFields i ++ [⟨i + RW_READERS, 4⟩] ++
    (if readers - 1 = 0 then xemLockFields (i + XEM_SIZE) else []) ++ xemLockFields i

/-- `rwlock_acquire_writelock(rw)` and `rwlock_release_writelock(rw)`: `writelock` only. -/
def rwlockWriteFields (i : ℕ) : List Access :=
  xemLockFields (i + XEM_SIZE)

/-! ### The handlers -/

/-- The semaphore calls: the first argument, an `int`, is the `xem_t*`. -/
def xemCall (fields : ℕ → List Access) (p : Caller) : List Access :=
  match p.argint 0 with
  | none => []
  | some a => fields a

/-- `sys_xem_init`. -/
def sysXemInit : Caller → List Access := xemCall xemInitFields

/-- `sys_xem_wait`. -/
def sysXemWait : Caller → List Access := xemCall xemLockFields

/-- `sys_xem_post`. -/
def sysXemPost : Caller → List Access := xemCall xemLockFields

/-- The rwlock calls: `argptr(0, &rwlock, sizeof(rwlock))`, where `rwlock` is a `rwlock_t*`.
The body is given the word at `readers`. -/
def rwlockCall (body : ℤ → ℕ → List Access) (p : Caller) : List Access :=
  match p.argptr 0 PTR_SIZE with
  | none => []
  | some i => body (toInt32 (p.word (i + RW_READERS)).toNat) i

/-- `sys_rwlock_init`. -/
def sysRwlockInit : Caller → List Access := rwlockCall fun _ => rwlockInitFields

/-- `sys_rwlock_acquire_readlock`. -/
def sysRwlockAcquireReadlock : Caller → List Access := rwlockCall rwlockAcquireReadFields

/-- `sys_rwlock_release_readlock`. -/
def sysRwlockReleaseReadlock : Caller → List Access := rwlockCall rwlockReleaseReadFields

/-- `sys_rwlock_acquire_writelock`. -/
def sysRwlockAcquireWritelock : Caller → List Access := rwlockCall fun _ => rwlockWriteFields

/-- `sys_rwlock_release_writelock`. -/
def sysRwlockReleaseWritelock : Caller → List Access := rwlockCall fun _ => rwlockWriteFields

/-- The five rwlock calls. -/
def rwlockHandlers : List (Caller → List Access) :=
  [sysRwlockInit, sysRwlockAcquireReadlock, sysRwlockReleaseReadlock, sysRwlockAcquireWritelock,
   sysRwlockReleaseWritelock]

/-- `sys_thread_create`: `argptr(0, &thread, sizeof(thread))` with `thread` a `thread_t*`, then
the start routine and the argument, 4 bytes each.  When `thread_create` succeeds (`created`) it
writes `thread_id` and `group_id` of the `thread_t`. -/
def sysThreadCreate (p : Caller) (created : Bool) : List Access :=
  match p.argptr 0 PTR_SIZE, p.argptr 1 4, p.argptr 2 4 with
  | some t, some _, some _ => if created then [⟨t, 4⟩, ⟨t + 4, 4⟩] else []
  | _, _, _ => []

/-- `sys_thread_join`: the `thread_t` and the `retval` pointer are read from the stack above
`esp`, checked against `ustack`; when `thread_join` finds the thread (`joined`) it writes
`*retval`. -/
def sysThreadJoin (p : Caller) (joined : Bool) : List Access :=
  let addr := u32 (p.esp + 4)
  if addr ≥ p.ustack ∨ u32 (addr + 8) > p.ustack then []
  else
    let addr' := u32 (addr + 8)
    if addr' ≥ p.ustack ∨ u32 (addr' + 4) > p.ustack then [⟨addr, 8⟩]
    else [⟨addr, 8⟩, ⟨addr', 4⟩] ++ (if joined then [⟨(p.word addr').toNat, 4⟩] else [])

/-- `sys_pread` and `sys_pwrite`: `argfd(0)` (`fdOk`), `argint(2, &n)`, `argptr(1, &addr, n)`,
`argint(3, &off)`; `readi` or `writei` then touches at most the `n` bytes at `addr`. -/
def posCall (p : Caller) (fdOk : Bool) : List Access :=
  if fdOk then
    match p.argint 2 with
    | none => []
    | some w =>
      match p.argptr 1 (toInt32 w), p.argint 3 with
      | some a, some _ => [⟨a, (toInt32 w).toNat⟩]
      | _, _ => []
  else []

/-- `sys_pread`. -/
def sysPread : Caller → Bool → List Access := posCall

/-- `sys_pwrite`. -/
def sysPwrite : Caller → Bool → List Access := posCall

/-! ### What `argptr` checks -/

theorem toInt32_lt {w : ℕ} (hw : w < 2 ^ 32) : toInt32 w < 2 ^ 31 := by
  unfold toInt32
  split_ifs with h
  · exact_mod_cast h
  · omega

/-- An argument is a 32-bit word. -/
theorem argint_lt {p : Caller} {n w : ℕ} (h : p.argint n = some w) : w < 2 ^ 32 := by
  unfold Caller.argint Caller.fetchint at h
  split_ifs at h
  cases h
  exact UInt32.toNat_lt _

/-- The range `argptr` accepts lies in `[0, sz)` when `sz` is at most `KERNBASE`: the sum it
checks cannot wrap. -/
theorem argptr_confined {p : Caller} {n : ℕ} {size : ℤ} {i : ℕ} (hsz : p.sz ≤ KERNBASE)
    (hsize : size < 2 ^ 31) (h : p.argptr n size = some i) : i + size.toNat ≤ p.sz := by
  obtain ⟨j, -, hj⟩ := Option.bind_eq_some_iff.1 h
  split_ifs at hj with hcheck
  cases hj
  simp only [not_or, not_lt, not_le] at hcheck
  obtain ⟨-, hi, hwrap⟩ := hcheck
  -- `i < sz ≤ 2^31` and `size < 2^31`, so `i + size < 2^32`
  have hlt : i + size.toNat < 2 ^ 32 := by
    unfold KERNBASE at hsz
    omega
  rwa [u32, Nat.mod_eq_of_lt hlt] at hwrap

/-- **`pread` and `pwrite` are confined** to the caller's address space. -/
theorem posCall_confined (p : Caller) (fdOk : Bool) (hsz : p.sz ≤ KERNBASE) :
    Confined p (posCall p fdOk) := by
  intro x hx
  unfold posCall at hx
  split_ifs at hx
  · split at hx
    · cases hx
    · rename_i w hw
      split at hx
      · rename_i a _ ha _
        rw [List.mem_singleton] at hx
        subst hx
        exact argptr_confined hsz (toInt32_lt (argint_lt hw)) ha
      · cases hx
  · cases hx

/-! ### Pointers that escape -/

/-- A caller whose first argument is `KERNBASE`, or `sz - 4`: a 4096-byte address space with the
arguments at `esp = 0`. -/
def pointingAt (a : ℕ) : Caller where
  sz := PGSIZE
  ustack := PGSIZE
  esp := 0
  word := fun x => if x = 4 ∨ x = 12 then UInt32.ofNat a else 0

/-- **System calls touch memory outside the caller's address space.**  One caller makes all
three semaphore calls touch kernel memory; one makes all five rwlock calls and `thread_create`
touch memory past `sz`; and `thread_join` writes kernel memory through a `retval` read from the
stack. -/
theorem user_pointers_escape :
    (∃ p, p.sz ≤ KERNBASE ∧
      ∀ h ∈ [sysXemInit, sysXemWait, sysXemPost], ∃ x ∈ h p, KERNBASE ≤ x.addr) ∧
    (∃ p, p.sz ≤ KERNBASE ∧
      (∀ h ∈ rwlockHandlers, ¬ Confined p (h p)) ∧ ¬ Confined p (sysThreadCreate p true)) ∧
    (∃ p, p.sz ≤ KERNBASE ∧ ∃ x ∈ sysThreadJoin p true, KERNBASE ≤ x.addr) := by
  refine ⟨⟨pointingAt KERNBASE, by decide, ?_⟩, ⟨pointingAt (PGSIZE - 4), by decide, ?_, ?_⟩,
    ⟨pointingAt KERNBASE, by decide, ?_⟩⟩
  · intro h hh
    simp only [List.mem_cons, List.not_mem_nil, or_false] at hh
    rcases hh with rfl | rfl | rfl <;> exact ⟨⟨KERNBASE, 4⟩, by decide, le_rfl⟩
  · intro h hh
    simp only [rwlockHandlers, List.mem_cons, List.not_mem_nil, or_false] at hh
    rcases hh with rfl | rfl | rfl | rfl | rfl <;> decide
  · decide
  · exact ⟨⟨KERNBASE, 4⟩, by decide, le_rfl⟩

end Xv6Kernel
