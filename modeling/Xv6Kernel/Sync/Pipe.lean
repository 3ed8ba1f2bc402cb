import Xv6Kernel.Lib.Machine
import Xv6Kernel.Lib.Ring

/-!
# The pipe (`pipe.c`: `pipewrite`, `piperead`, `pipeclose`)

One pipe, and procs that call `pipewrite` and `piperead` on it.  Every access to the pipe holds
`p->lock`, and the two calls give it up only in `sleep` (on `&p->nwrite` while the pipe is full,
on `&p->nread` while it is empty with the write end open) and when they return.  A call is thus
a sequence of sections, each atomic, from its start or a wakeup to its next sleep or its return.
A step here is one section of one proc (`Event.pipewrite` and `Event.piperead` start a call,
`Event.wake` resumes a sleeping one), a `kill` of a proc, or a `pipeclose` of one end.  A
sleeping proc may be resumed at any time: `wakeup` only makes it runnable, both calls test their
condition again after `sleep`, and a run with the wakeups in their places is one of the runs
here.

The state carries two histories beside the pipe: the bytes `pipewrite` has stored, in order,
and the bytes `piperead` has copied out, in order.

* `pipewriteLoop`, `piperead` : the sections of the two calls, with `pipewriteLoop_spec` and
  `piperead_spec` saying what each does to the bytes in the pipe;
* `Fifo` : the pipe holds at most `PIPESIZE` bytes (`nwrite - nread` as a `uint`), and the bytes
  read so far followed by the bytes in the pipe are the bytes written so far;
* `pipe_fifo` : `Fifo` holds in every state reachable from `pipealloc`, also after the counters
  wrap around `2 ^ 32`.

`pipealloc`'s allocation and `pipeclose`'s `kfree` of a pipe closed at both ends are not
modelled; `n` of `pipewrite` is the length of `addr`.
-/

namespace Xv6Kernel

/-- `PIPESIZE`. -/
def PIPESIZE : ℕ := 512

instance : NeZero PIPESIZE := ⟨by decide⟩

/-- `struct pipe`, without its lock. -/
structure Pipe where
  data : Fin PIPESIZE → UInt8
  /-- The number of bytes read. -/
  nread : UInt32
  /-- The number of bytes written. -/
  nwrite : UInt32
  /-- The read fd is still open. -/
  readopen : Bool
  /-- The write fd is still open. -/
  writeopen : Bool

namespace Pipe

/-- `p->data[p->nwrite++ % PIPESIZE] = b`. -/
def put (p : Pipe) (b : UInt8) : Pipe :=
  { p with data := Function.update p.data (Ring.cell p.nwrite.toNat) b, nwrite := p.nwrite + 1 }

/-- `p->data[p->nread++ % PIPESIZE]`: the byte, and the pipe after. -/
def get (p : Pipe) : UInt8 × Pipe :=
  (p.data (Ring.cell p.nread.toNat), { p with nread := p.nread + 1 })

/-- How a section of a call ends: the call returns a value, or it sleeps. -/
inductive Exit
  | returns (r : ℤ)
  | sleeps
  deriving DecidableEq, Repr

/-- The loop of `pipewrite(p, addr, n)` from a point where `p->lock` is held, over the bytes of
`addr` still to write, to the point where the call gives the lock up: the pipe, the bytes still
to write, and whether the call returns (`n` when every byte is written, `-1` when the pipe is
full and the read end closed or the proc killed) or sleeps on `&p->nwrite`. -/
def pipewriteLoop (killed : Bool) (n : ℤ) : Pipe → List UInt8 → Pipe × List UInt8 × Exit
  | p, [] => (p, [], .returns n)
  | p, b :: rest =>
    if p.nwrite = p.nread + UInt32.ofNat PIPESIZE then
      if !p.readopen || killed then (p, b :: rest, .returns (-1))
      else (p, b :: rest, .sleeps)
    else pipewriteLoop killed n (p.put b) rest

/-- The copy loop of `piperead`: up to `n` bytes, while the pipe is not empty. -/
def pipereadCopy : ℕ → Pipe → List UInt8 × Pipe
  | 0, p => ([], p)
  | n + 1, p =>
    if p.nread = p.nwrite then ([], p)
    else
      let (b, p) := p.get
      let (bs, p) := pipereadCopy n p
      (b :: bs, p)

/-- `piperead(p, addr, n)` from a point where `p->lock` is held to the point where it gives the
lock up: the pipe, the bytes copied to `addr`, and whether the call returns (`-1` when the proc
is killed while it waits, otherwise the number of bytes copied) or sleeps on `&p->nread`. -/
def piperead (killed : Bool) (n : ℕ) (p : Pipe) : Pipe × List UInt8 × Exit :=
  if p.nread = p.nwrite ∧ p.writeopen then
    if killed then (p, [], .returns (-1)) else (p, [], .sleeps)
  else
    let (bs, p) := pipereadCopy n p
    (p, bs, .returns bs.length)

/-- `pipeclose(p, writable)`. -/
def pipeclose (p : Pipe) (writable : Bool) : Pipe :=
  if writable then { p with writeopen := false } else { p with readopen := false }

/-! ### The bytes in the pipe -/

/-- The number of bytes in the pipe: `nwrite - nread` as a `uint`. -/
def count (p : Pipe) : ℕ := Ring.count p.nread p.nwrite

/-- The bytes in the pipe, oldest first. -/
def view (p : Pipe) : List UInt8 := Ring.view p.data p.nread p.nwrite

theorem size_dvd : PIPESIZE ∣ 2 ^ 32 := ⟨2 ^ 23, by decide⟩

theorem size_lt : PIPESIZE < 2 ^ 32 := by decide

/-- The full test of `pipewrite`. -/
theorem full_iff (p : Pipe) : p.nwrite = p.nread + UInt32.ofNat PIPESIZE ↔ p.count = PIPESIZE :=
  (Ring.count_eq_cap_iff size_lt).symm

/-- Storing a byte in a pipe that is not full adds it after the others. -/
theorem put_spec {p : Pipe} (h : p.count < PIPESIZE) (b : UInt8) :
    (p.put b).count = p.count + 1 ∧ (p.put b).view = p.view ++ [b] :=
  ⟨Ring.count_push size_lt h, Ring.view_push size_dvd size_lt p.data h b⟩

/-- The byte taken from a pipe that is not empty is its oldest. -/
theorem get_spec {p : Pipe} (h : p.nread ≠ p.nwrite) :
    p.get.1 :: p.get.2.view = p.view ∧ p.get.2.count + 1 = p.count :=
  ⟨(Ring.view_pop size_dvd p.data h).symm, Ring.count_pop h⟩

/-- A section of `pipewrite` stores a prefix of the bytes it has left, in order, and keeps the
pipe within `PIPESIZE` bytes. -/
theorem pipewriteLoop_spec (killed : Bool) (n : ℤ) :
    ∀ (p : Pipe) (rest : List UInt8), p.count ≤ PIPESIZE →
      ∃ pre, rest = pre ++ (pipewriteLoop killed n p rest).2.1 ∧
        (pipewriteLoop killed n p rest).1.view = p.view ++ pre ∧
        (pipewriteLoop killed n p rest).1.count ≤ PIPESIZE
  | p, [], hb => ⟨[], rfl, (List.append_nil _).symm, hb⟩
  | p, b :: rest, hb => by
    by_cases hfull : p.nwrite = p.nread + UInt32.ofNat PIPESIZE
    · -- full: the section returns or sleeps and stores nothing
      have hres : (pipewriteLoop killed n p (b :: rest)).1 = p ∧
          (pipewriteLoop killed n p (b :: rest)).2.1 = b :: rest := by
        rw [pipewriteLoop, if_pos hfull]
        split_ifs <;> exact ⟨rfl, rfl⟩
      rw [hres.1, hres.2]
      exact ⟨[], rfl, (List.append_nil _).symm, hb⟩
    · have hlt : p.count < PIPESIZE := lt_of_le_of_ne hb (mt (full_iff p).2 hfull)
      obtain ⟨hcount, hview⟩ := put_spec hlt b
      obtain ⟨pre, hrest, hv, hb'⟩ := pipewriteLoop_spec killed n (p.put b) rest (by omega)
      rw [pipewriteLoop, if_neg hfull]
      exact ⟨b :: pre, by rw [List.cons_append, ← hrest], by rw [hv, hview, List.append_assoc]; rfl,
        hb'⟩

/-- The copy loop of `piperead` takes the oldest bytes out of the pipe. -/
theorem pipereadCopy_spec : ∀ (n : ℕ) (p : Pipe),
    (pipereadCopy n p).1 ++ (pipereadCopy n p).2.view = p.view ∧
      (pipereadCopy n p).2.count ≤ p.count
  | 0, p => ⟨rfl, le_rfl⟩
  | n + 1, p => by
    by_cases hempty : p.nread = p.nwrite
    · simp [pipereadCopy, hempty]
    · obtain ⟨hview, hcount⟩ := get_spec hempty
      obtain ⟨hv, hc⟩ := pipereadCopy_spec n p.get.2
      simp only [pipereadCopy, if_neg hempty]
      exact ⟨by rw [List.cons_append, hv, hview], by omega⟩

/-- A section of `piperead` takes the bytes it copies from the front of the pipe. -/
theorem piperead_spec (killed : Bool) (n : ℕ) (p : Pipe) :
    (piperead killed n p).2.1 ++ (piperead killed n p).1.view = p.view ∧
      (piperead killed n p).1.count ≤ p.count := by
  unfold piperead
  split_ifs
  · exact ⟨rfl, le_rfl⟩
  · exact ⟨rfl, le_rfl⟩
  · exact pipereadCopy_spec n p

@[simp] theorem view_pipeclose (p : Pipe) (writable : Bool) : (p.pipeclose writable).view = p.view := by
  cases writable <;> rfl

@[simp] theorem count_pipeclose (p : Pipe) (writable : Bool) :
    (p.pipeclose writable).count = p.count := by
  cases writable <;> rfl

/-! ### Procs on the pipe -/

/-- Where a proc is in its calls on the pipe. -/
inductive At
  /-- In no call on the pipe. -/
  | outside
  /-- Asleep in `pipewrite(p, addr, n)` on `&p->nwrite`, with the bytes still to write. -/
  | writing (n : ℤ) (rest : List UInt8)
  /-- Asleep in `piperead(p, addr, n)` on `&p->nread`. -/
  | reading (n : ℕ)

/-- The pipe, where each proc is, which procs are killed, and the histories. -/
structure Sys (θ : Type*) where
  pipe : Pipe
  pos : θ → At
  killed : θ → Bool
  /-- The bytes `pipewrite` has stored, in order. -/
  written : List UInt8
  /-- The bytes `piperead` has copied out, in order. -/
  read : List UInt8

/-- A step of the system. -/
inductive Event (θ : Type*)
  /-- Proc `t`, in no call, calls `pipewrite(p, addr, n)` with `n` the length of `addr`. -/
  | pipewrite (t : θ) (addr : List UInt8)
  /-- Proc `t`, in no call, calls `piperead(p, addr, n)`. -/
  | piperead (t : θ) (n : ℕ)
  /-- Proc `t`, asleep in a call, is woken and runs on. -/
  | wake (t : θ)
  /-- `kill` of proc `t`. -/
  | kill (t : θ)
  /-- `pipeclose(p, writable)`. -/
  | pipeclose (writable : Bool)

variable {θ : Type*} [DecidableEq θ]

/-- Proc `t` runs a section of `pipewrite(p, addr, n)`, with the bytes `rest` still to write. -/
def Sys.runWrite (s : Sys θ) (t : θ) (n : ℤ) (rest : List UInt8) : Sys θ :=
  let (p, rest', e) := pipewriteLoop (s.killed t) n s.pipe rest
  { s with
    pipe := p
    pos := Function.update s.pos t
      (match e with
        | .returns _ => .outside
        | .sleeps => .writing n rest')
    written := s.written ++ rest.take (rest.length - rest'.length) }

/-- Proc `t` runs a section of `piperead(p, addr, n)`. -/
def Sys.runRead (s : Sys θ) (t : θ) (n : ℕ) : Sys θ :=
  let (p, bs, e) := piperead (s.killed t) n s.pipe
  { s with
    pipe := p
    pos := Function.update s.pos t
      (match e with
        | .returns _ => .outside
        | .sleeps => .reading n)
    read := s.read ++ bs }

/-- One step; an event the proc is not in a position to take changes nothing. -/
def step (s : Sys θ) : Event θ → Sys θ
  | .pipewrite t addr =>
    match s.pos t with
    | .outside => s.runWrite t addr.length addr
    | _ => s
  | .piperead t n =>
    match s.pos t with
    | .outside => s.runRead t n
    | _ => s
  | .wake t =>
    match s.pos t with
    | .writing n rest => s.runWrite t n rest
    | .reading n => s.runRead t n
    | .outside => s
  | .kill t => { s with killed := Function.update s.killed t true }
  | .pipeclose writable => { s with pipe := s.pipe.pipeclose writable }

/-- The pipe `pipealloc` makes on a page holding `data`, with no proc in a call. -/
def pipealloc (data : Fin PIPESIZE → UInt8) (killed : θ → Bool) : Sys θ :=
  ⟨⟨data, 0, 0, true, true⟩, fun _ => .outside, killed, [], []⟩

/-- The states reachable from `s₀`. -/
def Reachable (s₀ s : Sys θ) : Prop :=
  Machine.Reach (fun s e => (.ok (step s e) : Except Empty (Sys θ))) s₀ s

/-! ### The FIFO law -/

/-- **The FIFO law.**  At most `PIPESIZE` bytes are in the pipe, and the bytes read so far
followed by the bytes in the pipe are the bytes written so far. -/
structure Fifo (s : Sys θ) : Prop where
  bound : s.pipe.count ≤ PIPESIZE
  content : s.read ++ s.pipe.view = s.written

omit [DecidableEq θ] in
theorem fifo_pipealloc (data : Fin PIPESIZE → UInt8) (killed : θ → Bool) :
    Fifo (pipealloc data killed) := by
  have h0 : Ring.count (0 : UInt32) 0 = 0 := Ring.count_eq_zero_iff.2 rfl
  exact ⟨show Ring.count 0 0 ≤ PIPESIZE by rw [h0]; exact Nat.zero_le _,
    show [] ++ Ring.view data 0 0 = [] by rw [Ring.view, h0]; rfl⟩

theorem fifo_runWrite {s : Sys θ} (hs : Fifo s) (t : θ) (n : ℤ) (rest : List UInt8) :
    Fifo (s.runWrite t n rest) := by
  obtain ⟨pre, hrest, hview, hb⟩ := pipewriteLoop_spec (s.killed t) n s.pipe rest hs.bound
  refine ⟨hb, ?_⟩
  show s.read ++ (pipewriteLoop (s.killed t) n s.pipe rest).1.view =
    s.written ++ rest.take (rest.length - (pipewriteLoop (s.killed t) n s.pipe rest).2.1.length)
  -- the section stored `pre`, and the history grows by it
  generalize (pipewriteLoop (s.killed t) n s.pipe rest).2.1 = rest' at hrest ⊢
  subst hrest
  rw [List.length_append, Nat.add_sub_cancel, List.take_left' rfl, hview, ← List.append_assoc,
    hs.content]

theorem fifo_runRead {s : Sys θ} (hs : Fifo s) (t : θ) (n : ℕ) : Fifo (s.runRead t n) := by
  obtain ⟨hview, hcount⟩ := piperead_spec (s.killed t) n s.pipe
  refine ⟨hcount.trans hs.bound, ?_⟩
  show (s.read ++ (piperead (s.killed t) n s.pipe).2.1) ++ (piperead (s.killed t) n s.pipe).1.view =
    s.written
  rw [List.append_assoc, hview, hs.content]

/-- Every step keeps the FIFO law. -/
theorem fifo_step {s : Sys θ} (hs : Fifo s) (e : Event θ) : Fifo (step s e) := by
  cases e with
  | pipewrite t addr =>
    simp only [step]
    split
    · exact fifo_runWrite hs t _ addr
    · exact hs
  | piperead t n =>
    simp only [step]
    split
    · exact fifo_runRead hs t n
    · exact hs
  | wake t =>
    simp only [step]
    split
    · exact fifo_runWrite hs t _ _
    · exact fifo_runRead hs t _
    · exact hs
  | kill t => exact ⟨hs.bound, hs.content⟩
  | pipeclose writable =>
    show Fifo { s with pipe := s.pipe.pipeclose writable }
    exact ⟨by simpa using hs.bound, by simpa using hs.content⟩

/-- The FIFO law holds along every run from a state where it holds. -/
theorem fifo_reach {s₀ s : Sys θ} (h₀ : Fifo s₀) (h : Reachable s₀ s) : Fifo s :=
  Machine.Reach.invariant h h₀ fun s e s' hs hstep => by
    cases hstep
    exact fifo_step hs e

/-- Across the wrap: from counters at `2 ^ 32 - 1`, a write of two bytes and a read of two gives
back the two bytes. -/
example :
    let s₀ : Sys (Fin 2) := ⟨⟨fun _ => 0, 4294967295, 4294967295, true, true⟩, fun _ => .outside,
      fun _ => false, [], []⟩
    (step (step s₀ (.pipewrite 0 [7, 9])) (.piperead 1 2)).read = [7, 9] := by decide

end Pipe

/-- **Pipe FIFO law.**  In every state reachable from `pipealloc` by any interleaving of the
sections of `pipewrite` and `piperead` calls of any procs, with kills and closes: `nwrite - nread`
as a `uint` is at most `PIPESIZE`, and the bytes read so far are a prefix of the bytes written
so far, the rest of them being the bytes in the pipe, oldest first. -/
theorem pipe_fifo {θ : Type*} [DecidableEq θ] (data : Fin PIPESIZE → UInt8) (killed : θ → Bool)
    {s : Pipe.Sys θ} (h : Pipe.Reachable (Pipe.pipealloc data killed) s) :
    (s.pipe.nwrite - s.pipe.nread).toNat ≤ PIPESIZE ∧ s.read <+: s.written ∧
      s.read ++ Ring.view s.pipe.data s.pipe.nread s.pipe.nwrite = s.written := by
  have hf := Pipe.fifo_reach (Pipe.fifo_pipealloc data killed) h
  exact ⟨hf.bound, ⟨_, hf.content⟩, hf.content⟩

/-- Two procs on a new pipe: proc `false` writes three bytes, then proc `true` reads two. -/
def writeRead : Pipe.Sys Bool :=
  Pipe.step (Pipe.step (Pipe.pipealloc (fun _ => 0) fun _ => false) (.pipewrite false [1, 2, 3]))
    (.piperead true 2)

theorem pipe_fifo_writeRead :
    writeRead.read = [1, 2] ∧ writeRead.written = [1, 2, 3] ∧
      (writeRead.pipe.nwrite - writeRead.pipe.nread).toNat ≤ PIPESIZE ∧
      writeRead.read <+: writeRead.written ∧
      writeRead.read ++ Ring.view writeRead.pipe.data writeRead.pipe.nread writeRead.pipe.nwrite =
        writeRead.written :=
  ⟨by decide, by decide,
    pipe_fifo _ _ (Machine.Reach.tail _ (Machine.Reach.single _ rfl) rfl)⟩

end Xv6Kernel
