import Xv6Kernel.Lib.Chain
import Xv6Kernel.Lib.Except
import Xv6Kernel.Proc.State

/-!
# The MLFQ counts and the stride queue (`proc.c`)

The bookkeeping of the two schedulers:

* `mlfqrm`, `mlfqadd` : the per-level counts `qlevels` and their total `mlfq_proc_cnt`;
* `striderm`, `strideadd` : the stride queue, a list threaded through `s_link`, and its total
  share `stride_share`;
* `priboost`, `lowerlevel` : the level changes of `yield`;
* `setCpuShare` : the system call `set_cpu_share`.

The loops over the stride queue are `Chain.find` over `s_link`; a cyclic queue would make them
loop forever, which stops the model.
-/

namespace Xv6Kernel

namespace Mlfqstr

/-- Add `d` to `qlevels[l]`. -/
def addQlevel (m : Mlfqstr) (l : Fin 3) (d : ℤ) : Mlfqstr :=
  { m with qlevels := Function.update m.qlevels l (m.qlevels l + d) }

@[simp] theorem addQlevel_qlevels (m : Mlfqstr) (l l' : Fin 3) (d : ℤ) :
    (m.addQlevel l d).qlevels l' = if l' = l then m.qlevels l + d else m.qlevels l' := by
  simp [addQlevel, Function.update_apply]

@[simp] theorem addQlevel_mlfqProcCnt (m : Mlfqstr) (l : Fin 3) (d : ℤ) :
    (m.addQlevel l d).mlfqProcCnt = m.mlfqProcCnt := rfl

end Mlfqstr

/-- `mlfqrm(p)`: `p` leaves the MLFQ counts (the test `p->level >= 0` is always true of a
`uint`). -/
def mlfqrm (m : Mlfqstr) (p : Proc) : Mlfqstr :=
  let m := match levelIdx p.level with
    | some l => m.addQlevel l (-1)
    | none => m
  { m with mlfqProcCnt := m.mlfqProcCnt - 1 }

@[simp] theorem mlfqrm_strideShare (m : Mlfqstr) (p : Proc) :
    (mlfqrm m p).strideShare = m.strideShare := by
  unfold mlfqrm
  split <;> rfl

/-- `mlfqadd(p)`: `p` enters the MLFQ counts. -/
def mlfqadd (m : Mlfqstr) (p : Proc) : Mlfqstr :=
  let m := match levelIdx p.level with
    | some l => m.addQlevel l 1
    | none => m
  { m with mlfqProcCnt := m.mlfqProcCnt + 1 }

/-- `(int)(STRIDE_DIVIDEND / d + 0.5)`: the quotient truncates towards zero, and adding `0.5`
before the conversion to `int` moves a negative quotient one up.  A zero divisor is a divide
error in the kernel. -/
def strideOf (d : Int32) : Except String Int32 :=
  if d = 0 then .error "trap: divide error"
  else
    let q := STRIDE_DIVIDEND / d
    .ok (if q < 0 then q + 1 else q)

/-- The value `mlfq_stride` receives for a total stride share `ss`. -/
def mlfqStrideOf (ss : Int32) : Except String UInt32 :=
  (strideOf (100 - ss)).map Int32.toUInt32

namespace Kernel

/-- Apply `f` to `mlfqstr`. -/
def modMlfq (k : Kernel) (f : Mlfqstr → Mlfqstr) : Kernel := { k with mlfqstr := f k.mlfqstr }

@[simp] theorem modMlfq_mlfqstr (k : Kernel) (f : Mlfqstr → Mlfqstr) :
    (k.modMlfq f).mlfqstr = f k.mlfqstr := rfl

@[simp] theorem modMlfq_proc (k : Kernel) (f : Mlfqstr → Mlfqstr) :
    (k.modMlfq f).proc = k.proc := rfl

@[simp] theorem modMlfq_cpus (k : Kernel) (f : Mlfqstr → Mlfqstr) :
    (k.modMlfq f).cpus = k.cpus := rfl

/-- The `s_link` field, as the successor function of the stride queue. -/
def sNext (k : Kernel) (j : Slot) : Option Slot := (k.proc j).sLink

end Kernel

/-- `striderm(p)`: unlink `p` from the stride queue (at the head, or after the first node whose
`s_link` is `p`), give back its share and recompute `mlfq_stride`. -/
def striderm (k : Kernel) (i : Slot) : Except String Kernel := do
  let k ← if k.mlfqstr.strideHead = some i then
      pure (k.modMlfq fun m => { m with strideHead := (k.proc i).sLink })
    else
      match Chain.find k.sNext (fun j => (k.proc j).sLink = some i) NPROC k.mlfqstr.strideHead with
      | .error () => throw "striderm: the stride queue is cyclic"
      | .ok none => pure k
      | .ok (some j) => pure (k.setProc j { k.proc j with sLink := (k.proc i).sLink })
  let k := k.setProc i { k.proc i with sLink := none }
  let ss := k.mlfqstr.strideShare - (k.proc i).share
  let ms ← mlfqStrideOf ss
  let k := k.modMlfq fun m => { m with strideShare := ss, mlfqStride := ms }
  -- an empty stride queue restarts the MLFQ's pass
  pure (if k.mlfqstr.strideHead = none then k.modMlfq fun m => { m with mlfqPass := 0 } else k)

/-- `strideadd(p)`: push `p` at the front of the stride queue. -/
def strideadd (k : Kernel) (i : Slot) : Kernel :=
  (k.setProc i { k.proc i with sLink := k.mlfqstr.strideHead }).modMlfq
    fun m => { m with strideHead := some i }

/-- One iteration of the loop of `priboost`: a runnable MLFQ process goes back to level 2. -/
def priboostOne (k : Kernel) (i : Slot) : Except String Kernel :=
  let p := k.proc i
  if p.state = .runnable ∧ p.level ≠ STRIDE_LEVEL ∧ p.pid ≠ -1 then
    match levelIdx p.level with
    | none => .error "qlevels: index out of bounds"
    | some l =>
      .ok ((k.modMlfq fun m => (m.addQlevel l (-1)).addQlevel 2 1).setProc i
        { p with level := 2, timequant := 5, timeallot := 20, tickcount := 0 })
  else .ok k

/-- `priboost()`. -/
def priboost (k : Kernel) : Except String Kernel :=
  (List.finRange NPROC).foldlM priboostOne k

/-- `lowerlevel(p)`: a proc at level 1 or 2 moves one level down, with the time quantum and
allotment of the new level (level 0 keeps its allotment). -/
def lowerlevel (k : Kernel) (i : Slot) : Kernel :=
  let p := k.proc i
  match p.level with
  | 2 => (k.modMlfq fun m => (m.addQlevel 2 (-1)).addQlevel 1 1).setProc i
      { p with level := 1, tickcount := 0, timequant := 10, timeallot := 40 }
  | 1 => (k.modMlfq fun m => (m.addQlevel 1 (-1)).addQlevel 0 1).setProc i
      { p with level := 0, tickcount := 0, timequant := 20 }
  | _ => k

/-- The queue part of `set_cpu_share` for the proc in slot `i`: it leaves the MLFQ counts and
becomes the stride queue, or joins it, unless a member has its pid. -/
def strideJoin (k : Kernel) (i : Slot) : Except String Kernel :=
  let p := k.proc i
  match k.mlfqstr.strideHead with
  | none => pure (k.modMlfq fun m => { mlfqrm m p with strideHead := some i })
  | some h =>
    match Chain.find k.sNext (fun j => (k.proc j).pid = p.pid) NPROC (some h) with
    | .error () => throw "set_cpu_share: the stride queue is cyclic"
    | .ok (some _) => pure k
    | .ok none => pure (strideadd (k.modMlfq fun m => mlfqrm m p) i)

/-- `set_cpu_share(share)` by the proc in slot `i` running on CPU `c`: its result and the new
state.  The two error returns leave `ptable.lock` (and `mlfqstr.lock`) held by `c`.  The
admission test and the new total are `int` arithmetic, which wraps. -/
def setCpuShare (k : Kernel) (c : CpuId) (i : Slot) (share : Int32) :
    Except String (ℤ × Kernel) := do
  if share ≤ 0 then return (-1, { k with ptableLock := some c })
  if k.mlfqstr.strideShare + share > 80 then return (-1, { k with ptableLock := some c })
  let k ← strideJoin k i
  let ss := k.mlfqstr.strideShare + share
  let stride ← strideOf share
  let k := k.setProc i
    { k.proc i with share := share, stride := stride, level := STRIDE_LEVEL, timequant := 5 }
  let ms ← mlfqStrideOf ss
  return (0, k.modMlfq fun m => { m with strideShare := ss, mlfqStride := ms })

end Xv6Kernel
