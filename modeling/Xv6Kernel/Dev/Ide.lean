import Mathlib
import Xv6Kernel.Lib.Chain
import Xv6Kernel.Lib.Machine
import Xv6Kernel.Fs.Bcache
import Xv6Kernel.Fs.Layout
import Xv6Kernel.Fs.Ownership

/-!
# The disk driver (`ide.c`)

`iderw(b)` appends the buffer `b` to `idequeue`, the list of requests threaded through
`b->qnext`, starts the disk when `b` is first, and sleeps until the request is done: `B_VALID`
set and `B_DIRTY` clear.  The disk interrupts when it finishes a command, and `ideintr()` takes
the first request off the queue, copies in the sector it read (for a read), marks the buffer
done, and starts the disk on the next request.

The model is the driver's state under `idelock` and the disk with it.  Each event is one critical
section under `idelock`: `iderw` up to its first `sleep`; a holder woken in `iderw`'s loop
(`wake`); the disk finishing its command followed by `ideintr` (`intr`), or an interrupt with
the disk idle; and what the holder of a buffer does between calls, outside the driver: it fills
the data and sets `B_DIRTY` (`bwrite`, `log_write`), or `bget` gives the buffer another block.
`wakeup` is not modelled: a sleeper may run again at any time and test its flags, which covers
every wakeup, spurious ones included.  A buffer is named by its index in `bcache.buf`; its
holder (the process that holds `b->lock`, so `holdingsleep` holds) is the one that calls
`iderw(b)`, and whether it sleeps there is a ghost field.  Of `b->flags` the driver reads and
writes two bits, `B_VALID` and `B_DIRTY`, which are two `Bool`s.  The disk does not fail
(`idewait(1)` returns `0`), and the port I/O of `idewait` and `idestart` is the command it
records.

What callers promise (`Allowed`) is what `bio.c` gives them: `iderw` on a buffer whose request
is not done, of a block below `FSSIZE` and of a drive that is present, and no two buffers in use
at one disk sector.

* `Queue` : the list from `idequeue` ends, and holds the requests not done, the disk running the
  first one;
* `Inv.step` : every allowed event keeps `Queue`, the separation of buffers in use, and the
  coherence of a done buffer with its sector on the disk;
* `ide_safe` : from boot, in every state reached by allowed events, the queue is the list of
  pending requests without repeats, each done buffer holds what the disk holds, and no allowed
  event panics or spins for ever in the queue walk.
-/

namespace Xv6Kernel

namespace Ide

open Bcache (NBUF)

/-- `SECTOR_SIZE`. -/
def SECTOR_SIZE : ℕ := 512

/-- A command the disk runs: the drive and sector, and the data for a write (`outsl` in
`idestart`). -/
structure Cmd (D : Type) where
  loc : ℕ × ℕ
  write : Option D

/-- The fields of the buffers that the driver reads and writes, with the contents of a block of
type `D`; the driver's state; the disk's; and (ghost) which holders sleep in `iderw`. -/
structure Shared (D : Type) where
  /-- `B_VALID` in `b->flags`: the data has been read from the disk. -/
  valid : Fin NBUF → Bool
  /-- `B_DIRTY` in `b->flags`: the data needs to be written to the disk. -/
  dirty : Fin NBUF → Bool
  /-- `b->dev`. -/
  dev : Fin NBUF → ℕ
  /-- `b->blockno`. -/
  blockno : Fin NBUF → ℕ
  /-- `b->qnext`, `none` for `NULL`. -/
  qnext : Fin NBUF → Option (Fin NBUF)
  /-- `b->data`. -/
  data : Fin NBUF → D
  /-- `idequeue`. -/
  idequeue : Option (Fin NBUF)
  /-- `havedisk1`. -/
  havedisk1 : Bool
  /-- The sectors of the two drives. -/
  disk : ℕ × ℕ → D
  /-- The command the disk is running, `none` when it is idle. -/
  cmd : Option (Cmd D)
  /-- The holder of the buffer sleeps in `iderw`. -/
  asleep : Fin NBUF → Bool

variable {D : Type}

open Function

/-- `(b->flags & (B_VALID|B_DIRTY)) == B_VALID`: the request for the buffer is done. -/
def done (g : Shared D) (b : Fin NBUF) : Bool := g.valid b && !g.dirty b

/-- The drive and the sector of a buffer's block: `b->dev&1`, and the 28 bits of
`b->blockno * sector_per_block` that `idestart` writes to the ports. -/
def loc (g : Shared D) (b : Fin NBUF) : ℕ × ℕ :=
  (g.dev b % 2, g.blockno b * (BSIZE / SECTOR_SIZE) % 2 ^ 28)

/-- The command `idestart` gives the disk for a buffer. -/
def command (g : Shared D) (b : Fin NBUF) : Cmd D :=
  ⟨loc g b, if g.dirty b then some (g.data b) else none⟩

/-! ### The driver -/

/-- `idestart(b)`: the command for `b`, a write of its data when it is dirty. -/
def idestart (g : Shared D) (b : Fin NBUF) : Except String (Shared D) :=
  if FSSIZE ≤ g.blockno b then .error "incorrect blockno"
  else if 7 < BSIZE / SECTOR_SIZE then .error "idestart"
  else .ok { g with cmd := some (command g b) }

/-- `ideintr()`, with `port` the sector the disk read for the command it finished, which `insl`
copies in (`none` for an interrupt with the disk idle). -/
def ideintr (g : Shared D) (port : Option D) : Except String (Shared D) :=
  match g.idequeue with
  | none => .ok g
  | some b =>
    let g := { g with idequeue := g.qnext b }
    -- Read data if needed.
    let g := match port with
      | some d => if g.dirty b then g else { g with data := update g.data b d }
      | none => g
    let g := { g with valid := update g.valid b true, dirty := update g.dirty b false }
    -- Start disk on next buf in queue.
    match g.idequeue with
    | none => .ok g
    | some b' => idestart g b'

/-- The disk finishes its command (a write reaches the sector) and interrupts: `ideintr()`. -/
def intr (g : Shared D) : Except String (Shared D) :=
  match g.cmd with
  | none => ideintr g none
  | some c =>
    let disk := match c.write with
      | some d => update g.disk c.loc d
      | none => g.disk
    ideintr { g with disk := disk, cmd := none } (some (disk c.loc))

/-- `iderw(b)` up to its first `sleep`: the tests, `b` appended to `idequeue` by the loop
`for(pp=&idequeue; *pp; pp=&(*pp)->qnext)`, the disk started when `b` is first, and the test of
the loop that waits.  A queue that does not end within `NBUF` buffers never ends, and the loop
spins for ever. -/
def iderw (g : Shared D) (b : Fin NBUF) : Except String (Shared D) :=
  if done g b then .error "iderw: nothing to do"
  else if g.dev b ≠ 0 ∧ g.havedisk1 = false then .error "iderw: ide disk 1 not present"
  else
    -- Append b to idequeue.
    let g := { g with qnext := update g.qnext b none }
    match Chain.find g.qnext (fun x => (g.qnext x).isNone) NBUF g.idequeue with
    | .error () => .error "iderw: idequeue does not end"
    | .ok pp =>
      let g := match pp with
        | none => { g with idequeue := some b }
        | some last => { g with qnext := update g.qnext last (some b) }
      -- Start disk if necessary, then wait for the request to finish.
      (if g.idequeue = some b then idestart g b else .ok g).map fun g =>
        { g with asleep := update g.asleep b !(done g b) }

/-- The holder of `b`, asleep in `iderw`, runs again and tests its flags: it returns when the
request is done. -/
def wake (g : Shared D) (b : Fin NBUF) : Shared D :=
  { g with asleep := update g.asleep b !(done g b) }

/-- What happens to the driver and to the buffers. -/
inductive Event (D : Type)
  /-- The holder of `b` calls `iderw(b)`. -/
  | iderw (b : Fin NBUF)
  /-- The holder of `b` runs again in `iderw`. -/
  | wake (b : Fin NBUF)
  /-- The disk interrupts. -/
  | intr
  /-- The holder of `b` fills it with `d` and sets `B_DIRTY` (`bwrite`, `log_write`). -/
  | modify (b : Fin NBUF) (d : D)
  /-- `bget` recycles `b` for the block `blockno` of `dev`, with `b->flags = 0`. -/
  | recycle (b : Fin NBUF) (dev blockno : ℕ)

/-- One event. -/
def step (g : Shared D) : Event D → Except String (Shared D)
  | .iderw b => iderw g b
  | .wake b => .ok (wake g b)
  | .intr => intr g
  | .modify b d => .ok { g with data := update g.data b d, dirty := update g.dirty b true }
  | .recycle b dev blockno =>
    .ok { g with dev := update g.dev b dev, blockno := update g.blockno b blockno,
                 valid := update g.valid b false, dirty := update g.dirty b false }

/-- The buffers after `binit`, zeroed, with the disk image `disk`. -/
def boot (havedisk1 : Bool) (disk : ℕ × ℕ → D) (zero : D) : Shared D :=
  ⟨fun _ => false, fun _ => false, fun _ => 0, fun _ => 0, fun _ => none, fun _ => zero, none,
    havedisk1, disk, none, fun _ => false⟩

/-- The buffer is in use: valid or dirty, or its holder sleeps in `iderw`. -/
def InUse (g : Shared D) (b : Fin NBUF) : Prop :=
  g.valid b = true ∨ g.dirty b = true ∨ g.asleep b = true

/-- No other buffer in use is at the sector of `b`. -/
def Alone (g : Shared D) (b : Fin NBUF) : Prop :=
  ∀ b', b' ≠ b → loc g b' = loc g b → ¬ InUse g b'

/-- What the callers of the driver promise, as `bio.c` keeps it: `iderw` on a request that is
not done (`bread` calls it without `B_VALID`, `bwrite` sets `B_DIRTY` first), of a block on the
disk and a drive that is present; a buffer is filled or recycled by its holder out of `iderw`;
and only one buffer in use at a sector. -/
def Allowed (g : Shared D) : Event D → Prop
  | .iderw b => g.asleep b = false ∧ done g b = false ∧ (g.dev b = 0 ∨ g.havedisk1 = true) ∧
      g.blockno b < FSSIZE ∧ Alone g b
  | .wake b => g.asleep b = true
  | .intr => True
  | .modify b _ => g.asleep b = false ∧ Alone g b
  | .recycle b _ _ => g.asleep b = false

/-! ### The invariant -/

/-- `q` is the disk queue: the list from `idequeue`, holding the requests whose holders sleep in
`iderw` and that are not done, with the disk running the first one. -/
structure Queue (g : Shared D) (q : List (Fin NBUF)) : Prop where
  seg : Chain.Seg g.qnext g.idequeue q none
  mem_iff : ∀ b, b ∈ q ↔ g.asleep b = true ∧ done g b = false
  cmd : g.cmd = q.head?.map (command g)

/-- What the driver keeps of the buffers, whatever the queue: pending requests are of blocks on
the disk, buffers in use are at distinct sectors, and a done buffer holds what its sector holds. -/
structure Coherent (g : Shared D) : Prop where
  blockno : ∀ b, g.asleep b = true → done g b = false → g.blockno b < FSSIZE
  apart : ∀ b b', b ≠ b' → InUse g b → InUse g b' → loc g b ≠ loc g b'
  data : ∀ b, done g b = true → g.data b = g.disk (loc g b)

/-- The invariant: a disk queue, and the buffers coherent with the disk. -/
structure Inv (g : Shared D) : Prop where
  queue : ∃ q, Queue g q
  coherent : Coherent g

variable {g : Shared D} {q : List (Fin NBUF)} {b : Fin NBUF}

namespace Queue

theorem nodup (hq : Queue g q) : q.Nodup := hq.seg.nodup

theorem length_le (hq : Queue g q) : q.length ≤ NBUF := by
  simpa using hq.nodup.length_le_card

/-- A holder out of `iderw` has no request on the queue. -/
theorem not_mem (hq : Queue g q) (hb : g.asleep b = false) : b ∉ q := fun h => by
  simpa [hb] using ((hq.mem_iff b).1 h).1

/-- The disk runs the request of the first buffer, which nothing else changes: two states whose
commands agree on the queue have the same first command. -/
theorem head_command {g' : Shared D} (hb : ∀ x ∈ q, command g' x = command g x) :
    q.head?.map (command g') = q.head?.map (command g) := by
  cases q with
  | nil => rfl
  | cons x q => simp [hb x List.mem_cons_self]

end Queue

/-! ### One event at a time -/

/-- A block is one sector. -/
theorem sector_per_block : BSIZE / SECTOR_SIZE = 1 := by decide

/-- `idestart` of a pending request starts the disk on its command. -/
theorem idestart_ok (hb : g.blockno b < FSSIZE) :
    idestart g b = .ok { g with cmd := some (command g b) } := by
  rw [idestart, if_neg (Nat.not_le.2 hb), if_neg (by decide)]

/-- **`iderw` on an empty queue** puts `b` first and starts the disk on it. -/
theorem iderw_of_nil (hq : Queue g []) (ha : Allowed g (.iderw b)) :
    iderw g b = .ok { g with qnext := update g.qnext b none, idequeue := some b,
                             cmd := some (command g b), asleep := update g.asleep b true } := by
  obtain ⟨-, hdone, hdev, hblk, -⟩ := ha
  have hidq : g.idequeue = none := hq.seg.eq_of_nil
  have hdev' : ¬ (g.dev b ≠ 0 ∧ g.havedisk1 = false) := by
    rintro ⟨h₁, h₂⟩
    rcases hdev with h | h <;> simp_all
  have hd : (g.valid b && !g.dirty b) = false := hdone
  rw [iderw, if_neg (by simp [hdone]), if_neg hdev']
  simp only [hidq, Chain.find_none, if_pos, idestart, Nat.not_le.2 hblk, sector_per_block,
    if_false, Nat.reduceLT, Except.map, done, hd, Bool.not_false]
  rfl

/-- **`iderw` behind other requests** links `b` after the last one, and leaves the disk as it
is. -/
theorem iderw_of_last {c : Fin NBUF} (hq : Queue g q) (hc : q.getLast? = some c)
    (ha : Allowed g (.iderw b)) :
    iderw g b = .ok { g with qnext := update (update g.qnext b none) c (some b),
                             asleep := update g.asleep b true } := by
  obtain ⟨hsl, hdone, hdev, -, -⟩ := ha
  have hb : b ∉ q := hq.not_mem hsl
  have hdev' : ¬ (g.dev b ≠ 0 ∧ g.havedisk1 = false) := by
    rintro ⟨h₁, h₂⟩
    rcases hdev with h | h <;> simp_all
  have hd : (g.valid b && !g.dirty b) = false := hdone
  -- the walk runs over the queue with `b->qnext` cleared, and `b` is not on it
  have hseg : Chain.Seg (update g.qnext b none) g.idequeue q none :=
    hq.seg.congr fun x hx => update_of_ne (by rintro rfl; exact hb hx) _ _
  have hfind := hseg.find_last hq.length_le
  have hne : g.idequeue ≠ some b := by
    have hq0 : q ≠ [] := by
      rintro rfl
      simp at hc
    obtain ⟨x, q', rfl⟩ := List.exists_cons_of_ne_nil hq0
    rw [hq.seg.of_cons.1]
    intro h
    exact hb (Option.some.inj h ▸ List.mem_cons_self)
  rw [iderw, if_neg (by simp [hdone]), if_neg hdev']
  simp only [hfind, hc, hne, if_false, Except.map, done, hd, Bool.not_false]

/-- The disk has finished the command of `h`, the first request, and `ideintr` has taken it off
the queue and marked it done, before it starts the next one. -/
def finish (g : Shared D) (h : Fin NBUF) : Shared D :=
  { g with disk := if g.dirty h then update g.disk (loc g h) (g.data h) else g.disk,
           data := if g.dirty h then g.data else update g.data h (g.disk (loc g h)),
           cmd := none, idequeue := g.qnext h,
           valid := update g.valid h true, dirty := update g.dirty h false }

/-- An interrupt with an empty queue changes nothing. -/
theorem intr_of_nil (hq : Queue g []) : intr g = .ok g := by
  have hidq : g.idequeue = none := hq.seg.eq_of_nil
  have hcmd : g.cmd = none := by simpa using hq.cmd
  simp only [intr, hcmd, ideintr, hidq]

/-- **An interrupt finishes the first request** and starts the disk on the next one. -/
theorem intr_of_cons {h : Fin NBUF} {t : List (Fin NBUF)} (hq : Queue g (h :: t)) :
    intr g = match g.qnext h with
      | none => .ok (finish g h)
      | some b => idestart (finish g h) b := by
  have hidq : g.idequeue = some h := hq.seg.of_cons.1
  have hcmd : g.cmd = some (command g h) := by simpa using hq.cmd
  cases hd : g.dirty h <;> cases hn : g.qnext h <;>
    simp [intr, hcmd, command, hd, ideintr, hidq, hn, finish]

/-! ### The buffers stay coherent -/

namespace Coherent

/-- The coherence of the buffers does not read the command. -/
theorem with_cmd (hc : Coherent g) (c : Option (Cmd D)) : Coherent { g with cmd := c } :=
  ⟨hc.blockno, hc.apart, hc.data⟩

/-- Buffers in use stay apart when no buffer comes into use or moves. -/
theorem apart_of_le {g' : Shared D} (hc : Coherent g)
    (hle : ∀ x, InUse g' x → InUse g x ∧ loc g' x = loc g x) :
    ∀ x y, x ≠ y → InUse g' x → InUse g' y → loc g' x ≠ loc g' y := by
  intro x y hxy hx hy
  rw [(hle x hx).2, (hle y hy).2]
  exact hc.apart x y hxy (hle x hx).1 (hle y hy).1

/-- Buffers in use stay apart when only `b` comes into use, alone at its sector. -/
theorem apart_of_alone {g' : Shared D} (hc : Coherent g) (halone : Alone g b)
    (hloc : loc g' = loc g) (hin : ∀ x ≠ b, InUse g' x ↔ InUse g x) :
    ∀ x y, x ≠ y → InUse g' x → InUse g' y → loc g' x ≠ loc g' y := by
  intro x y hxy hx hy
  rw [hloc]
  by_cases hxb : x = b
  · subst hxb
    exact fun he => halone y hxy.symm he.symm ((hin y hxy.symm).1 hy)
  · by_cases hyb : y = b
    · subst hyb
      exact fun he => halone x hxy he ((hin x hxb).1 hx)
    · exact hc.apart x y hxy ((hin x hxb).1 hx) ((hin y hyb).1 hy)

/-- `iderw` puts the holder of `b` to sleep on a request of a block on the disk, alone at its
sector; whatever it does to the queue and the command, the buffers stay coherent. -/
theorem sleep (hc : Coherent g) (hblk : g.blockno b < FSSIZE) (halone : Alone g b)
    (Q : Fin NBUF → Option (Fin NBUF)) (I : Option (Fin NBUF)) (C : Option (Cmd D)) :
    Coherent { g with qnext := Q, idequeue := I, cmd := C, asleep := update g.asleep b true } := by
  refine ⟨fun x hx hd => ?_, hc.apart_of_alone halone rfl fun x hx => ?_, hc.data⟩
  · by_cases hxb : x = b
    · subst hxb
      exact hblk
    · exact hc.blockno x (by simpa [hxb] using hx) hd
  · simp [InUse, hx]

/-- A holder woken in `iderw` leaves the buffers coherent. -/
theorem wake (hc : Coherent g) (hb : g.asleep b = true) : Coherent (Ide.wake g b) := by
  have hsl : ∀ x, (Ide.wake g b).asleep x = true → g.asleep x = true := by
    intro x hx
    by_cases hxb : x = b
    · subst hxb
      exact hb
    · simpa [Ide.wake, hxb] using hx
  refine ⟨fun x hx hd => hc.blockno x (hsl x hx) hd, hc.apart_of_le fun x hx => ?_, hc.data⟩
  refine ⟨?_, rfl⟩
  rcases hx with hv | hd | ha
  · exact .inl hv
  · exact .inr (.inl hd)
  · exact .inr (.inr (hsl x ha))

/-- A holder out of `iderw` that fills its buffer, alone at its sector, leaves the buffers
coherent. -/
theorem modify (hc : Coherent g) (hsl : g.asleep b = false) (halone : Alone g b) (d : D) :
    Coherent { g with data := update g.data b d, dirty := update g.dirty b true } := by
  refine ⟨fun x hx hd => ?_, hc.apart_of_alone halone rfl fun x hx => ?_, fun x hd => ?_⟩
  · have hxb : x ≠ b := by
      rintro rfl
      simp [hsl] at hx
    exact hc.blockno x hx (by simpa [done, hxb] using hd)
  · simp [InUse, hx]
  · -- a dirty buffer is not done
    have hxb : x ≠ b := by
      rintro rfl
      simp [done] at hd
    simpa [hxb, loc] using hc.data x (by simpa [done, hxb] using hd)

/-- A buffer recycled out of `iderw` goes out of use, and the others stay coherent. -/
theorem recycle (hc : Coherent g) (hsl : g.asleep b = false) (dev blockno : ℕ) :
    Coherent { g with dev := update g.dev b dev, blockno := update g.blockno b blockno,
                      valid := update g.valid b false, dirty := update g.dirty b false } := by
  refine ⟨fun x hx hd => ?_, hc.apart_of_le fun x hx => ?_, fun x hd => ?_⟩
  · have hxb : x ≠ b := by
      rintro rfl
      simp [hsl] at hx
    simpa [hxb] using hc.blockno x hx (by simpa [done, hxb] using hd)
  · have hxb : x ≠ b := by
      rintro rfl
      simp [InUse, hsl] at hx
    exact ⟨by simpa [InUse, hxb] using hx, by simp [loc, hxb]⟩
  · have hxb : x ≠ b := by
      rintro rfl
      simp [done] at hd
    simpa [loc, hxb] using hc.data x (by simpa [done, hxb] using hd)

/-- **The disk's finishing a request keeps the buffers coherent**: a write reaches the sector
of the request, a read brings its sector in, and no other buffer in use is at that sector. -/
theorem finish {h : Fin NBUF} (hc : Coherent g) (hsl : g.asleep h = true) :
    Coherent (Ide.finish g h) := by
  have hin : ∀ x, InUse (Ide.finish g h) x → InUse g x ∧ loc (Ide.finish g h) x = loc g x := by
    intro x hx
    refine ⟨?_, rfl⟩
    by_cases hxh : x = h
    · subst hxh
      exact .inr (.inr hsl)
    · simpa [InUse, Ide.finish, hxh] using hx
  refine ⟨fun x hx hd => ?_, hc.apart_of_le hin, fun x hd => ?_⟩
  · have hxh : x ≠ h := by
      rintro rfl
      simp [Ide.finish, done] at hd
    exact hc.blockno x hx (by simpa [Ide.finish, done, hxh] using hd)
  · by_cases hxh : x = h
    · subst hxh
      cases hd' : g.dirty x <;> simp [Ide.finish, hd', loc]
    · have hdx : done g x = true := by simpa [Ide.finish, done, hxh] using hd
      have hne : loc g x ≠ loc g h :=
        hc.apart x h hxh (.inl (by simp [done] at hdx; exact hdx.1)) (.inr (.inr hsl))
      show (Ide.finish g h).data x = (Ide.finish g h).disk (loc g x)
      cases hd' : g.dirty h <;> simp [Ide.finish, hd', hxh, update_of_ne hne, hc.data x hdx]

end Coherent

/-! ### The queue, event by event -/

namespace Queue

/-- A change to a buffer whose holder is out of `iderw`, which leaves the links, the queue's
head, the command, the sleepers and the other buffers' requests as they are, leaves the queue as
it is. -/
theorem of_idle {g' : Shared D} (hq : Queue g q) (hsl : g.asleep b = false)
    (hnext : g'.qnext = g.qnext) (hidq : g'.idequeue = g.idequeue) (hcmd : g'.cmd = g.cmd)
    (hasl : g'.asleep = g.asleep) (hother : ∀ x ≠ b, done g' x = done g x ∧ command g' x = command g x) :
    Queue g' q := by
  have hb : b ∉ q := hq.not_mem hsl
  refine ⟨by rw [hnext, hidq]; exact hq.seg, fun x => ?_, ?_⟩
  · by_cases hxb : x = b
    · subst hxb
      simp [hb, hasl, hsl]
    · rw [hasl, (hother x hxb).1]
      exact hq.mem_iff x
  · rw [hcmd, hq.cmd]
    exact (head_command fun x hx => (hother x fun h => hb (h ▸ hx)).2).symm

/-- A woken holder leaves the queue when its request is done, and stays on it otherwise. -/
theorem wake (hq : Queue g q) (hb : g.asleep b = true) : Queue (Ide.wake g b) q := by
  refine ⟨hq.seg, fun x => ?_, hq.cmd⟩
  by_cases hxb : x = b
  · subst hxb
    rw [hq.mem_iff]
    show g.asleep x = true ∧ done g x = false ↔
      update g.asleep x (!done g x) x = true ∧ done g x = false
    cases done g x <;> simp [hb]
  · simpa [Ide.wake, hxb, done] using hq.mem_iff x

/-- After `iderw` on an empty queue, the request is the queue. -/
theorem iderw_nil (hq : Queue g []) (hdone : done g b = false) :
    Queue { g with qnext := update g.qnext b none, idequeue := some b,
                   cmd := some (command g b), asleep := update g.asleep b true } [b] := by
  refine ⟨?_, fun x => ?_, rfl⟩
  · show Chain.Seg (update g.qnext b none) (some b) [b] none
    exact .cons (by rw [update_self]; exact .nil none)
  · by_cases hxb : x = b
    · subst hxb
      simpa [done] using hdone
    · simpa [hxb, done] using hq.mem_iff x

/-- After `iderw` behind other requests, the request is last on the queue. -/
theorem iderw_last {c : Fin NBUF} (hq : Queue g q) (hc : q.getLast? = some c)
    (hsl : g.asleep b = false) (hdone : done g b = false) :
    Queue { g with qnext := update (update g.qnext b none) c (some b),
                   asleep := update g.asleep b true } (q ++ [b]) := by
  have hq0 : q ≠ [] := by
    rintro rfl
    simp at hc
  refine ⟨hq.seg.snoc_update (hq.not_mem hsl) hc, fun x => ?_, ?_⟩
  · show x ∈ q ++ [b] ↔ update g.asleep b true x = true ∧ done g x = false
    by_cases hxb : x = b
    · subst hxb
      simp [hdone]
    · simp [hxb, hq.mem_iff x]
  · show g.cmd = (q ++ [b]).head?.map (command g)
    rw [hq.cmd, List.head?_append_of_ne_nil _ hq0]

/-- **After an interrupt, the queue is the rest**: the first request is done and off it. -/
theorem finish {h : Fin NBUF} {t : List (Fin NBUF)} (hq : Queue g (h :: t))
    (c : Option (Cmd D)) (hc : c = t.head?.map (command (Ide.finish g h))) :
    Queue { Ide.finish g h with cmd := c } t := by
  have hh : h ∉ t := (List.nodup_cons.1 hq.nodup).1
  refine ⟨hq.seg.of_cons.2, fun x => ?_, hc⟩
  show x ∈ t ↔ g.asleep x = true ∧ done (Ide.finish g h) x = false
  by_cases hxh : x = h
  · subst hxh
    simp [hh, Ide.finish, done]
  · have hd : done (Ide.finish g h) x = done g x := by simp [Ide.finish, done, hxh]
    rw [hd, ← hq.mem_iff x, List.mem_cons, or_iff_right hxh]

end Queue

/-! ### The invariant over every run -/

namespace Inv

/-- **`iderw`** on an allowed request does not panic, and keeps the invariant. -/
theorem iderw (hi : Inv g) (ha : Allowed g (.iderw b)) :
    ∃ g', Ide.iderw g b = .ok g' ∧ Inv g' := by
  obtain ⟨q, hq⟩ := hi.queue
  have hcoh := hi.coherent.sleep ha.2.2.2.1 ha.2.2.2.2
  cases hl : q.getLast? with
  | none =>
    obtain rfl : q = [] := List.getLast?_eq_none_iff.1 hl
    exact ⟨_, iderw_of_nil hq ha, ⟨[b], hq.iderw_nil ha.2.1⟩, hcoh _ _ _⟩
  | some c =>
    exact ⟨_, iderw_of_last hq hl ha, ⟨q ++ [b], hq.iderw_last hl ha.1 ha.2.1⟩,
      hcoh _ g.idequeue g.cmd⟩

/-- **An interrupt with `h` first on the queue** does not panic: it finishes `h`, leaves the rest
of the queue, changes no other buffer's flags, and keeps the invariant.  The request it starts
next is of a block on the disk, as `iderw` checked. -/
theorem intr_cons {h : Fin NBUF} {t : List (Fin NBUF)} (hi : Inv g) (hq : Queue g (h :: t)) :
    ∃ g', Ide.intr g = .ok g' ∧ Inv g' ∧ Queue g' t ∧ done g' h = true ∧
      ∀ x ≠ h, done g' x = done g x := by
  have hh := (hq.mem_iff h).1 List.mem_cons_self
  have hcoh := hi.coherent.finish hh.1
  have hseg := hq.seg.of_cons.2
  have hdone : done (Ide.finish g h) h = true := by simp [Ide.finish, done]
  have hother : ∀ x ≠ h, done (Ide.finish g h) x = done g x := fun x hx => by
    simp [Ide.finish, done, hx]
  rw [intr_of_cons hq]
  cases t with
  | nil =>
    rw [hseg.eq_of_nil]
    exact ⟨_, rfl, ⟨⟨[], hq.finish none rfl⟩, hcoh⟩, hq.finish none rfl, hdone, hother⟩
  | cons b t =>
    -- the next request is pending, so of a block on the disk
    have hb := (hq.mem_iff b).1 (List.mem_cons_of_mem _ List.mem_cons_self)
    have hblk : (Ide.finish g h).blockno b < FSSIZE := hi.coherent.blockno b hb.1 hb.2
    rw [hseg.of_cons.1]
    exact ⟨_, idestart_ok hblk, ⟨⟨b :: t, hq.finish _ rfl⟩, hcoh.with_cmd _⟩, hq.finish _ rfl,
      hdone, hother⟩

/-- An interrupt does not panic, and keeps the invariant. -/
theorem intr (hi : Inv g) : ∃ g', Ide.intr g = .ok g' ∧ Inv g' := by
  obtain ⟨q, hq⟩ := hi.queue
  cases q with
  | nil => exact ⟨g, intr_of_nil hq, hi⟩
  | cons h t =>
    obtain ⟨g', hs, hi', -⟩ := hi.intr_cons hq
    exact ⟨g', hs, hi'⟩

/-- **Interrupts serve the queue in order**: `k` of them finish the first `k` requests, leave the
rest queued, and change the flags of no other buffer.  The induction is on `k`, one request
finished by each interrupt. -/
theorem run_intr : ∀ (k : ℕ) {g : Shared D} {q : List (Fin NBUF)}, Inv g → Queue g q →
    k ≤ q.length → ∃ g', Machine.run Ide.step g (List.replicate k .intr) = .ok g' ∧ Inv g' ∧
      Queue g' (q.drop k) ∧ ∀ x, done g' x = if x ∈ q.take k then true else done g x
  | 0, g, q, hi, hq, _ => ⟨g, rfl, hi, by simpa using hq, fun x => by simp⟩
  | k + 1, g, [], _, _, hk => by simp at hk
  | k + 1, g, h :: t, hi, hq, hk => by
    obtain ⟨g₁, hs, hi₁, hq₁, hh, hx⟩ := hi.intr_cons hq
    obtain ⟨g', hrun, hi', hq', hd⟩ := run_intr k hi₁ hq₁ (by simpa using hk)
    refine ⟨g', ?_, hi', by simpa using hq', fun x => ?_⟩
    · rw [List.replicate_succ, Machine.run_cons]
      show (Ide.intr g).bind _ = _
      rw [hs]
      exact hrun
    · rw [hd x]
      by_cases hxh : x = h
      · -- `h` is not queued again behind itself, so it stays done
        subst hxh
        have hnot : x ∉ t.take k := fun hm =>
          (List.nodup_cons.1 hq.nodup).1 (List.mem_of_mem_take hm)
        simp [hnot, hh]
      · simp [hxh, hx x hxh]

/-- **Every allowed event** succeeds and keeps the invariant. -/
theorem step (hi : Inv g) {a : Event D} (ha : Allowed g a) :
    ∃ g', Ide.step g a = .ok g' ∧ Inv g' := by
  obtain ⟨q, hq⟩ := hi.queue
  cases a with
  | iderw b => exact hi.iderw ha
  | wake b => exact ⟨_, rfl, ⟨q, hq.wake ha⟩, hi.coherent.wake ha⟩
  | intr => exact hi.intr
  | modify b d =>
    refine ⟨_, rfl, ⟨q, hq.of_idle ha.1 rfl rfl rfl rfl fun x hx => ?_⟩,
      hi.coherent.modify ha.1 ha.2 d⟩
    simp [done, command, loc, hx]
  | recycle b dev blockno =>
    refine ⟨_, rfl, ⟨q, hq.of_idle ha rfl rfl rfl rfl fun x hx => ?_⟩,
      hi.coherent.recycle ha dev blockno⟩
    simp [done, command, loc, hx]

theorem boot (havedisk1 : Bool) (disk : ℕ × ℕ → D) (zero : D) :
    Inv (Ide.boot havedisk1 disk zero) := by
  refine ⟨⟨[], .nil none, fun x => by simp [Ide.boot], rfl⟩, ⟨?_, ?_, ?_⟩⟩
  · simp [Ide.boot]
  · simp [InUse, Ide.boot]
  · simp [done, Ide.boot]

/-- The invariant holds in every state reached from boot by allowed events. -/
theorem reach {havedisk1 : Bool} {disk : ℕ × ℕ → D} {zero : D}
    (hg : Machine.ReachAllowed Ide.step Allowed (Ide.boot havedisk1 disk zero) g) : Inv g :=
  hg.invariant (boot havedisk1 disk zero) fun _ _ _ hi ha hs => by
    obtain ⟨g', hs', hi'⟩ := hi.step ha
    rw [hs] at hs'
    cases hs'
    exact hi'

end Inv

/-- **The disk driver is safe.**  From boot, in every state reached by events that keep the
callers' promise: the list from `idequeue` ends and meets no buffer twice, it holds exactly the
requests whose holders sleep in `iderw` and that are not done, and the disk runs the command of
the first; every done buffer holds what its sector on the disk holds; and no allowed event
panics or spins for ever in `iderw`'s walk of the queue. -/
theorem ide_safe (havedisk1 : Bool) (disk : ℕ × ℕ → D) (zero : D) (g : Shared D)
    (hg : Machine.ReachAllowed step Allowed (boot havedisk1 disk zero) g) :
    (∃ q, Chain.Seg g.qnext g.idequeue q none ∧ q.Nodup ∧
      (∀ b, b ∈ q ↔ g.asleep b = true ∧ done g b = false) ∧ g.cmd = q.head?.map (command g)) ∧
    (∀ b, done g b = true → g.data b = g.disk (loc g b)) ∧
    ∀ a, Allowed g a → ∃ g', step g a = .ok g' := by
  have hi := Inv.reach hg
  obtain ⟨q, hq⟩ := hi.queue
  exact ⟨⟨q, hq.seg, hq.nodup, hq.mem_iff, hq.cmd⟩, hi.coherent.data,
    fun a ha => (hi.step ha).imp fun _ h => h.1⟩

/-- At boot, with both drives, an interrupt of the idle disk does not panic. -/
theorem ide_safe_boot : ∃ g', step (boot true (fun _ => (0 : ℕ)) 0) .intr = .ok g' :=
  (ide_safe true (fun _ => (0 : ℕ)) 0 _ .refl).2.2 .intr trivial

/-- **The disk serves requests in the order `iderw` queued them.**  In every state reached from
boot by allowed events, with the queue `q`, `k ≤ |q|` interrupts and nothing else finish exactly
the first `k` requests of `q`: they are done, the other buffers' flags are as they were, and the
rest of `q` is still the queue, in the same order. -/
theorem ide_fifo (havedisk1 : Bool) (disk : ℕ × ℕ → D) (zero : D) (g : Shared D)
    (hg : Machine.ReachAllowed step Allowed (boot havedisk1 disk zero) g) (q : List (Fin NBUF))
    (hq : Queue g q) (k : ℕ) (hk : k ≤ q.length) :
    ∃ g', Machine.run step g (List.replicate k .intr) = .ok g' ∧ Queue g' (q.drop k) ∧
      ∀ x, done g' x = if x ∈ q.take k then true else done g x := by
  obtain ⟨g', hrun, -, hq', hd⟩ := Inv.run_intr k (Inv.reach hg) hq hk
  exact ⟨g', hrun, hq', hd⟩

/-- Buffer `0`, recycled for block `5` of the root device and read: its request is the queue,
and one interrupt finishes it. -/
theorem ide_fifo_oneRead : ∃ g : Shared ℕ,
    Machine.ReachAllowed step Allowed (boot true (fun _ => 0) 0) g ∧ Queue g [0] ∧
      ∃ g', Machine.run step g [.intr] = .ok g' ∧ Queue g' [] ∧ done g' 0 = true := by
  let g₁ : Shared ℕ :=
    { boot true (fun _ => 0) 0 with dev := update (fun _ => 0) 0 1,
                                    blockno := update (fun _ => 0) 0 5,
                                    valid := update (fun _ => false) 0 false,
                                    dirty := update (fun _ => false) 0 false }
  have hq₁ : Queue g₁ [] := ⟨.nil none, fun x => by simp [g₁, boot], rfl⟩
  have ha : Allowed g₁ (.iderw 0) := by
    refine ⟨rfl, by simp [g₁, done], .inr rfl, by simp [g₁, FSSIZE], fun b' _ _ hb' => ?_⟩
    rcases hb' with h | h | h <;> simp [g₁, boot] at h
  have hg : Machine.ReachAllowed step Allowed (boot true (fun _ => 0) 0) _ :=
    .tail (.iderw 0) (.tail (.recycle 0 1 5) .refl rfl rfl) ha (iderw_of_nil hq₁ ha)
  have hq := hq₁.iderw_nil (show done g₁ 0 = false by simp [g₁, done])
  obtain ⟨g', hrun, hq', hd⟩ := ide_fifo true (fun _ => 0) 0 _ hg [0] hq 1 (by decide)
  exact ⟨_, hg, hq, g', hrun, hq', by simpa using hd 0⟩

end Ide

end Xv6Kernel
