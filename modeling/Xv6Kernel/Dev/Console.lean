import Mathlib
import Xv6Kernel.Lib.Ring

/-!
# The console's input line discipline (`console.c`: `consoleintr`, `consoleread`)

The keyboard and the serial port interrupt into `consoleintr`, which edits the typed line in
`input.buf`, a ring of `INPUT_BUF` bytes with three free-running `uint` indexes: the bytes from
`r` to `w` are committed lines not yet read, those from `w` to `e` the line being edited.
Backspace takes back the last byte of the line, `C('U')` kills the line, and a newline, a
`C('D')` or a full buffer commits it (`w = e`).  `consoleread` takes committed bytes from `r`,
sleeping while there are none, up to a newline or `n` bytes; a `C('D')` ends the call, and is
left for the next call when the call has copied something.

What the input is for is `Edit`: the list of committed bytes not read yet and the list of the
line, with each key and each step of a reader stated on the lists (`Edit.key`, `Edit.read`).
Processes making calls of `consoleread`, keys and kills interleave (`Event`); the bookkeeping of
the processes is the same at both levels (`State.step` over either).

* `key_refines`, `read_refines` : on an input whose indexes are in order (`Input.Inv`), a key
  and a step of `consoleread` do to the views of the ring what `Edit.key` and `Edit.read` do to
  the lists, across the wrap of the indexes at `2 ^ 32`.  The line never holds a newline, so the
  loop of `C('U')` always backs `e` up to `w`.
* `console_refines` : every run of keys, reads and kills from the zeroed input gives the readers
  what the list model gives them, with the views of the ring equal to the lists throughout.

The echo of `consputc` and the `procdump` of `C('P')` are not modelled: they leave the input as
it is.
-/

namespace Xv6Kernel

namespace Console

/-- `INPUT_BUF`. -/
def INPUT_BUF : ℕ := 128

instance inputBuf_neZero : NeZero INPUT_BUF := ⟨by decide⟩

theorem INPUT_BUF_dvd : INPUT_BUF ∣ 2 ^ 32 := by decide

theorem INPUT_BUF_lt : INPUT_BUF < 2 ^ 32 := by decide

/-- `C(x)`: control-`x`. -/
def C (x : Char) : UInt8 := x.toUInt8 - '@'.toUInt8

/-- `input`: the ring and its read, write and edit indexes. -/
structure Input where
  buf : Fin INPUT_BUF → UInt8
  r : UInt32
  w : UInt32
  e : UInt32

/-- The loop of `C('U')`: back `e` up while it is not `w` and the byte before it is not a newline.
It runs at most `e - w` times, the bound `k` it is given. -/
def killLine (buf : Fin INPUT_BUF → UInt8) (w : UInt32) : ℕ → UInt32 → UInt32
  | 0, e => e
  | k + 1, e =>
    if e ≠ w ∧ buf (Ring.cell (e - 1).toNat) ≠ '\n'.toUInt8 then killLine buf w k (e - 1) else e

/-- `input.buf[input.e++ % INPUT_BUF] = c`. -/
@[simps]
def Input.store (inp : Input) (c : UInt8) : Input :=
  { inp with buf := Function.update inp.buf (Ring.cell inp.e.toNat) c, e := inp.e + 1 }

/-- One character `c` of the loop of `consoleintr`. -/
def consoleintr (inp : Input) (c : UInt8) : Input :=
  if c = C 'P' then inp
  else if c = C 'U' then { inp with e := killLine inp.buf inp.w (inp.e - inp.w).toNat inp.e }
  else if c = C 'H' ∨ c = 0x7f then
    if inp.e ≠ inp.w then { inp with e := inp.e - 1 } else inp
  else if c ≠ 0 ∧ (inp.e - inp.r).toNat < INPUT_BUF then
    let c := if c = '\r'.toUInt8 then '\n'.toUInt8 else c
    let inp := inp.store c
    if c = '\n'.toUInt8 ∨ c = C 'D' ∨ inp.e = inp.r + UInt32.ofNat INPUT_BUF then
      { inp with w := inp.e }
    else inp
  else inp

/-- A call of `consoleread` in progress: the `target` bytes asked for, the `n` still to read, and
the bytes copied to `dst`. -/
structure Call where
  target : ℕ
  n : ℕ
  got : List UInt8
  deriving DecidableEq, Repr

/-- What a turn of the loop of `consoleread` leads to. -/
inductive Outcome
  /-- `sleep(&input.r, &cons.lock)`: nothing to read. -/
  | sleep
  /-- Round the loop again. -/
  | more (call : Call)
  /-- The call returns: the bytes copied (their number is the result), or `none` for `-1`. -/
  | ret (res : Option (List UInt8))
  deriving DecidableEq, Repr

/-- One turn of the loop of `consoleread`, by a process that is `killed` or not. -/
def consoleread (killed : Bool) (inp : Input) (call : Call) : Input × Outcome :=
  if 0 < call.n then
    if inp.r = inp.w then
      if killed then (inp, .ret none) else (inp, .sleep)
    else
      let c := inp.buf (Ring.cell inp.r.toNat)
      let inp := { inp with r := inp.r + 1 }
      if c = C 'D' then
        -- a `C('D')` after some bytes is saved for the next call
        ((if call.n < call.target then { inp with r := inp.r - 1 } else inp), .ret (some call.got))
      else
        let call := { call with n := call.n - 1, got := call.got ++ [c] }
        if c = '\n'.toUInt8 then (inp, .ret (some call.got)) else (inp, .more call)
  else (inp, .ret (some call.got))

/-! ### What the input is for -/

/-- The committed bytes not read yet, oldest first, and the line being edited. -/
structure Edit where
  queue : List UInt8
  line : List UInt8
  deriving DecidableEq, Repr

namespace Edit

/-- A key on the lists: the line is edited, and committed at a newline, a `C('D')`, or when the
buffer is full. -/
def key (s : Edit) (c : UInt8) : Edit :=
  if c = C 'P' then s
  else if c = C 'U' then { s with line := [] }
  else if c = C 'H' ∨ c = 0x7f then { s with line := s.line.dropLast }
  else if c ≠ 0 ∧ s.queue.length + s.line.length < INPUT_BUF then
    let c := if c = '\r'.toUInt8 then '\n'.toUInt8 else c
    if c = '\n'.toUInt8 ∨ c = C 'D' ∨ s.queue.length + s.line.length + 1 = INPUT_BUF then
      ⟨s.queue ++ (s.line ++ [c]), []⟩
    else { s with line := s.line ++ [c] }
  else s

/-- A turn of a reader on the lists. -/
def read (killed : Bool) (s : Edit) (call : Call) : Edit × Outcome :=
  if 0 < call.n then
    match s.queue with
    | [] => if killed then (s, .ret none) else (s, .sleep)
    | c :: rest =>
      if c = C 'D' then
        ((if call.n < call.target then s else { s with queue := rest }), .ret (some call.got))
      else if c = '\n'.toUInt8 then ({ s with queue := rest }, .ret (some (call.got ++ [c])))
      else ({ s with queue := rest }, .more { call with n := call.n - 1, got := call.got ++ [c] })
  else (s, .ret (some call.got))

end Edit

/-- The lists the ring holds: from `r` to `w`, and from `w` to `e`. -/
def Input.edit (inp : Input) : Edit :=
  ⟨Ring.view inp.buf inp.r inp.w, Ring.view inp.buf inp.w inp.e⟩

/-- The indexes are in order, `r`, `w`, `e`, within `INPUT_BUF` of each other, and the line has
no newline. -/
structure Input.Inv (inp : Input) : Prop where
  w_le : Ring.count inp.r inp.w ≤ Ring.count inp.r inp.e
  e_le : Ring.count inp.r inp.e ≤ INPUT_BUF
  no_newline : '\n'.toUInt8 ∉ Ring.view inp.buf inp.w inp.e

/-! ### The ring refines the lists -/

namespace Input

variable {inp : Input}

theorem length_edit (hi : inp.Inv) :
    inp.edit.queue.length + inp.edit.line.length = Ring.count inp.r inp.e := by
  simp only [edit, Ring.length_view]
  exact Ring.count_add hi.w_le

/-- With no newline in the line, the loop of `C('U')` backs `e` up to `w`.  The induction is on
the bound, which is the length of the line. -/
theorem killLine_eq (buf : Fin INPUT_BUF → UInt8) (w : UInt32) :
    ∀ (k : ℕ) (e : UInt32), Ring.count w e = k → '\n'.toUInt8 ∉ Ring.view buf w e →
      killLine buf w k e = w
  | 0, e, hk, _ => (Ring.count_eq_zero_iff.1 hk).symm
  | k + 1, e, hk, hnl => by
    have hne : w ≠ e := fun h => by
      rw [h, Ring.count_eq_zero_iff.2 rfl] at hk
      cases hk
    have hsplit := Ring.view_unpush INPUT_BUF_dvd buf hne
    have hlast : buf (Ring.cell (e - 1).toNat) ≠ '\n'.toUInt8 := fun h =>
      hnl (by rw [hsplit, h]; exact List.mem_append_right _ (List.mem_singleton_self _))
    rw [killLine, if_pos ⟨Ne.symm hne, hlast⟩]
    refine killLine_eq buf w k (e - 1) ?_ fun h => hnl (hsplit ▸ List.mem_append_left _ h)
    have := Ring.count_unpush hne
    omega

/-- `C('U')` empties the line. -/
theorem kill_refines (hi : inp.Inv) :
    ({ inp with e := killLine inp.buf inp.w (inp.e - inp.w).toNat inp.e } : Input).edit =
        { inp.edit with line := [] } ∧
      ({ inp with e := killLine inp.buf inp.w (inp.e - inp.w).toNat inp.e } : Input).Inv := by
  have hk : killLine inp.buf inp.w (inp.e - inp.w).toNat inp.e = inp.w :=
    killLine_eq _ _ _ _ rfl hi.no_newline
  rw [hk]
  exact ⟨by simp [edit], ⟨le_rfl, hi.w_le.trans hi.e_le, by simp⟩⟩

/-- Backspace takes back the last byte of the line, if there is one. -/
theorem backspace_refines (hi : inp.Inv) :
    (if inp.e ≠ inp.w then { inp with e := inp.e - 1 } else inp).edit =
        { inp.edit with line := inp.edit.line.dropLast } ∧
      (if inp.e ≠ inp.w then { inp with e := inp.e - 1 } else inp).Inv := by
  by_cases hew : inp.e = inp.w
  · rw [if_neg (not_not.2 hew)]
    exact ⟨by simp [edit, hew], hi⟩
  · rw [if_pos hew]
    have hsplit := Ring.view_unpush INPUT_BUF_dvd inp.buf (Ne.symm hew)
    -- `e` is past `r` too, by the byte of the line
    have hwe := Ring.count_unpush (Ne.symm hew)
    have hre : inp.r ≠ inp.e := fun h => by
      have := Ring.count_add hi.w_le
      rw [h, Ring.count_eq_zero_iff.2 rfl] at this
      omega
    have hre' := Ring.count_unpush hre
    have hadd := Ring.count_add hi.w_le
    refine ⟨?_, ⟨?_, ?_, ?_⟩⟩
    · simp only [edit, hsplit, List.dropLast_concat]
    · show Ring.count inp.r inp.w ≤ Ring.count inp.r (inp.e - 1)
      omega
    · show Ring.count inp.r (inp.e - 1) ≤ INPUT_BUF
      have := hi.e_le
      omega
    · show '\n'.toUInt8 ∉ Ring.view inp.buf inp.w (inp.e - 1)
      exact fun h => hi.no_newline (hsplit ▸ List.mem_append_left _ h)

/-- Storing a byte at `e`, with room for it, leaves the committed bytes and adds it to the line. -/
theorem store_views (hi : inp.Inv) (hroom : Ring.count inp.r inp.e < INPUT_BUF) (c : UInt8) :
    Ring.view (inp.store c).buf inp.r inp.w = inp.edit.queue ∧
      Ring.view (inp.store c).buf inp.w (inp.store c).e = inp.edit.line ++ [c] ∧
      Ring.count inp.r (inp.store c).e = Ring.count inp.r inp.e + 1 := by
  have hcount := Ring.count_push INPUT_BUF_lt hroom
  have hpush := Ring.view_push INPUT_BUF_dvd INPUT_BUF_lt inp.buf hroom c
  have hw : Ring.count inp.r inp.w ≤ Ring.count inp.r (inp.e + 1) := by
    rw [hcount]
    exact hi.w_le.trans (Nat.le_succ _)
  -- the contents after the store, split at `w`, against the contents before it
  rw [Ring.view_split INPUT_BUF_dvd _ hw, Ring.view_split INPUT_BUF_dvd _ hi.w_le,
    List.append_assoc] at hpush
  obtain ⟨hq, hl⟩ := List.append_inj hpush (by simp)
  exact ⟨hq, hl, hcount⟩

/-- A byte typed with room for it goes at the end of the line, and commits the line when it is
a newline or a `C('D')` or when it fills the buffer. -/
theorem type_refines (hi : inp.Inv) (hroom : Ring.count inp.r inp.e < INPUT_BUF) (c : UInt8) :
    (if c = '\n'.toUInt8 ∨ c = C 'D' ∨ (inp.store c).e = (inp.store c).r + UInt32.ofNat INPUT_BUF
        then { inp.store c with w := (inp.store c).e } else inp.store c).edit =
      (if c = '\n'.toUInt8 ∨ c = C 'D' ∨
          inp.edit.queue.length + inp.edit.line.length + 1 = INPUT_BUF
        then ⟨inp.edit.queue ++ (inp.edit.line ++ [c]), []⟩
        else { inp.edit with line := inp.edit.line ++ [c] }) ∧
    (if c = '\n'.toUInt8 ∨ c = C 'D' ∨ (inp.store c).e = (inp.store c).r + UInt32.ofNat INPUT_BUF
        then { inp.store c with w := (inp.store c).e } else inp.store c).Inv := by
  obtain ⟨hq, hl, hcount⟩ := store_views hi hroom c
  -- the test of a full buffer on the indexes is the test on the lengths
  have hfull : (inp.store c).e = (inp.store c).r + UInt32.ofNat INPUT_BUF ↔
      inp.edit.queue.length + inp.edit.line.length + 1 = INPUT_BUF := by
    rw [length_edit hi, ← hcount]
    exact (Ring.count_eq_cap_iff INPUT_BUF_lt).symm
  have hw : Ring.count inp.r inp.w ≤ Ring.count inp.r (inp.store c).e := by
    rw [hcount]
    exact hi.w_le.trans (Nat.le_succ _)
  by_cases hcommit : c = '\n'.toUInt8 ∨ c = C 'D' ∨
      inp.edit.queue.length + inp.edit.line.length + 1 = INPUT_BUF
  · rw [if_pos (by rwa [hfull]), if_pos hcommit]
    refine ⟨?_, ⟨le_rfl, ?_, by simp⟩⟩
    · show Edit.mk (Ring.view (inp.store c).buf inp.r (inp.store c).e) _ = _
      rw [Ring.view_split INPUT_BUF_dvd _ hw, hq, hl, Ring.view_self]
    · show Ring.count inp.r (inp.store c).e ≤ INPUT_BUF
      rw [hcount]
      exact hroom
  · rw [if_neg (by rwa [hfull]), if_neg hcommit]
    refine ⟨?_, ⟨hw, ?_, ?_⟩⟩
    · show Edit.mk (Ring.view (inp.store c).buf inp.r inp.w)
        (Ring.view (inp.store c).buf inp.w (inp.store c).e) = _
      rw [hq, hl]
    · show Ring.count inp.r (inp.store c).e ≤ INPUT_BUF
      rw [hcount]
      exact hroom
    · show '\n'.toUInt8 ∉ Ring.view (inp.store c).buf inp.w (inp.store c).e
      rw [hl]
      simp only [List.mem_append, List.mem_singleton, not_or]
      exact ⟨hi.no_newline, fun h => hcommit (.inl h.symm)⟩

/-- Taking the byte at `r`, with a committed byte there, leaves the rest of the committed bytes
and the line. -/
theorem pop_edit (hi : inp.Inv) (hrw : inp.r ≠ inp.w) :
    inp.edit.queue = inp.buf (Ring.cell inp.r.toNat) :: ({ inp with r := inp.r + 1 } : Input).edit.queue ∧
      ({ inp with r := inp.r + 1 } : Input).edit.line = inp.edit.line ∧
      ({ inp with r := inp.r + 1 } : Input).Inv := by
  have h0 : Ring.count inp.r inp.w ≠ 0 := fun h => hrw (Ring.count_eq_zero_iff.1 h)
  have hre : inp.r ≠ inp.e := fun h =>
    h0 (Nat.le_zero.1 (hi.w_le.trans (Ring.count_eq_zero_iff.2 h).le))
  have hw := Ring.count_pop hrw
  have he := Ring.count_pop hre
  refine ⟨Ring.view_pop INPUT_BUF_dvd inp.buf hrw, rfl, ⟨?_, ?_, hi.no_newline⟩⟩
  · show Ring.count (inp.r + 1) inp.w ≤ Ring.count (inp.r + 1) inp.e
    have := hi.w_le
    omega
  · show Ring.count (inp.r + 1) inp.e ≤ INPUT_BUF
    have := hi.e_le
    omega

end Input

/-- **A key refines `Edit.key`.** -/
theorem key_refines {inp : Input} (hi : inp.Inv) (c : UInt8) :
    (consoleintr inp c).edit = inp.edit.key c ∧ (consoleintr inp c).Inv := by
  unfold consoleintr Edit.key
  by_cases hP : c = C 'P'
  · rw [if_pos hP, if_pos hP]
    exact ⟨rfl, hi⟩
  rw [if_neg hP, if_neg hP]
  by_cases hU : c = C 'U'
  · rw [if_pos hU, if_pos hU]
    exact Input.kill_refines hi
  rw [if_neg hU, if_neg hU]
  by_cases hH : c = C 'H' ∨ c = 0x7f
  · rw [if_pos hH, if_pos hH]
    exact Input.backspace_refines hi
  rw [if_neg hH, if_neg hH]
  -- the test for room on the indexes is the test on the lengths
  have hroom : (c ≠ 0 ∧ (inp.e - inp.r).toNat < INPUT_BUF) ↔
      (c ≠ 0 ∧ inp.edit.queue.length + inp.edit.line.length < INPUT_BUF) := by
    rw [Input.length_edit hi]
    rfl
  by_cases hc : c ≠ 0 ∧ inp.edit.queue.length + inp.edit.line.length < INPUT_BUF
  · rw [if_pos (hroom.2 hc), if_pos hc]
    exact Input.type_refines hi (by rw [← Input.length_edit hi]; exact hc.2) _
  · rw [if_neg (fun h => hc (hroom.1 h)), if_neg hc]
    exact ⟨rfl, hi⟩

/-- **A turn of `consoleread` refines `Edit.read`.** -/
theorem read_refines {inp : Input} (hi : inp.Inv) (killed : Bool) (call : Call) :
    ((consoleread killed inp call).1.edit, (consoleread killed inp call).2) =
        inp.edit.read killed call ∧ (consoleread killed inp call).1.Inv := by
  unfold consoleread Edit.read
  by_cases hn : 0 < call.n
  · rw [if_pos hn, if_pos hn]
    by_cases hrw : inp.r = inp.w
    · -- nothing committed: sleep, or return `-1` when killed
      have hq : inp.edit.queue = [] := by simp [Input.edit, hrw]
      rw [if_pos hrw, hq]
      cases killed
      · exact ⟨rfl, hi⟩
      · exact ⟨rfl, hi⟩
    · obtain ⟨hq, hl, hi'⟩ := Input.pop_edit hi hrw
      rw [if_neg hrw, hq]
      simp only
      by_cases hD : inp.buf (Ring.cell inp.r.toNat) = C 'D'
      · rw [if_pos hD, if_pos hD]
        by_cases hlt : call.n < call.target
        · -- the `C('D')` is put back
          have hr : inp.r + 1 - 1 = inp.r := add_sub_cancel_right _ _
          rw [if_pos hlt, if_pos hlt]
          show (({ inp with r := inp.r + 1 - 1 } : Input).edit, _) = _ ∧
            ({ inp with r := inp.r + 1 - 1 } : Input).Inv
          rw [hr]
          exact ⟨rfl, hi⟩
        · rw [if_neg hlt, if_neg hlt]
          refine ⟨?_, hi'⟩
          rw [← hl]
      · rw [if_neg hD, if_neg hD]
        by_cases hnl : inp.buf (Ring.cell inp.r.toNat) = '\n'.toUInt8
        · rw [if_pos hnl, if_pos hnl]
          refine ⟨?_, hi'⟩
          rw [← hl]
        · rw [if_neg hnl, if_neg hnl]
          refine ⟨?_, hi'⟩
          rw [← hl]
  · rw [if_neg hn, if_neg hn]
    exact ⟨rfl, hi⟩

/-! ### Processes reading the console -/

/-- A process reading the console: its call in progress, the sizes of the calls it is to make,
whether it has been killed, and (ghost) the result of each call it has finished. -/
structure Reader where
  call : Option Call
  calls : List ℕ
  killed : Bool
  results : List (Option (List UInt8))
  deriving DecidableEq, Repr

/-- A step of a reader over the input `g`, whose turns of `consoleread` are `read`: the start of
its next call, or a turn of its call in progress. -/
def Reader.step {σ : Type} (read : Bool → σ → Call → σ × Outcome) (g : σ) (rd : Reader) :
    σ × Reader :=
  match rd.call, rd.calls with
  | none, [] => (g, rd)
  | none, m :: rest => (g, { rd with call := some ⟨m, m, []⟩, calls := rest })
  | some c, _ =>
    match read rd.killed g c with
    | (g', .sleep) => (g', rd)
    | (g', .more c') => (g', { rd with call := some c' })
    | (g', .ret res) => (g', { rd with call := none, results := rd.results ++ [res] })

/-- What happens next: a key, a step of a process in `consoleread`, or a process killed. -/
inductive Event (n : ℕ)
  | key (c : UInt8)
  | read (t : Fin n)
  | kill (t : Fin n)
  deriving DecidableEq, Repr

/-- The input, as the ring or as the lists, and the processes `Fin n` reading it. -/
structure State (σ : Type) (n : ℕ) where
  input : σ
  readers : Fin n → Reader

namespace State

variable {σ : Type} {n : ℕ}

/-- One event, with the keys handled by `key` and the turns of `consoleread` by `read`. -/
def step (key : σ → UInt8 → σ) (read : Bool → σ → Call → σ × Outcome) (s : State σ n) :
    Event n → State σ n
  | .key c => ⟨key s.input c, s.readers⟩
  | .read t =>
    ⟨(Reader.step read s.input (s.readers t)).1,
      Function.update s.readers t (Reader.step read s.input (s.readers t)).2⟩
  | .kill t => ⟨s.input, Function.update s.readers t { s.readers t with killed := true }⟩

/-- The events of a list, one after another. -/
def run (key : σ → UInt8 → σ) (read : Bool → σ → Call → σ × Outcome) (s : State σ n)
    (es : List (Event n)) : State σ n :=
  es.foldl (step key read) s

/-- The lists of the ring, and the same processes. -/
def edit (s : State Input n) : State Edit n := ⟨s.input.edit, s.readers⟩

/-- The zeroed `input`, and processes about to make the calls `calls`. -/
def boot (calls : Fin n → List ℕ) : State Input n :=
  ⟨⟨fun _ => 0, 0, 0, 0⟩, fun t => ⟨none, calls t, false, []⟩⟩

end State

theorem Reader.step_refines {inp : Input} (hi : inp.Inv) (rd : Reader) :
    ((Reader.step consoleread inp rd).1.edit, (Reader.step consoleread inp rd).2) =
        Reader.step Edit.read inp.edit rd ∧ (Reader.step consoleread inp rd).1.Inv := by
  unfold Reader.step
  rcases hc : rd.call with _ | c
  · cases rd.calls with
    | nil => exact ⟨rfl, hi⟩
    | cons m rest => exact ⟨rfl, hi⟩
  · simp only
    obtain ⟨hr, hinv⟩ := read_refines hi rd.killed c
    rw [← hr]
    rcases hread : consoleread rd.killed inp c with ⟨inp', _ | c' | res⟩
    · rw [hread] at hinv
      exact ⟨rfl, hinv⟩
    · rw [hread] at hinv
      exact ⟨rfl, hinv⟩
    · rw [hread] at hinv
      exact ⟨rfl, hinv⟩

/-- An event on the ring refines the event on the lists. -/
theorem State.step_refines {s : State Input n} (hi : s.input.Inv) (ev : Event n) :
    (step consoleintr consoleread s ev).edit = step Edit.key Edit.read s.edit ev ∧
      (step consoleintr consoleread s ev).input.Inv := by
  cases ev with
  | key c =>
    obtain ⟨hk, hinv⟩ := key_refines hi c
    exact ⟨by rw [step, step, edit, edit, hk], hinv⟩
  | read t =>
    obtain ⟨hr, hinv⟩ := Reader.step_refines hi (s.readers t)
    refine ⟨?_, hinv⟩
    simp only [step, edit]
    rw [← hr]
  | kill t => exact ⟨rfl, hi⟩

/-- Whole runs on the ring refine runs on the lists.  The induction is on the events, carrying
the order of the indexes. -/
theorem State.run_refines :
    ∀ (es : List (Event n)) {s : State Input n}, s.input.Inv →
      (run consoleintr consoleread s es).edit = run Edit.key Edit.read s.edit es ∧
        (run consoleintr consoleread s es).input.Inv
  | [], _, hi => ⟨rfl, hi⟩
  | ev :: es, s, hi => by
    obtain ⟨hstep, hinv⟩ := step_refines hi ev
    obtain ⟨hrun, hinv'⟩ := run_refines es hinv
    refine ⟨?_, hinv'⟩
    rw [run, List.foldl_cons, ← run, hrun, hstep]
    rfl

/-- **The console's input refines the list model.**  For processes making any calls of
`consoleread`, and every run of keys, turns of the readers and kills from the zeroed `input`, the
ring's committed bytes and line are the lists of `Edit` after the same run, and every process
has had the same results from its calls, across the wrap of the `uint` indexes. -/
theorem console_refines (calls : Fin n → List ℕ) (es : List (Event n)) :
    (State.run consoleintr consoleread (State.boot calls) es).edit =
      State.run Edit.key Edit.read ⟨⟨[], []⟩, fun t => ⟨none, calls t, false, []⟩⟩ es := by
  have hi : (State.boot calls).input.Inv := ⟨le_rfl, by simp [State.boot, Ring.count], by simp [State.boot]⟩
  rw [(State.run_refines es hi).1]
  simp [State.edit, State.boot, Input.edit]

/-- `h`, `i`, a backspace, `o` and a carriage return typed while a process waits in a read of
ten bytes: the read returns `ho` and a newline. -/
example : ((State.run consoleintr consoleread (State.boot fun _ : Fin 1 => [10])
    [.read 0, .read 0, .key 'h'.toUInt8, .key 'i'.toUInt8, .key 0x7f, .key 'o'.toUInt8,
      .key '\r'.toUInt8, .read 0, .read 0, .read 0]).readers 0).results =
    [some ['h'.toUInt8, 'o'.toUInt8, '\n'.toUInt8]] := by
  decide

end Console

end Xv6Kernel
