import Mathlib.Data.Nat.ModEq
import Mathlib.Logic.Function.Basic

/-!
# Ring buffers with free-running counters

A buffer of `cap` cells and two `uint32` counters that only go up, wrapping at `2 ^ 32`: `r`
counts the elements taken out and `w` those put in.  The element put in as number `k` goes to
cell `k % cap`, so the contents, oldest first, are the `w - r` cells from `r` on (`view`).  When
`cap` divides `2 ^ 32`, a counter's cell is the same before and after it wraps, and the contents
stay right across the wrap:

* `count_eq_zero_iff`, `count_eq_cap_iff` : the tests `r == w` and `w == r + cap` on the
  counters say that the buffer is empty and full;
* `count_push`, `view_push` : putting an element into a buffer that is not full adds it at the
  end;
* `count_pop`, `view_pop` : in a buffer that is not empty, cell `r % cap` holds the oldest
  element, and taking it out leaves the rest.
* `count_add`, `view_split` : a third counter between the two splits the contents in two;
* `count_unpush`, `view_unpush` : counting the last element back out of a buffer that is not
  empty leaves the rest, the element being in cell `(w - 1) % cap`.
-/

namespace Xv6Kernel

namespace Ring

variable {α : Type*} {cap : ℕ}

/-- The number of elements in the buffer: `w - r` as a `uint`. -/
def count (r w : UInt32) : ℕ := (w - r).toNat

theorem count_eq_zero_iff {r w : UInt32} : count r w = 0 ↔ r = w := by
  rw [count, ← UInt32.toNat_zero, UInt32.toNat_inj]
  grind

/-- The buffer is full exactly when `w == r + cap`. -/
theorem count_eq_cap_iff (hcap : cap < 2 ^ 32) {r w : UInt32} :
    count r w = cap ↔ w = r + UInt32.ofNat cap := by
  have hc : (UInt32.ofNat cap).toNat = cap := by
    rw [UInt32.toNat_ofNat']
    exact Nat.mod_eq_of_lt hcap
  have hsub : w - r = UInt32.ofNat cap ↔ w = r + UInt32.ofNat cap := by grind
  rw [count, ← hsub, ← UInt32.toNat_inj, hc]

theorem count_push (hcap : cap < 2 ^ 32) {r w : UInt32} (h : count r w < cap) :
    count r (w + 1) = count r w + 1 := by
  have hsub : w + 1 - r = (w - r) + 1 := by grind
  rw [count, hsub, UInt32.toNat_add, UInt32.toNat_one, count] at *
  exact Nat.mod_eq_of_lt (by omega)

theorem count_pop {r w : UInt32} (h : r ≠ w) : count (r + 1) w + 1 = count r w := by
  have hsub : w - (r + 1) = (w - r) - 1 := by grind
  have hpos : 1 ≤ (w - r).toNat := Nat.one_le_iff_ne_zero.2 fun h0 => h (count_eq_zero_iff.1 h0)
  rw [count, count, hsub, UInt32.toNat_sub_of_le _ _ (by rwa [UInt32.le_iff_toNat_le,
    UInt32.toNat_one]), UInt32.toNat_one]
  omega

/-- The counter `e - 1` of a buffer that is not empty counts one element fewer. -/
theorem count_unpush {r e : UInt32} (h : r ≠ e) : count r (e - 1) + 1 = count r e := by
  have hsub : e - 1 - r = (e - r) - 1 := by grind
  have hpos : 1 ≤ (e - r).toNat := Nat.one_le_iff_ne_zero.2 fun h0 => h (count_eq_zero_iff.1 h0)
  rw [count, count, hsub, UInt32.toNat_sub_of_le _ _ (by rwa [UInt32.le_iff_toNat_le,
    UInt32.toNat_one]), UInt32.toNat_one]
  omega

/-- A counter `w` with no more elements after `r` than `e` has splits them: `count r w` before
it and `count w e` after it. -/
theorem count_add {r w e : UInt32} (h : count r w ≤ count r e) :
    count r w + count w e = count r e := by
  have hsub : e - r = (w - r) + (e - w) := by grind
  have ha := (w - r).toNat_lt
  have hb := (e - w).toNat_lt
  simp only [count, hsub, UInt32.toNat_add] at h ⊢
  omega

variable [NeZero cap]

/-- The cell of a counter value: its remainder modulo `cap`. -/
def cell (k : ℕ) : Fin cap := ⟨k % cap, Nat.mod_lt _ (Nat.pos_of_ne_zero (NeZero.ne cap))⟩

/-- The contents of the buffer, oldest first: the `count r w` cells from `r` on. -/
def view (data : Fin cap → α) (r w : UInt32) : List α :=
  (List.range (count r w)).map fun j => data (cell (r.toNat + j))

@[simp] theorem length_view (data : Fin cap → α) (r w : UInt32) :
    (view data r w).length = count r w := by
  simp [view]

@[simp] theorem view_self (data : Fin cap → α) (r : UInt32) : view data r r = [] := by
  simp [view, count]

section Wrap

variable (hdvd : cap ∣ 2 ^ 32)
include hdvd

/-- Cells do not see the wrap of a counter at `2 ^ 32`. -/
theorem cell_mod_size (k j : ℕ) :
    (cell (k % 2 ^ 32 + j) : Fin cap) = cell (k + j) := by
  have h : k % 2 ^ 32 + j ≡ k + j [MOD cap] := ((Nat.mod_modEq k _).of_dvd hdvd).add_right j
  exact Fin.ext h

/-- The cell `w` writes is the one after the contents. -/
theorem cell_w (r w : UInt32) : (cell w.toNat : Fin cap) = cell (r.toNat + count r w) := by
  have hw : (r + (w - r)).toNat = w.toNat := by rw [show r + (w - r) = w by grind]
  rw [UInt32.toNat_add] at hw
  rw [count, ← hw, ← Nat.add_zero ((r.toNat + (w - r).toNat) % 2 ^ 32), cell_mod_size hdvd,
    Nat.add_zero]

/-- The cells from `w` on are those from `r` on, `count r w` further. -/
theorem cell_add_count (r w : UInt32) (j : ℕ) :
    (cell (w.toNat + j) : Fin cap) = cell (r.toNat + (count r w + j)) := by
  have hw : (r + (w - r)).toNat = w.toNat := by rw [show r + (w - r) = w by grind]
  rw [UInt32.toNat_add] at hw
  rw [count, ← hw, cell_mod_size hdvd, Nat.add_assoc]

/-- **Push.**  Putting `b` into cell `w % cap` of a buffer that is not full and counting it adds
it at the end of the contents. -/
theorem view_push (hcap : cap < 2 ^ 32) (data : Fin cap → α) {r w : UInt32} (h : count r w < cap)
    (b : α) :
    view (Function.update data (cell w.toNat) b) r (w + 1) = view data r w ++ [b] := by
  rw [view, count_push hcap h, List.range_succ, List.map_append, cell_w hdvd r w]
  congr 1
  · -- the cells of the contents are not the one written
    refine List.map_congr_left fun j hj => Function.update_of_ne ?_ _ _
    intro heq
    have hj : j < count r w := List.mem_range.1 hj
    have hmod : j % cap = count r w % cap :=
      Nat.ModEq.add_left_cancel' r.toNat (congrArg Fin.val heq)
    rw [Nat.mod_eq_of_lt (by omega), Nat.mod_eq_of_lt h] at hmod
    omega
  · simp

/-- **Pop.**  The oldest element of a buffer that is not empty is in cell `r % cap`; the rest are
the contents after counting it out. -/
theorem view_pop (data : Fin cap → α) {r w : UInt32} (h : r ≠ w) :
    view data r w = data (cell r.toNat) :: view data (r + 1) w := by
  rw [view, ← count_pop h, List.range_succ_eq_map, List.map_cons, List.map_map, view]
  congr 1
  refine List.map_congr_left fun j _ => ?_
  -- `r + 1` wraps as `r` does
  rw [Function.comp_apply, UInt32.toNat_add, UInt32.toNat_one, cell_mod_size hdvd, Nat.add_assoc,
    Nat.add_comm 1 j]

/-- **Split.**  The contents from `r` to `e` are those from `r` to `w` then those from `w` to
`e`, for `w` with no more elements after `r` than `e` has. -/
theorem view_split (data : Fin cap → α) {r w e : UInt32} (h : count r w ≤ count r e) :
    view data r e = view data r w ++ view data w e := by
  rw [view, ← count_add h, List.range_add, List.map_append, List.map_map, view, view]
  congr 1
  refine List.map_congr_left fun j _ => ?_
  rw [Function.comp_apply, cell_add_count hdvd r w j]

/-- **Unpush.**  The newest element of a buffer that is not empty is in cell `(e - 1) % cap`;
the rest are the contents up to `e - 1`. -/
theorem view_unpush (data : Fin cap → α) {r e : UInt32} (h : r ≠ e) :
    view data r e = view data r (e - 1) ++ [data (cell (e - 1).toNat)] := by
  rw [view, ← count_unpush h, List.range_succ, List.map_append, ← view, cell_w hdvd r (e - 1)]
  rfl

end Wrap

end Ring

end Xv6Kernel
