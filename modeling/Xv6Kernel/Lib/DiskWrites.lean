import Mathlib.Logic.Function.Basic
import Mathlib.Data.List.Nodup

/-!
# Block writes and block copies

A disk is the contents of its blocks, `ℕ → β`.  `applyW` makes a list of block writes in turn;
`copyW` makes a list of copies in turn, each reading the disk as the copies before it left it.
A crash after some of the writes is `applyW (ws.take k)`.

* `applyW_other`, `applyW_congr` : a write list decides the blocks it writes, whatever they held,
  and leaves the others alone; hence `applyW_take_then_all`: redoing all of the writes after
  some of them is the same as doing all of them once.
* `applyW_mem` : with no block written twice, each block holds what its write wrote.
* `copyW_eq_applyW` : copies whose sources no copy writes are the writes of the values the
  sources held at the start; hence `copyW_take_then_all`: such copies may be redone after a
  crash.
-/

namespace Xv6Kernel

namespace DiskWrites

variable {β : Type*}

/-- Write each block of the list in turn. -/
def applyW : List (ℕ × β) → (ℕ → β) → ℕ → β
  | [], d => d
  | (b, v) :: ws, d => applyW ws (Function.update d b v)

/-- Copy block `src` onto block `dst` for each pair `(dst, src)` in turn. -/
def copyW : List (ℕ × ℕ) → (ℕ → β) → ℕ → β
  | [], d => d
  | (dst, src) :: cs, d => copyW cs (Function.update d dst (d src))

@[simp] theorem applyW_nil (d : ℕ → β) : applyW [] d = d := rfl

@[simp] theorem copyW_nil (d : ℕ → β) : copyW [] d = d := rfl

theorem applyW_append (ws vs : List (ℕ × β)) (d : ℕ → β) :
    applyW (ws ++ vs) d = applyW vs (applyW ws d) := by
  induction ws generalizing d with
  | nil => rfl
  | cons w ws ih =>
    obtain ⟨b, v⟩ := w
    exact ih _

/-- A block no write touches keeps its contents. -/
theorem applyW_other (ws : List (ℕ × β)) (d : ℕ → β) {x : ℕ} (h : ∀ p ∈ ws, p.1 ≠ x) :
    applyW ws d x = d x := by
  induction ws generalizing d with
  | nil => rfl
  | cons w ws ih =>
    obtain ⟨b, v⟩ := w
    have hb : b ≠ x := h (b, v) List.mem_cons_self
    rw [applyW, ih _ fun p hp => h p (List.mem_cons_of_mem _ hp), Function.update_of_ne hb.symm]

/-- After a write list, a block it writes holds the same whatever the disk held before; a block
it does not write holds what it held. -/
theorem applyW_congr (ws : List (ℕ × β)) {a b : ℕ → β} {x : ℕ}
    (h : (∃ p ∈ ws, p.1 = x) ∨ a x = b x) : applyW ws a x = applyW ws b x := by
  induction ws generalizing a b with
  | nil =>
    rcases h with ⟨p, hp, -⟩ | h
    · cases hp
    · exact h
  | cons w ws ih =>
    obtain ⟨c, v⟩ := w
    apply ih
    by_cases hc : c = x
    · -- the head writes `x` on both disks
      subst hc
      right
      simp
    · rcases h with ⟨p, hp, hpx⟩ | h
      · rcases List.mem_cons.1 hp with rfl | hp
        · exact absurd hpx hc
        · exact .inl ⟨p, hp, hpx⟩
      · right
        rw [Function.update_of_ne (Ne.symm hc), Function.update_of_ne (Ne.symm hc), h]

/-- **Redoing writes is harmless**: all of the writes after some of them leave the disk as all
of them once. -/
theorem applyW_take_then_all (ws : List (ℕ × β)) (m : ℕ) (d : ℕ → β) :
    applyW ws (applyW (ws.take m) d) = applyW ws d := by
  funext x
  apply applyW_congr
  by_cases h : ∃ p ∈ ws, p.1 = x
  · exact .inl h
  · right
    apply applyW_other
    intro p hp hpx
    exact h ⟨p, List.mem_of_mem_take hp, hpx⟩

/-- With no block written twice, a block written holds what its write wrote. -/
theorem applyW_mem {ws : List (ℕ × β)} (hnd : (ws.map Prod.fst).Nodup) (d : ℕ → β)
    {p : ℕ × β} (hp : p ∈ ws) : applyW ws d p.1 = p.2 := by
  induction ws generalizing d with
  | nil => cases hp
  | cons w ws ih =>
    obtain ⟨b, v⟩ := w
    rw [List.map_cons, List.nodup_cons] at hnd
    rcases List.mem_cons.1 hp with rfl | hp
    · -- the last write of `b` is this one
      rw [applyW, applyW_other _ _ fun q hq hqb => hnd.1 (by rw [← hqb]; exact List.mem_map_of_mem hq)]
      simp
    · exact ih hnd.2 _ hp

/-- **Copies are writes** of the values their sources held at the start, when no copy writes a
source. -/
theorem copyW_eq_applyW {cs : List (ℕ × ℕ)} (h : ∀ c ∈ cs, ∀ c' ∈ cs, c.1 ≠ c'.2)
    (d : ℕ → β) : copyW cs d = applyW (cs.map fun c => (c.1, d c.2)) d := by
  induction cs generalizing d with
  | nil => rfl
  | cons c cs ih =>
    obtain ⟨dst, src⟩ := c
    have htail : ∀ c ∈ cs, ∀ c' ∈ cs, c.1 ≠ c'.2 := fun c hc c' hc' =>
      h c (List.mem_cons_of_mem _ hc) c' (List.mem_cons_of_mem _ hc')
    -- the later copies read sources that this copy does not write
    have hsrc : cs.map (fun c => (c.1, Function.update d dst (d src) c.2)) =
        cs.map fun c => (c.1, d c.2) := by
      refine List.map_congr_left fun c' hc' => ?_
      have hne : dst ≠ c'.2 := h (dst, src) List.mem_cons_self c' (List.mem_cons_of_mem _ hc')
      rw [Function.update_of_ne hne.symm]
    rw [copyW, ih htail, hsrc]
    rfl

/-- **Redoing copies is harmless** when no copy writes a source. -/
theorem copyW_take_then_all {cs : List (ℕ × ℕ)} (h : ∀ c ∈ cs, ∀ c' ∈ cs, c.1 ≠ c'.2) (m : ℕ)
    (d : ℕ → β) : copyW cs (copyW (cs.take m) d) = copyW cs d := by
  have htake : ∀ c ∈ cs.take m, ∀ c' ∈ cs.take m, c.1 ≠ c'.2 := fun c hc c' hc' =>
    h c (List.mem_of_mem_take hc) c' (List.mem_of_mem_take hc')
  -- the copies made before the crash left every source as it was
  have hsrc : cs.map (fun c => (c.1, copyW (cs.take m) d c.2)) = cs.map fun c => (c.1, d c.2) := by
    refine List.map_congr_left fun c hc => ?_
    rw [copyW_eq_applyW htake, applyW_other]
    intro c' hc'
    obtain ⟨c'', hc'', rfl⟩ := List.mem_map.1 hc'
    exact h c'' (List.mem_of_mem_take hc'') c hc
  rw [copyW_eq_applyW h, hsrc, copyW_eq_applyW htake, List.map_take, applyW_take_then_all,
    copyW_eq_applyW h]

end DiskWrites

end Xv6Kernel
