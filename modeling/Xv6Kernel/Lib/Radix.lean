import Mathlib.Algebra.Order.Monoid.Unbundled.Pow
import Mathlib.Algebra.Order.Ring.Nat

/-!
# Fixed-width digits in a base

A number below `b ^ k` names a path of `k` steps in a tree whose nodes have `b` children: the
first step is its most significant digit in base `b`, and the rest of the path is named by the
remainder modulo `b ^ (k - 1)`.  `Radix.digits b k i` is that path, and `Radix.value b` reads a
path back as a number.

* `length_digits`, `digits_lt` : a number below `b ^ k` has `k` digits, each below `b`;
* `value_digits`, `digits_value` : `digits` and `value` undo each other on numbers below
  `b ^ k` and on lists of digits below `b`, so `digits b k` is a bijection from the numbers below
  `b ^ k` onto the lists of `k` digits below `b` (`digits_inj`, `value_lt`).
-/

namespace Xv6Kernel

namespace Radix

variable (b : ℕ)

/-- The `k` digits of `i` in base `b`, most significant first. -/
def digits : ℕ → ℕ → List ℕ
  | 0, _ => []
  | k + 1, i => i / b ^ k :: digits k (i % b ^ k)

/-- The number with the digits `l` in base `b`, most significant first. -/
def value : List ℕ → ℕ
  | [] => 0
  | a :: l => a * b ^ l.length + value l

variable {b}

@[simp] theorem length_digits (k i : ℕ) : (digits b k i).length = k := by
  induction k generalizing i with
  | zero => rfl
  | succ k ih => simp [digits, ih]

theorem digits_lt (hb : 0 < b) : ∀ {k i : ℕ}, i < b ^ k → ∀ j ∈ digits b k i, j < b
  | 0, _, _, j, hj => by simp [digits] at hj
  | k + 1, i, hi, j, hj => by
    have hpos : 0 < b ^ k := Nat.pow_pos hb
    rcases List.mem_cons.1 hj with rfl | hj
    · -- the leading digit: `i < b * b ^ k`
      rw [pow_succ'] at hi
      exact (Nat.div_lt_iff_lt_mul hpos).2 hi
    · exact digits_lt hb (Nat.mod_lt i hpos) j hj

theorem value_lt {l : List ℕ} (hl : ∀ j ∈ l, j < b) : value b l < b ^ l.length := by
  induction l with
  | nil => simp [value]
  | cons a l ih =>
    have hrest : value b l < b ^ l.length := ih fun j hj => hl j (List.mem_cons_of_mem a hj)
    have hfirst : a * b ^ l.length + b ^ l.length ≤ b * b ^ l.length := by
      rw [← Nat.succ_mul]
      exact Nat.mul_le_mul_right _ (hl a List.mem_cons_self)
    rw [value, List.length_cons, pow_succ']
    omega

theorem value_digits : ∀ {k i : ℕ}, i < b ^ k → value b (digits b k i) = i
  | 0, i, hi => by
    rw [pow_zero, Nat.lt_one_iff] at hi
    rw [hi]
    rfl
  | k + 1, i, hi => by
    have hpos : 0 < b ^ k := Nat.pos_of_ne_zero fun h => by
      rw [pow_succ, h, Nat.zero_mul] at hi
      exact Nat.not_lt_zero _ hi
    rw [digits, value, length_digits, value_digits (Nat.mod_lt i hpos)]
    exact Nat.div_add_mod' i (b ^ k)

theorem digits_value {l : List ℕ} (hl : ∀ j ∈ l, j < b) : digits b l.length (value b l) = l := by
  induction l with
  | nil => rfl
  | cons a l ih =>
    have hrest : value b l < b ^ l.length := value_lt fun j hj => hl j (List.mem_cons_of_mem a hj)
    have hpos : 0 < b ^ l.length := Nat.zero_lt_of_lt hrest
    -- the leading digit is `a`, and the remainder is the value of the rest
    have hdiv : (a * b ^ l.length + value b l) / b ^ l.length = a := by
      rw [Nat.add_comm, Nat.add_mul_div_right _ _ hpos, Nat.div_eq_of_lt hrest, Nat.zero_add]
    have hmod : (a * b ^ l.length + value b l) % b ^ l.length = value b l := by
      rw [Nat.add_comm, Nat.add_mul_mod_self_right, Nat.mod_eq_of_lt hrest]
    rw [List.length_cons, value, digits, hdiv, hmod, ih fun j hj => hl j (List.mem_cons_of_mem a hj)]

/-- Two numbers below `b ^ k` with the same digits are equal. -/
theorem digits_inj {k i i' : ℕ} (hi : i < b ^ k) (hi' : i' < b ^ k)
    (h : digits b k i = digits b k i') : i = i' := by
  rw [← value_digits hi, ← value_digits hi', h]

end Radix

end Xv6Kernel
