import Mathlib.Data.Nat.Bitwise
import Mathlib.Logic.Function.Basic

/-!
# Byte arrays: little-endian numbers, copies and bitmaps

A byte array is a function `ℕ → UInt8` (the bytes past its end are never read).  Three ways
of reading and writing it, with the lemmas that say how a read sees a write:

* `getLE m off len` and `setLE m off len v` : the little-endian number in `len` bytes from
  `off`; a read of the bytes just written gives `v % 256 ^ len` (`getLE_setLE`), a read of
  other bytes sees no change (`getLE_setLE_of_disjoint`);
* `copy m off src n` : `memmove(m + off, src, n)`; two copies of consecutive ranges are one
  (`copy_append`), and the little-endian bytes `leBytes ws` of an array of words read back as its
  words (`getLE_copy_leBytes`);
* `getBit`, `setBit`, `clearBit` : a bitmap held in bytes, bit `i % 8` of byte `i / 8`, set by
  `m[i / 8] |= 1 << (i % 8)` and cleared by `m[i / 8] &= ~(1 << (i % 8))`.
-/

namespace Xv6Kernel

namespace Bytes

/-- The little-endian number held by the `len` bytes of `m` from `off`. -/
def getLE (m : ℕ → UInt8) (off : ℕ) : ℕ → ℕ
  | 0 => 0
  | len + 1 => (m off).toNat + 256 * getLE m (off + 1) len

/-- `m` with the `len` bytes from `off` holding the little-endian digits of `v`. -/
def setLE (m : ℕ → UInt8) (off len v : ℕ) : ℕ → UInt8 := fun x =>
  if off ≤ x ∧ x < off + len then UInt8.ofNat (v / 256 ^ (x - off)) else m x

/-- `m` with the `4`-byte little-endian words `a 0, …, a (n - 1)` from `off`. -/
def setWords (m : ℕ → UInt8) (off : ℕ) (a : ℕ → ℕ) : ℕ → ℕ → UInt8
  | 0 => m
  | n + 1 => setLE (setWords m off a n) (off + 4 * n) 4 (a n)

/-- `memmove(m + off, src, n)`. -/
def copy (m : ℕ → UInt8) (off : ℕ) (src : ℕ → UInt8) (n : ℕ) : ℕ → UInt8 := fun x =>
  if off ≤ x ∧ x < off + n then src (x - off) else m x

/-- The bytes of an array of words, each in 4 little-endian bytes. -/
def leBytes (ws : List ℕ) (i : ℕ) : UInt8 := UInt8.ofNat (ws.getD (i / 4) 0 / 256 ^ (i % 4))

/-- Bit `i` of a bitmap held in bytes. -/
def getBit (m : ℕ → UInt8) (i : ℕ) : Bool := (m (i / 8)).toNat.testBit (i % 8)

/-- `m[i / 8] |= 1 << (i % 8)`. -/
def setBit (m : ℕ → UInt8) (i : ℕ) : ℕ → UInt8 :=
  Function.update m (i / 8) (m (i / 8) ||| (1 <<< (i % 8).toUInt8))

/-- `m[i / 8] &= ~(1 << (i % 8))`. -/
def clearBit (m : ℕ → UInt8) (i : ℕ) : ℕ → UInt8 :=
  Function.update m (i / 8) (m (i / 8) &&& ~~~(1 <<< (i % 8).toUInt8))

/-! ### Little-endian numbers -/

theorem getLE_lt (m : ℕ → UInt8) : ∀ (off len : ℕ), getLE m off len < 256 ^ len
  | _, 0 => by simp [getLE]
  | off, len + 1 => by
    have h₁ : (m off).toNat < 256 := (m off).toNat_lt
    have h₂ := getLE_lt m (off + 1) len
    rw [getLE, pow_succ]
    omega

/-- A zeroed buffer reads `0`. -/
@[simp] theorem getLE_zero : ∀ (off len : ℕ), getLE (fun _ => 0) off len = 0
  | _, 0 => rfl
  | off, len + 1 => by simp [getLE, getLE_zero (off + 1) len]

/-- A read depends only on the bytes it reads. -/
theorem getLE_congr {m m' : ℕ → UInt8} :
    ∀ {off len : ℕ}, (∀ x, off ≤ x → x < off + len → m x = m' x) →
      getLE m off len = getLE m' off len
  | _, 0, _ => rfl
  | off, len + 1, h => by
    have hx : m off = m' off := h off le_rfl (by omega)
    have hr : getLE m (off + 1) len = getLE m' (off + 1) len :=
      getLE_congr fun x h₁ h₂ => h x (by omega) (by omega)
    rw [getLE, getLE, hx, hr]

theorem setLE_of_lt {m : ℕ → UInt8} {off len v x : ℕ} (h : x < off) : setLE m off len v x = m x := by
  simp [setLE, Nat.not_le.2 h]

theorem setLE_of_le {m : ℕ → UInt8} {off len v x : ℕ} (h : off + len ≤ x) :
    setLE m off len v x = m x := by
  simp only [setLE]
  rw [if_neg (by omega)]

/-- Reading back the bytes just written gives the value, modulo `256 ^ len`. -/
theorem getLE_setLE (m : ℕ → UInt8) : ∀ (off len v : ℕ),
    getLE (setLE m off len v) off len = v % 256 ^ len
  | _, 0, _ => by simp [getLE, Nat.mod_one]
  | off, len + 1, v => by
    -- above the first byte, the write of `v` from `off` is the write of `v / 256` from `off + 1`
    have hshift : getLE (setLE m off (len + 1) v) (off + 1) len =
        getLE (setLE m (off + 1) len (v / 256)) (off + 1) len := by
      apply getLE_congr
      intro x h₁ h₂
      have hx : x - off = x - (off + 1) + 1 := by omega
      simp only [setLE, if_pos (And.intro (by omega : off ≤ x) (by omega : x < off + (len + 1))),
        if_pos (And.intro h₁ h₂), hx, pow_succ, Nat.div_div_eq_div_mul, mul_comm]
    have hlow : (setLE m off (len + 1) v off).toNat = v % 256 := by
      simp [setLE]
    rw [getLE, hshift, getLE_setLE m (off + 1) len (v / 256), hlow, pow_succ,
      mul_comm (256 ^ len) 256, Nat.mod_mul]

/-- A read of bytes that a write does not touch sees no change. -/
theorem getLE_setLE_of_disjoint {m : ℕ → UInt8} {off len v off' len' : ℕ}
    (h : off + len ≤ off' ∨ off' + len' ≤ off) :
    getLE (setLE m off len v) off' len' = getLE m off' len' := by
  apply getLE_congr
  intro x h₁ h₂
  rcases h with h | h
  · exact setLE_of_le (by omega)
  · exact setLE_of_lt (by omega)

theorem setWords_of_not_mem {m : ℕ → UInt8} {off : ℕ} {a : ℕ → ℕ} {x : ℕ} :
    ∀ {n : ℕ}, x < off ∨ off + 4 * n ≤ x → setWords m off a n x = m x
  | 0, _ => rfl
  | n + 1, h => by
    rw [setWords]
    rcases h with h | h
    · rw [setLE_of_lt (by omega), setWords_of_not_mem (Or.inl h)]
    · rw [setLE_of_le (by omega), setWords_of_not_mem (Or.inr (by omega))]

/-- Reading back a word of an array just written. -/
theorem getLE_setWords {m : ℕ → UInt8} {off : ℕ} {a : ℕ → ℕ} :
    ∀ {n i : ℕ}, i < n → getLE (setWords m off a n) (off + 4 * i) 4 = a i % 2 ^ 32
  | n + 1, i, h => by
    rw [setWords]
    by_cases hi : i = n
    · subst hi
      rw [getLE_setLE]
      rfl
    · rw [getLE_setLE_of_disjoint (by omega), getLE_setWords (by omega)]

theorem getLE_setWords_of_disjoint {m : ℕ → UInt8} {off n : ℕ} {a : ℕ → ℕ} {off' len' : ℕ}
    (h : off + 4 * n ≤ off' ∨ off' + len' ≤ off) :
    getLE (setWords m off a n) off' len' = getLE m off' len' := by
  apply getLE_congr
  intro x h₁ h₂
  exact setWords_of_not_mem (by omega)

/-! ### Copies -/

theorem copy_of_lt {m src : ℕ → UInt8} {off n x : ℕ} (h : x < off) : copy m off src n x = m x := by
  simp [copy, Nat.not_le.2 h]

theorem copy_of_le {m src : ℕ → UInt8} {off n x : ℕ} (h : off + n ≤ x) :
    copy m off src n x = m x := by
  simp only [copy]
  rw [if_neg (by omega)]

theorem copy_of_mem {m src : ℕ → UInt8} {off n x : ℕ} (h₁ : off ≤ x) (h₂ : x < off + n) :
    copy m off src n x = src (x - off) := by
  simp [copy, h₁, h₂]

@[simp] theorem copy_zero (m src : ℕ → UInt8) (off : ℕ) : copy m off src 0 = m := by
  funext x
  simp only [copy]
  rw [if_neg (by omega)]

/-- Copying `n` bytes, then the next `k` from where the first copy stopped, copies `n + k`. -/
theorem copy_append (m src : ℕ → UInt8) (off n k : ℕ) :
    copy (copy m off src n) (off + n) (fun i => src (n + i)) k = copy m off src (n + k) := by
  funext x
  by_cases h₁ : x < off + n
  · rw [copy_of_lt h₁]
    by_cases h₂ : off ≤ x
    · rw [copy_of_mem h₂ h₁, copy_of_mem h₂ (by omega)]
    · rw [copy_of_lt (by omega), copy_of_lt (by omega)]
  · by_cases h₃ : x < off + n + k
    · rw [copy_of_mem (by omega) h₃, copy_of_mem (by omega) (by omega)]
      congr 1
      omega
    · rw [copy_of_le (by omega), copy_of_le (by omega), copy_of_le (by omega)]

/-- Reading back a word of an array copied in little-endian bytes. -/
theorem getLE_copy_leBytes (m : ℕ → UInt8) (off : ℕ) (ws : List ℕ) {n j : ℕ} (hj : j < n) :
    getLE (copy m off (leBytes ws) (4 * n)) (off + 4 * j) 4 = ws.getD j 0 % 2 ^ 32 := by
  -- the four bytes of word `j` are those `setLE` writes for it
  have h : getLE (copy m off (leBytes ws) (4 * n)) (off + 4 * j) 4 =
      getLE (setLE m (off + 4 * j) 4 (ws.getD j 0)) (off + 4 * j) 4 := by
    apply getLE_congr
    intro x h₁ h₂
    have hq : (x - off) / 4 = j := by omega
    have hr : (x - off) % 4 = x - (off + 4 * j) := by omega
    rw [copy_of_mem (by omega) (by omega), leBytes, hq, hr]
    simp only [setLE, if_pos (And.intro h₁ h₂)]
  rw [h, getLE_setLE]
  rfl

/-! ### Bitmaps -/

theorem shiftLeft_one_toNat : ∀ k : Fin 8, ((1 : UInt8) <<< (k : ℕ).toUInt8).toNat = 2 ^ (k : ℕ) := by
  decide

theorem testBit_mask : ∀ k j : Fin 8, (UInt8.size - 1 - 2 ^ (k : ℕ)).testBit j = !decide (j = k) := by
  decide

theorem testBit_or_shiftLeft (b : UInt8) {k : ℕ} (j : ℕ) (hk : k < 8) :
    (b ||| ((1 : UInt8) <<< k.toUInt8)).toNat.testBit j = (decide (j = k) || b.toNat.testBit j) := by
  have h₂ := shiftLeft_one_toNat ⟨k, hk⟩
  simp only at h₂
  rw [UInt8.toNat_or, Nat.testBit_or, h₂, Nat.testBit_two_pow, Bool.or_comm]
  by_cases h : j = k
  · subst h
    simp
  · simp [h, Ne.symm h]

theorem testBit_and_not_shiftLeft (b : UInt8) {k j : ℕ} (hk : k < 8) (hj : j < 8) :
    (b &&& ~~~((1 : UInt8) <<< k.toUInt8)).toNat.testBit j =
      (!decide (j = k) && b.toNat.testBit j) := by
  have h₂ := shiftLeft_one_toNat ⟨k, hk⟩
  simp only at h₂
  rw [UInt8.toNat_and, Nat.testBit_and, UInt8.toNat_not, h₂, testBit_mask ⟨k, hk⟩ ⟨j, hj⟩,
    Bool.and_comm]
  simp

/-- Two positions in one unit of `m` (a byte of bits, a bitmap block of blocks) are equal
exactly when their places in it are. -/
theorem eq_iff_div_mod {m i j : ℕ} (h : j / m = i / m) : j = i ↔ j % m = i % m :=
  ⟨fun hji => hji ▸ rfl, Nat.ext_div_mod h⟩

@[simp] theorem getBit_zero (i : ℕ) : getBit (fun _ => 0) i = false := by
  simp [getBit]

@[simp] theorem getBit_setBit (m : ℕ → UInt8) (i j : ℕ) :
    getBit (setBit m i) j = (decide (j = i) || getBit m j) := by
  unfold getBit setBit
  by_cases hb : j / 8 = i / 8
  · rw [hb, Function.update_self, ← hb, testBit_or_shiftLeft _ _ (Nat.mod_lt i (by decide)),
      hb, decide_eq_decide.2 (eq_iff_div_mod hb)]
  · have hne : j ≠ i := fun h => hb (h ▸ rfl)
    simp [Function.update_of_ne hb, hne]

@[simp] theorem getBit_clearBit (m : ℕ → UInt8) (i j : ℕ) :
    getBit (clearBit m i) j = (!decide (j = i) && getBit m j) := by
  unfold getBit clearBit
  by_cases hb : j / 8 = i / 8
  · rw [hb, Function.update_self, ← hb,
      testBit_and_not_shiftLeft _ (Nat.mod_lt i (by decide)) (Nat.mod_lt j (by decide)),
      hb, decide_eq_decide.2 (eq_iff_div_mod hb)]
  · have hne : j ≠ i := fun h => hb (h ▸ rfl)
    simp [Function.update_of_ne hb, hne]

end Bytes

end Xv6Kernel
