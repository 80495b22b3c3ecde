import Mathlib.Tactic

/-!
# Machine words

Unsigned arithmetic of the C types `uint32_t` and `size_t`, on natural numbers below `2 ^ 32` and
`2 ^ 64`, and the conversion to `ssize_t`.
-/

namespace SeaKernel

/-- Conversion to `uint32_t`. -/
def u32 (n : ℕ) : ℕ := n % 2 ^ 32

/-- Subtraction of `uint32_t` values. -/
def sub32 (a b : ℕ) : ℕ := (a + 2 ^ 32 - b) % 2 ^ 32

/-- Conversion to `size_t`. -/
def u64 (n : ℕ) : ℕ := n % 2 ^ 64

/-- Subtraction of `size_t` values. -/
def sub64 (a b : ℕ) : ℕ := (a + 2 ^ 64 - b) % 2 ^ 64

/-- Conversion of a `size_t` value to `ssize_t`. -/
def s64 (n : ℕ) : ℤ := if n < 2 ^ 63 then n else n - 2 ^ 64

/-- Conversion of a `size_t` value to `int`. -/
def s32 (n : ℕ) : ℤ := if n % 2 ^ 32 < 2 ^ 31 then (n % 2 ^ 32 : ℕ) else (n % 2 ^ 32 : ℕ) - 2 ^ 32

/-- Conversion of a `size_t` value to `int` and back to `uint64_t`, with the sign extended. -/
def sx32 (n : ℕ) : ℕ := if n % 2 ^ 32 < 2 ^ 31 then n % 2 ^ 32 else n % 2 ^ 32 + (2 ^ 64 - 2 ^ 32)

variable {n : ℕ}

theorem sx32_of_lt (h : n < 2 ^ 31) : sx32 n = n := by
  rw [sx32, Nat.mod_eq_of_lt (by omega), if_pos h]

theorem s64_of_lt (h : n < 2 ^ 63) : s64 n = n := if_pos h

theorem s64_of_nonneg (hn : n < 2 ^ 64) (h : 0 ≤ s64 n) : s64 n = n := by
  simp only [s64] at h ⊢
  split at h <;> omega

theorem u32_lt (n : ℕ) : u32 n < 2 ^ 32 := Nat.mod_lt _ (by decide)

theorem u32_of_lt (h : n < 2 ^ 32) : u32 n = n := Nat.mod_eq_of_lt h

theorem u32_add_u32 (a b : ℕ) : u32 (u32 a + b) = u32 (a + b) := by
  simp only [u32]
  omega

theorem u64_lt (n : ℕ) : u64 n < 2 ^ 64 := Nat.mod_lt _ (by decide)

theorem u64_of_lt (h : n < 2 ^ 64) : u64 n = n := Nat.mod_eq_of_lt h

variable {a b : ℕ}

theorem sub32_of_le (ha : a < 2 ^ 32) (h : b ≤ a) : sub32 a b = a - b := by
  simp only [sub32]
  omega

theorem sub64_of_le (ha : a < 2 ^ 64) (h : b ≤ a) : sub64 a b = a - b := by
  simp only [sub64]
  omega

theorem s64_sub64 (ha : a < 2 ^ 63) (hb : b < 2 ^ 63) : s64 (sub64 a b) = a - b := by
  rcases le_or_gt b a with hle | hgt
  · rw [sub64_of_le (by omega) hle, s64_of_lt (by omega)]
    omega
  · rw [sub64, Nat.mod_eq_of_lt (by omega), s64, if_neg (by omega)]
    omega

end SeaKernel
