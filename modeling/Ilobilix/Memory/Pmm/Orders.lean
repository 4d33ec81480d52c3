import Ilobilix.Memory.Pmm.Model
import Mathlib.Order.Bounds.Basic

/-!
# The order of a size

`next_order_from` rounds a size up to a block and `prev_order_from` rounds it down. Both take the
exponent of a power of two that `lib/math.cppm` computes, and a size of at least a page keeps the
exponent at `page_bits` or above. From `2 ^ 63` on, the next power of two is no word any more.
-/

namespace Ilobilix.Pmm

open Lib

/-- The exponent of a power of two in bytes, as an order. -/
theorem ptrdiff_log2 {j : ℕ} (hj : j + 12 < 64) :
    ptrdiff ((log2 (2 ^ (j + 12)) + (2 ^ 64 - 12)) % 2 ^ 64) = j := by
  rw [log2_two_pow hj, show j + 12 + (2 ^ 64 - 12) = j + 2 ^ 64 by omega, Nat.add_mod_right,
    Nat.mod_eq_of_lt (by omega), ptrdiff, if_pos (by omega)]

theorem pageSize_mul (j : ℕ) : pageSize * 2 ^ j = 2 ^ (j + 12) := by
  rw [pow_add, Nat.mul_comm]
  rfl

theorem blockBytes_eq {k : ℕ} (hk : k ≤ 51) : blockBytes k = pageSize * 2 ^ k := by
  have hle : 2 ^ k ≤ 2 ^ 51 := Nat.pow_le_pow_right (by norm_num) hk
  rw [blockBytes, pow2_eq (by omega), Nat.mod_eq_of_lt]
  simp only [pageSize]
  omega

theorem nextOrderFrom_isLeast {size : ℕ} (h1 : pageSize ≤ size) (h2 : size ≤ 2 ^ 63) :
    ∃ k : ℕ, nextOrderFrom size = k ∧ IsLeast {k | size ≤ pageSize * 2 ^ k} k := by
  have hpage : 2 ^ 12 ≤ size := h1
  obtain ⟨k, hk, heq, hle, hlt⟩ := nextPow2_eq (by omega) h2
  have hk12 : 12 ≤ k := by
    by_contra hlow
    have : 2 ^ k ≤ 2 ^ 11 := Nat.pow_le_pow_right (by norm_num) (by omega)
    omega
  obtain ⟨j, rfl⟩ := Nat.exists_eq_add_of_le' hk12
  refine ⟨j, ?_, ?_, fun i hi => ?_⟩
  · rw [nextOrderFrom, if_neg (Nat.not_lt.mpr h1), heq, ptrdiff_log2 (by omega)]
  · change size ≤ pageSize * 2 ^ j
    rwa [pageSize_mul]
  · change size ≤ pageSize * 2 ^ i at hi
    rw [pageSize_mul] at hi
    by_contra hij
    exact absurd hi (Nat.not_le.mpr (hlt (i + 12) (by omega)))

theorem prevOrderFrom_isGreatest {size : ℕ} (h1 : pageSize ≤ size) (h2 : size ≤ 2 ^ 63) :
    ∃ k : ℕ, prevOrderFrom size = k ∧ IsGreatest {k | pageSize * 2 ^ k ≤ size} k := by
  have hpage : 2 ^ 12 ≤ size := h1
  obtain ⟨k, hk, heq, hle, hlt⟩ := prePow2_eq (by omega) h2
  have hk12 : 12 ≤ k := by
    by_contra hlow
    have : 2 ^ (k + 1) ≤ 2 ^ 12 := Nat.pow_le_pow_right (by norm_num) (by omega)
    omega
  obtain ⟨j, rfl⟩ := Nat.exists_eq_add_of_le' hk12
  refine ⟨j, ?_, ?_, fun i hi => ?_⟩
  · rw [prevOrderFrom, if_neg (Nat.not_lt.mpr h1), heq, ptrdiff_log2 (by omega)]
  · change pageSize * 2 ^ j ≤ size
    rwa [pageSize_mul]
  · change pageSize * 2 ^ i ≤ size at hi
    rw [pageSize_mul] at hi
    have hexp : i + 12 < j + 12 + 1 := (Nat.pow_lt_pow_iff_right (by norm_num)).mp (hi.trans_lt hlt)
    omega

end Ilobilix.Pmm
