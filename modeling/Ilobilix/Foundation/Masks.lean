import Mathlib.Data.Nat.Bitwise

/-!
# Masked registers

A register of `n` bits takes from a written word the bits of its mask and keeps the others. The masks of
interest are the runs of ones from bit `k` up to bit `w`, which is `2 ^ w - 2 ^ k`: the bits of the mask
are then the quotient by `2 ^ k`, and the others are the remainder.
-/

namespace Masks

variable {n w k i x y m : ℕ}

/-- What a register reads after `x` is written over `y`. -/
def written (n m x y : ℕ) : ℕ := x &&& m ||| y &&& (2 ^ n - 1 - m)

theorem testBit_run (h : k ≤ w) : (2 ^ w - 2 ^ k).testBit i = (decide (k ≤ i) && decide (i < w)) := by
  have hrun : 2 ^ w - 2 ^ k = (2 ^ (w - k) - 1) * 2 ^ k := by
    rw [Nat.sub_one_mul, ← pow_add, Nat.sub_add_cancel h]
  rw [hrun, Nat.testBit_mul_two_pow, Nat.testBit_two_pow_sub_one]
  by_cases hki : k ≤ i
  · simp only [hki, decide_true, Bool.true_and, decide_eq_decide]
    omega
  · simp [hki]

theorem testBit_not (hm : m < 2 ^ n) : (2 ^ n - 1 - m).testBit i = (decide (i < n) && !m.testBit i) := by
  rw [Nat.sub_sub, Nat.add_comm 1 m, Nat.testBit_two_pow_sub_succ hm]

theorem testBit_of_le (hx : x < 2 ^ n) (hi : n ≤ i) : x.testBit i = false :=
  Nat.testBit_lt_two_pow (hx.trans_le (Nat.pow_le_pow_right Nat.two_pos hi))

/-- The bits from `k` on are the quotient by `2 ^ k`. -/
theorem and_run (h : k ≤ w) (hx : x < 2 ^ w) : x &&& (2 ^ w - 2 ^ k) = x / 2 ^ k * 2 ^ k := by
  refine Nat.eq_of_testBit_eq fun i => ?_
  rw [Nat.testBit_and, testBit_run h, Nat.testBit_mul_two_pow, Nat.testBit_div_two_pow]
  by_cases hki : k ≤ i
  · by_cases hiw : i < w
    · simp [hki, hiw]
    · simp [hki, testBit_of_le hx (Nat.not_lt.mp hiw)]
  · simp [hki]

/-- The other bits are the remainder. -/
theorem and_not_run (h : k ≤ w) (hwn : w ≤ n) (hx : x < 2 ^ w) :
    x &&& (2 ^ n - 1 - (2 ^ w - 2 ^ k)) = x % 2 ^ k := by
  have hlt : 2 ^ w - 2 ^ k < 2 ^ n :=
    (Nat.sub_lt (Nat.two_pow_pos w) (Nat.two_pow_pos k)).trans_le (Nat.pow_le_pow_right Nat.two_pos hwn)
  refine Nat.eq_of_testBit_eq fun i => ?_
  rw [Nat.testBit_and, testBit_not hlt, testBit_run h, Nat.testBit_mod_two_pow]
  by_cases hiw : i < w
  · have hin : i < n := hiw.trans_le hwn
    by_cases hki : k ≤ i
    · simp [hki, hiw]
    · simp [hki, hin, Nat.lt_of_not_le hki]
  · simp [testBit_of_le hx (Nat.not_lt.mp hiw)]

/-- After all ones, the bits of the mask are set and the others are as they were. -/
theorem written_ones (h : k ≤ w) (hwn : w ≤ n) (hy : y < 2 ^ w) :
    written n (2 ^ w - 2 ^ k) (2 ^ n - 1) y = 2 ^ w - 2 ^ k + y % 2 ^ k := by
  have hlt : 2 ^ w - 2 ^ k < 2 ^ n :=
    (Nat.sub_lt (Nat.two_pow_pos w) (Nat.two_pow_pos k)).trans_le (Nat.pow_le_pow_right Nat.two_pos hwn)
  have hrun : 2 ^ w - 2 ^ k = 2 ^ k * (2 ^ (w - k) - 1) := by
    rw [Nat.mul_sub_one, ← pow_add, Nat.add_sub_cancel' h]
  rw [written, and_not_run h hwn hy, Nat.and_comm, Nat.and_two_pow_sub_one_of_lt_two_pow hlt, hrun,
    Nat.two_pow_add_eq_or_of_lt (Nat.mod_lt y (Nat.two_pow_pos k))]

/-- The old word written back restores it. -/
theorem written_written (hm : m < 2 ^ n) (hy : y < 2 ^ n) : written n m y (written n m x y) = y := by
  refine Nat.eq_of_testBit_eq fun i => ?_
  simp only [written, Nat.testBit_or, Nat.testBit_and, testBit_not hm]
  by_cases hin : i < n
  · cases m.testBit i <;> simp [hin]
  · simp [hin, testBit_of_le hy (Nat.not_lt.mp hin)]

end Masks
