import Mathlib.Data.Nat.Bitwise
import Mathlib.Data.Nat.Log
import Mathlib.Data.Nat.Size
import Mathlib.Tactic.Ring

/-!
# `lib/math.cppm`

Machine words are natural numbers and every operation that can wrap is reduced modulo `2 ^ 64`. The
bit tricks of the source (`next_pow2`, `align_down`) are embedded as written and then shown to be the
arithmetic functions their callers rely on.
-/

namespace Ilobilix.Lib

def kib (num : ℕ) : ℕ := num * 1024 % 2 ^ 64

def mib (num : ℕ) : ℕ := kib num * 1024 % 2 ^ 64

def gib (num : ℕ) : ℕ := mib num * 1024 % 2 ^ 64

/-! ## The higher-half direct map -/

/-- `ishh`: a value at or above the direct map offset counts as a direct map address. -/
def ishh (hhdm val : ℕ) : Bool := decide (hhdm ≤ val)

def tohh (hhdm val : ℕ) : ℕ := if ishh hhdm val then val else (val + hhdm) % 2 ^ 64

def fromhh (hhdm val : ℕ) : ℕ := if !ishh hhdm val then val else val - hhdm

theorem tohh_of_lt {hhdm val : ℕ} (h : val < hhdm) (hw : val + hhdm < 2 ^ 64) :
    tohh hhdm val = val + hhdm := by
  rw [tohh, ishh, if_neg (by simpa using h), Nat.mod_eq_of_lt hw]

theorem tohh_add {hhdm val : ℕ} : tohh hhdm (val + hhdm) = val + hhdm := by
  simp [tohh, ishh]

theorem fromhh_add {hhdm val : ℕ} : fromhh hhdm (val + hhdm) = val := by
  simp [fromhh, ishh]

/-! ## Rounding -/

/-- `n & ~(a - 1)` on 64-bit words. -/
def alignDown (n a : ℕ) : ℕ := (n % 2 ^ 64) &&& (2 ^ 64 - 1 - (a + (2 ^ 64 - 1)) % 2 ^ 64)

def alignUp (n a : ℕ) : ℕ := alignDown ((n + a + (2 ^ 64 - 1)) % 2 ^ 64) a

def divRoundup (n a : ℕ) : ℕ := alignDown ((n + a + (2 ^ 64 - 1)) % 2 ^ 64) a / a

/-- Clearing the low bits rounds down to a multiple of a power of two. -/
theorem alignDown_two_pow {n k : ℕ} (hn : n < 2 ^ 64) (hk : k < 64) :
    alignDown n (2 ^ k) = n / 2 ^ k * 2 ^ k := by
  have hk2 : 2 ^ k < 2 ^ 64 := Nat.pow_lt_pow_right (by norm_num) hk
  have hpos : 0 < 2 ^ k := Nat.two_pow_pos k
  have hmask : (2 ^ k + (2 ^ 64 - 1)) % 2 ^ 64 = 2 ^ k - 1 := by
    rw [show 2 ^ k + (2 ^ 64 - 1) = (2 ^ k - 1) + 2 ^ 64 by omega, Nat.add_mod_right,
      Nat.mod_eq_of_lt (by omega)]
  rw [alignDown, hmask, Nat.mod_eq_of_lt hn]
  apply Nat.eq_of_testBit_eq
  intro i
  rw [Nat.testBit_and, Nat.testBit_mul_two_pow, Nat.testBit_div_two_pow,
    show 2 ^ 64 - 1 - (2 ^ k - 1) = 2 ^ 64 - ((2 ^ k - 1) + 1) by omega,
    Nat.testBit_two_pow_sub_succ (by omega), Nat.testBit_two_pow_sub_one]
  by_cases hik : i < k
  · simp [hik, Nat.not_le.mpr hik]
  · have hki : k ≤ i := Nat.not_lt.mp hik
    rw [Nat.sub_add_cancel hki]
    by_cases hi : i < 64
    · simp [hik, hki, hi]
    · have : n.testBit i = false :=
        Nat.testBit_lt_two_pow (lt_of_lt_of_le hn (Nat.pow_le_pow_right (by norm_num) (by omega)))
      simp [this]

/-- `align_up` is the next multiple as long as the rounding does not wrap. -/
theorem alignUp_two_pow {n k : ℕ} (hk : k < 64) (hn : n + 2 ^ k ≤ 2 ^ 64) :
    alignUp n (2 ^ k) = (n + 2 ^ k - 1) / 2 ^ k * 2 ^ k := by
  have hpos : 0 < 2 ^ k := Nat.two_pow_pos k
  have hwrap : (n + 2 ^ k + (2 ^ 64 - 1)) % 2 ^ 64 = n + 2 ^ k - 1 := by
    rw [show n + 2 ^ k + (2 ^ 64 - 1) = (n + 2 ^ k - 1) + 2 ^ 64 by omega, Nat.add_mod_right,
      Nat.mod_eq_of_lt (by omega)]
  rw [alignUp, hwrap, alignDown_two_pow (by omega) hk]

/-- `div_roundup` is the rounded-up quotient as long as the rounding does not wrap. -/
theorem divRoundup_two_pow {n k : ℕ} (hk : k < 64) (hn : n + 2 ^ k ≤ 2 ^ 64) :
    divRoundup n (2 ^ k) = (n + 2 ^ k - 1) / 2 ^ k := by
  change alignUp n (2 ^ k) / 2 ^ k = _
  rw [alignUp_two_pow hk hn, Nat.mul_div_cancel _ (Nat.two_pow_pos k)]

/-! ## Ranges -/

def rangeOverlaps (start1 end1 start2 end2 : ℕ) : Bool :=
  decide (start1 < end2) && decide (start2 < end1)

def rangeIntersection (start1 end1 start2 end2 : ℕ) : ℕ × ℕ :=
  if !rangeOverlaps start1 end1 start2 end2 then (0, 0)
  else (max start1 start2, min end1 end2)

/-! ## Powers of two -/

/-- `std::bit_width`. -/
def bitWidth (val : ℕ) : ℕ := if val = 0 then 0 else val.log2 + 1

/-- `lib::log2`, which wraps to the largest word at `0`. -/
def log2 (val : ℕ) : ℕ := (bitWidth val + (2 ^ 64 - 1)) % 2 ^ 64

def pow2 (val : ℕ) : ℕ := (1 <<< val) % 2 ^ 64

def nextPow2 (val : ℕ) : ℕ :=
  let v := (val + (2 ^ 64 - 1)) % 2 ^ 64
  let v := v ||| v >>> 1
  let v := v ||| v >>> 2
  let v := v ||| v >>> 4
  let v := v ||| v >>> 8
  let v := v ||| v >>> 16
  let v := v ||| v >>> 32
  (v + 1) % 2 ^ 64

def prePow2 (val : ℕ) : ℕ :=
  let np2 := nextPow2 val
  if np2 = val then np2 else np2 >>> 1

theorem pow2_eq {k : ℕ} (hk : k < 64) : pow2 k = 2 ^ k := by
  rw [pow2, Nat.shiftLeft_eq, one_mul, Nat.mod_eq_of_lt (Nat.pow_lt_pow_right (by norm_num) hk)]

theorem log2_two_pow {k : ℕ} (hk : k < 64) : log2 (2 ^ k) = k := by
  have hpos : 2 ^ k ≠ 0 := (Nat.two_pow_pos k).ne'
  rw [log2, bitWidth, if_neg hpos, Nat.log2_two_pow]
  omega

/-- `y` has bit `i` set exactly when one of the `m` bits of `x` from bit `i` on is set. -/
private def Smeared (x m y : ℕ) : Prop :=
  ∀ i, y.testBit i = true ↔ ∃ j < m, x.testBit (i + j) = true

private theorem smeared_self (x : ℕ) : Smeared x 1 x := by
  intro i
  constructor
  · exact fun h => ⟨0, by omega, h⟩
  · rintro ⟨j, hj, h⟩
    obtain rfl : j = 0 := by omega
    exact h

/-- Or-ing with the value shifted by the smear length doubles the smear length. -/
private theorem Smeared.double {x m y : ℕ} (h : Smeared x m y) :
    Smeared x (2 * m) (y ||| y >>> m) := by
  intro i
  simp only [Nat.testBit_or, Nat.testBit_shiftRight, Bool.or_eq_true, h i, h (m + i)]
  constructor
  · rintro (⟨j, hj, hx⟩ | ⟨j, hj, hx⟩)
    · exact ⟨j, by omega, hx⟩
    · exact ⟨m + j, by omega, by rwa [show i + (m + j) = m + i + j by omega]⟩
  · rintro ⟨j, hj, hx⟩
    by_cases hjm : j < m
    · exact Or.inl ⟨j, hjm, hx⟩
    · exact Or.inr ⟨j - m, by omega, by rwa [show m + i + (j - m) = i + j by omega]⟩

/-- Smearing a nonzero word over 64 bits fills every bit below its highest one. -/
private theorem Smeared.eq_two_pow_sub_one {x y : ℕ} (h : Smeared x 64 y) (hx : x ≠ 0)
    (hx64 : x < 2 ^ 64) : y = 2 ^ (x.log2 + 1) - 1 := by
  apply Nat.eq_of_testBit_eq
  intro i
  rw [Nat.testBit_two_pow_sub_one, Bool.eq_iff_iff, h i, decide_eq_true_iff, Nat.lt_succ_iff,
    Nat.le_log2 hx]
  constructor
  · rintro ⟨j, -, hj⟩
    exact le_trans (Nat.pow_le_pow_right (by norm_num) (by omega)) (Nat.ge_two_pow_of_testBit hj)
  · intro hi
    obtain ⟨j, hij, hj⟩ := Nat.exists_ge_and_testBit_of_ge_two_pow hi
    have hj64 : j < 64 := by
      by_contra hge
      have := Nat.testBit_lt_two_pow
        (lt_of_lt_of_le hx64 (Nat.pow_le_pow_right (by norm_num) (Nat.not_lt.mp hge)))
      simp [this] at hj
    exact ⟨j - i, by omega, by rwa [Nat.add_sub_cancel' hij]⟩

/-- The least power of two that is not below `val`, as an exponent. -/
theorem nextPow2_eq {val : ℕ} (h1 : 1 ≤ val) (h2 : val ≤ 2 ^ 63) :
    ∃ k ≤ 63, nextPow2 val = 2 ^ k ∧ val ≤ 2 ^ k ∧ ∀ j < k, 2 ^ j < val := by
  have hpred : (val + (2 ^ 64 - 1)) % 2 ^ 64 = val - 1 := by
    rw [show val + (2 ^ 64 - 1) = (val - 1) + 2 ^ 64 by omega, Nat.add_mod_right,
      Nat.mod_eq_of_lt (by omega)]
  rcases Nat.eq_or_lt_of_le h1 with rfl | hgt
  · exact ⟨0, by omega, by decide, by norm_num, by omega⟩
  · have hx : val - 1 ≠ 0 := by omega
    have hsmear := ((((((smeared_self (val - 1)).double).double).double).double).double).double
    have hfill := hsmear.eq_two_pow_sub_one hx (by omega)
    have hlog : (val - 1).log2 < 63 := (Nat.log2_lt hx).mpr (by omega)
    refine ⟨(val - 1).log2 + 1, by omega, ?_, ?_, ?_⟩
    · have hle : 2 ^ ((val - 1).log2 + 1) < 2 ^ 64 := Nat.pow_lt_pow_right (by norm_num) (by omega)
      simp only [nextPow2, hpred]
      norm_num at hfill
      rw [hfill, Nat.sub_add_cancel (Nat.one_le_two_pow), Nat.mod_eq_of_lt hle]
    · have := Nat.lt_log2_self (n := val - 1)
      omega
    · intro j hj
      have : 2 ^ j ≤ val - 1 := (Nat.le_log2 hx).mp (by omega)
      omega

/-- Above `2 ^ 63` the next power of two is no word. -/
theorem nextPow2_large {val : ℕ} (h1 : 2 ^ 63 < val) (h2 : val < 2 ^ 64) : nextPow2 val = 0 := by
  have hpred : (val + (2 ^ 64 - 1)) % 2 ^ 64 = val - 1 := by
    rw [show val + (2 ^ 64 - 1) = (val - 1) + 2 ^ 64 by omega, Nat.add_mod_right,
      Nat.mod_eq_of_lt (by omega)]
  have hx : val - 1 ≠ 0 := by omega
  have hsmear := ((((((smeared_self (val - 1)).double).double).double).double).double).double
  have hfill := hsmear.eq_two_pow_sub_one hx (by omega)
  have hlog : (val - 1).log2 = 63 := by
    apply le_antisymm
    · exact Nat.lt_succ_iff.mp ((Nat.log2_lt hx).mpr (by omega))
    · exact (Nat.le_log2 hx).mpr (by omega)
  simp only [nextPow2, hpred]
  norm_num at hfill
  rw [hfill, hlog]
  norm_num

/-- The greatest power of two that is not above `val`, as an exponent. -/
theorem prePow2_eq {val : ℕ} (h1 : 1 ≤ val) (h2 : val ≤ 2 ^ 63) :
    ∃ k ≤ 63, prePow2 val = 2 ^ k ∧ 2 ^ k ≤ val ∧ val < 2 ^ (k + 1) := by
  obtain ⟨k, hk, heq, hle, hlt⟩ := nextPow2_eq h1 h2
  by_cases hval : 2 ^ k = val
  · refine ⟨k, hk, by simp [prePow2, heq, hval], hval.le, ?_⟩
    rw [pow_succ]
    omega
  · have hk0 : k ≠ 0 := by
      rintro rfl
      exact hval (by omega)
    obtain ⟨j, rfl⟩ := Nat.exists_eq_succ_of_ne_zero hk0
    refine ⟨j, by omega, ?_, (hlt j (by omega)).le, by omega⟩
    simp only [prePow2, heq, if_neg hval, Nat.shiftRight_eq_div_pow]
    rw [pow_succ, pow_one, Nat.mul_div_cancel _ (by norm_num)]

end Ilobilix.Lib
