import Ilobilix.Lib.Math
import Mathlib.Algebra.Order.Group.Abs

/-!
# The time values of `lib/time.cppm`

A `timespec` denotes a number of nanoseconds, and its operators carry and borrow a second where the
nanoseconds leave their range. `to_timeval` rounds the nanoseconds with `div_roundup`, which is a
rounded quotient only for a power of two; for 1000 it clears the bits of 999 instead. The result is
still within a microsecond of the value, but for the last 487 values of `tv_nsec` it is a whole
second.
-/

namespace Ilobilix.Lib

structure Timeval where
  tvSec : ℤ
  tvUsec : ℤ
deriving DecidableEq

structure Timespec where
  tvSec : ℤ
  tvNsec : ℤ
deriving DecidableEq

/-- The value of a signed 64-bit operation whose exact result is `z`. -/
def wrap (z : ℤ) : ℤ := z.bmod (2 ^ 64)

/-- The operation does not overflow. -/
def Fits (z : ℤ) : Prop := -2 ^ 63 ≤ z ∧ z < 2 ^ 63

instance (z : ℤ) : Decidable (Fits z) := inferInstanceAs (Decidable (_ ∧ _))

theorem wrap_of_fits {z : ℤ} (h : Fits z) : wrap z = z := by
  obtain ⟨hlo, hhi⟩ := h
  exact Int.bmod_eq_of_le (by omega) (by omega)

namespace Timespec

/-- `operator+`, which is `operator+=` on a copy. -/
def add (a b : Timespec) : Timespec :=
  let tvSec := wrap (a.tvSec + b.tvSec)
  let tvNsec := wrap (a.tvNsec + b.tvNsec)
  if 1000000000 ≤ tvNsec then
    { tvSec := wrap (tvSec + tvNsec.tdiv 1000000000), tvNsec := tvNsec.tmod 1000000000 }
  else { tvSec, tvNsec }

def sub (a b : Timespec) : Timespec :=
  let tvSec := wrap (a.tvSec - b.tvSec)
  let tvNsec := wrap (a.tvNsec - b.tvNsec)
  if tvNsec < 0 then
    { tvSec := wrap (tvSec - (1 + (-tvNsec).tdiv 1000000000)),
      tvNsec := 1000000000 - (-tvNsec).tmod 1000000000 }
  else { tvSec, tvNsec }

/-- `operator<=>`. -/
def cmp (a b : Timespec) : Ordering :=
  if a.tvSec ≠ b.tvSec then compare a.tvSec b.tvSec else compare a.tvNsec b.tvNsec

def toTimeval (a : Timespec) : Timeval where
  tvSec := a.tvSec
  tvUsec := divRoundup (a.tvNsec % 2 ^ 64).toNat 1000

structure Normalised (a : Timespec) : Prop where
  fits : Fits a.tvSec
  nonneg : 0 ≤ a.tvNsec
  lt : a.tvNsec < 1000000000

/-- The nanoseconds a time denotes. -/
def value (a : Timespec) : ℤ := a.tvSec * 1000000000 + a.tvNsec

end Timespec

/-- The nanoseconds a time in microseconds denotes. -/
def Timeval.value (t : Timeval) : ℤ := t.tvSec * 1000000000 + t.tvUsec * 1000

namespace Timespec

variable {a b : Timespec}

/-! ## Carry and borrow -/

theorem Normalised.add (ha : a.Normalised) (hb : b.Normalised) (hsum : Fits (a.tvSec + b.tvSec))
    (hcarry : Fits ((a.value + b.value) / 1000000000)) :
    (a.add b).Normalised ∧ (a.add b).value = a.value + b.value := by
  obtain ⟨-, ha0, ha1⟩ := ha
  obtain ⟨-, hb0, hb1⟩ := hb
  have hnsec : Fits (a.tvNsec + b.tvNsec) := ⟨by omega, by omega⟩
  unfold Timespec.add
  simp only [wrap_of_fits hsum, wrap_of_fits hnsec]
  split
  · have hdiv : (a.tvNsec + b.tvNsec).tdiv 1000000000 = 1 := by
      rw [Int.tdiv_eq_ediv_of_nonneg (by omega)]
      omega
    have hmod : (a.tvNsec + b.tvNsec).tmod 1000000000 = a.tvNsec + b.tvNsec - 1000000000 := by
      rw [Int.tmod_eq_emod_of_nonneg (by omega)]
      omega
    have hfits : Fits (a.tvSec + b.tvSec + 1) := by
      unfold Fits Timespec.value at *
      omega
    rw [hdiv, hmod, wrap_of_fits hfits]
    refine ⟨⟨hfits, ?_, ?_⟩, ?_⟩ <;> simp only [Timespec.value] <;> omega
  · refine ⟨⟨hsum, ?_, ?_⟩, ?_⟩ <;> simp only [Timespec.value] <;> omega

theorem Normalised.sub (ha : a.Normalised) (hb : b.Normalised) (hdiff : Fits (a.tvSec - b.tvSec))
    (hborrow : Fits ((a.value - b.value) / 1000000000)) :
    (a.sub b).Normalised ∧ (a.sub b).value = a.value - b.value := by
  obtain ⟨-, ha0, ha1⟩ := ha
  obtain ⟨-, hb0, hb1⟩ := hb
  have hnsec : Fits (a.tvNsec - b.tvNsec) := ⟨by omega, by omega⟩
  unfold Timespec.sub
  simp only [wrap_of_fits hdiff, wrap_of_fits hnsec]
  split
  · have hdiv : (-(a.tvNsec - b.tvNsec)).tdiv 1000000000 = 0 :=
      Int.tdiv_eq_zero_of_lt (by omega) (by omega)
    have hmod : (-(a.tvNsec - b.tvNsec)).tmod 1000000000 = -(a.tvNsec - b.tvNsec) :=
      Int.tmod_eq_of_lt (by omega) (by omega)
    have hfits : Fits (a.tvSec - b.tvSec - (1 + 0)) := by
      unfold Fits Timespec.value at *
      omega
    rw [hdiv, hmod, wrap_of_fits hfits]
    refine ⟨⟨hfits, ?_, ?_⟩, ?_⟩ <;> simp only [Timespec.value] <;> omega
  · refine ⟨⟨hdiff, ?_, ?_⟩, ?_⟩ <;> simp only [Timespec.value] <;> omega

/-- Two normalised times with the same value are the same. -/
theorem Normalised.ext (ha : a.Normalised) (hb : b.Normalised) (h : a.value = b.value) : a = b := by
  obtain ⟨-, ha0, ha1⟩ := ha
  obtain ⟨-, hb0, hb1⟩ := hb
  unfold Timespec.value at h
  obtain ⟨hsec, hnsec⟩ : a.tvSec = b.tvSec ∧ a.tvNsec = b.tvNsec := by omega
  cases a
  cases b
  simp_all

/-- The times are ordered by seconds and then by nanoseconds, as their values are. -/
theorem Normalised.cmp (ha : a.Normalised) (hb : b.Normalised) : a.cmp b = compare a.value b.value := by
  obtain ⟨-, ha0, ha1⟩ := ha
  obtain ⟨-, hb0, hb1⟩ := hb
  unfold Timespec.cmp Timespec.value
  split
  · obtain hlt | hgt := lt_or_gt_of_ne ‹_›
    · rw [compare_lt_iff_lt.mpr hlt, compare_lt_iff_lt.mpr (by omega)]
    · rw [compare_gt_iff_gt.mpr hgt, compare_gt_iff_gt.mpr (by omega)]
  · obtain hlt | heq | hgt := lt_trichotomy a.tvNsec b.tvNsec
    · rw [compare_lt_iff_lt.mpr hlt, compare_lt_iff_lt.mpr (by omega)]
    · rw [compare_eq_iff_eq.mpr heq, compare_eq_iff_eq.mpr (by omega)]
    · rw [compare_gt_iff_gt.mpr hgt, compare_gt_iff_gt.mpr (by omega)]

/-! ## Rounding to microseconds -/

theorem and_24_ge : ∀ l < 1024, l ≤ (l &&& 24) + 999 := by
  have hlast : ∀ d < 24, d < (1000 + d) &&& 24 := by decide
  intro l hl
  obtain hlt | hge := Nat.lt_or_ge l 1000
  · exact (Nat.le_of_lt_succ hlt).trans (Nat.le_add_left 999 _)
  · obtain ⟨d, rfl⟩ := Nat.exists_eq_add_of_le hge
    have hd := hlast d (by omega)
    omega

/-- For 1000, `align_down` clears the bits of 999; of the lower ten, it keeps those of 24. -/
theorem alignDown_1000 {x : ℕ} (hx : x < 2 ^ 64) :
    x / 1024 * 1024 ≤ alignDown x 1000 ∧ alignDown x 1000 ≤ x / 1024 * 1024 + 24 ∧
      alignDown x 1000 ≤ x ∧ x ≤ alignDown x 1000 + 999 := by
  have hmask : alignDown x 1000 = x &&& 18446744073709550616 := by
    rw [alignDown, Nat.mod_eq_of_lt hx]
    rfl
  have hhigh : alignDown x 1000 / 2 ^ 10 = x / 2 ^ 10 := by
    have hones : x / 2 ^ 10 < 2 ^ 54 := by omega
    rw [hmask, Nat.and_div_two_pow, show 18446744073709550616 / 2 ^ 10 = 2 ^ 54 - 1 from rfl,
      Nat.and_two_pow_sub_one_eq_mod, Nat.mod_eq_of_lt hones]
  have hlow : alignDown x 1000 % 2 ^ 10 = x % 2 ^ 10 &&& 24 := by
    rw [hmask, Nat.and_mod_two_pow]
  have hle : x % 2 ^ 10 &&& 24 ≤ 24 := Nat.and_le_right
  have hle' : x % 2 ^ 10 &&& 24 ≤ x % 2 ^ 10 := Nat.and_le_left
  have hge := and_24_ge (x % 2 ^ 10) (by omega)
  omega

/-- The rounded microseconds are within a microsecond, and are a whole second from 999999513 on. -/
theorem Normalised.toTimeval (ha : a.Normalised) :
    |a.toTimeval.value - a.value| ≤ 1000 ∧ 0 ≤ a.toTimeval.tvUsec ∧
      (a.toTimeval.tvUsec < 1000000 ↔ a.tvNsec < 999999513) := by
  obtain ⟨-, hnonneg, hlt⟩ := ha
  obtain ⟨n, hn⟩ := Int.eq_ofNat_of_zero_le hnonneg
  have hcast : (a.tvNsec % 2 ^ 64).toNat = n := by omega
  have hsum : (n + 1000 + (2 ^ 64 - 1)) % 2 ^ 64 = n + 999 := by omega
  obtain ⟨hlo, hhi, hle, hge⟩ := alignDown_1000 (x := n + 999) (by omega)
  have husec : a.toTimeval.tvUsec = (alignDown (n + 999) 1000 / 1000 : ℕ) := by
    rw [Timespec.toTimeval, hcast, divRoundup, hsum]
  generalize alignDown (n + 999) 1000 = r at *
  refine ⟨abs_le.mpr ?_, by omega, by omega⟩
  change -1000 ≤ (a.tvSec * 1000000000 + a.toTimeval.tvUsec * 1000) - (a.tvSec * 1000000000 + a.tvNsec) ∧
    (a.tvSec * 1000000000 + a.toTimeval.tvUsec * 1000) - (a.tvSec * 1000000000 + a.tvNsec) ≤ 1000
  omega

/-! ## All operations -/

/-- What the operations of two times are to be, where the seconds do not overflow. -/
structure Exact (a b : Timespec) : Prop where
  add : Fits (a.tvSec + b.tvSec) → Fits ((a.value + b.value) / 1000000000) →
    (a.add b).Normalised ∧ (a.add b).value = a.value + b.value
  sub : Fits (a.tvSec - b.tvSec) → Fits ((a.value - b.value) / 1000000000) →
    (a.sub b).Normalised ∧ (a.sub b).value = a.value - b.value
  add_sub : Fits (a.tvSec + b.tvSec) → Fits ((a.value + b.value) / 1000000000) →
    Fits ((a.add b).tvSec - b.tvSec) → (a.add b).sub b = a
  cmp : a.cmp b = compare a.value b.value
  toTimeval : 0 ≤ a.toTimeval.tvUsec ∧ a.toTimeval.tvUsec < 1000000 ∧
    |a.toTimeval.value - a.value| ≤ 1000

theorem Normalised.value_div (ha : a.Normalised) : a.value / 1000000000 = a.tvSec := by
  obtain ⟨-, hnonneg, hlt⟩ := ha
  unfold Timespec.value
  omega

theorem exact_iff (ha : a.Normalised) (hb : b.Normalised) : Exact a b ↔ a.tvNsec < 999999513 := by
  obtain ⟨hnear, hnonneg, hround⟩ := ha.toTimeval
  refine ⟨fun h => hround.mp h.toTimeval.2.1, fun h => ?_⟩
  refine ⟨ha.add hb, ha.sub hb, fun hsum hcarry hdiff => ?_, ha.cmp hb, hnonneg, hround.mpr h, hnear⟩
  obtain ⟨hadd, hvalue⟩ := ha.add hb hsum hcarry
  have hback : (a.add b).value - b.value = a.value := by omega
  obtain ⟨hsub, hvalue'⟩ := hadd.sub hb hdiff (by rw [hback, ha.value_div]; exact ha.fits)
  exact hsub.ext ha (hvalue'.trans hback)

theorem exact_iff_carry : Exact ⟨5, 999999512⟩ ⟨7, 600000000⟩ ↔ (999999512 : ℤ) < 999999513 :=
  exact_iff ⟨by decide, by decide, by decide⟩ ⟨by decide, by decide, by decide⟩

/-- The last nanosecond of a second is rounded to a microsecond of the next one. -/
theorem not_exact : Normalised ⟨5, 999999999⟩ ∧ Normalised ⟨0, 0⟩ ∧ ¬ Exact ⟨5, 999999999⟩ ⟨0, 0⟩ :=
  ⟨⟨by decide, by decide, by decide⟩, ⟨by decide, by decide, by decide⟩,
    fun h => absurd h.toTimeval.2.1 (by decide)⟩

end Timespec

end Ilobilix.Lib
