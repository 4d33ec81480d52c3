import Ilobilix.Lib.Math
import Mathlib.Tactic.Linarith

/-!
# `freqfrac` of `lib/math.cppm`

The clocks convert between ticks and nanoseconds with a fraction `n / 2 ^ p`, where `p` is the binary
logarithm of the frequency. `nanos` rounds down twice, in `init` and in the shift, and each rounding
costs less than one unit in the last place: `nanos_spec`.
-/

namespace Ilobilix.Lib

structure Freqfrac where
  p : ℕ
  n : ℕ
  freq : ℕ
deriving DecidableEq, Repr

namespace Freqfrac

/-- `1'000'000'000`. -/
def nanosPerSecond : ℕ := 1000000000

def init (freq : ℕ) : Freqfrac :=
  let p := log2 freq
  let n := (nanosPerSecond <<< p) % 2 ^ 64 / freq
  ⟨p, n, freq⟩

/-- The product has 128 bits. -/
def nanos (f : Freqfrac) (ticks : ℕ) : ℕ :=
  let res := ((ticks * f.n) % 2 ^ 128) >>> f.p
  if res >>> 64 ≠ 0 then 2 ^ 64 - 1 else res % 2 ^ 64

def ticks (f : Freqfrac) (nanos : ℕ) : ℕ := (nanos <<< f.p) % 2 ^ 64 / f.n

def frequency (f : Freqfrac) : ℕ := f.freq

section Fraction

variable {freq p n t : ℕ}

/-- A frequency that `init` can scale is small. -/
theorem log2_lt (hfit : nanosPerSecond * 2 ^ freq.log2 < 2 ^ 64) : freq.log2 < 35 := by
  by_contra hle
  have hpow : 2 ^ 35 ≤ 2 ^ freq.log2 := Nat.pow_le_pow_right (by decide) (Nat.not_lt.mp hle)
  have hmul : nanosPerSecond * 2 ^ 35 ≤ nanosPerSecond * 2 ^ freq.log2 := Nat.mul_le_mul_left _ hpow
  exact absurd (hmul.trans_lt hfit) (by decide)

theorem init_p (h : freq ≠ 0) (hfit : nanosPerSecond * 2 ^ freq.log2 < 2 ^ 64) :
    (init freq).p = freq.log2 := by
  have hlog := log2_lt hfit
  change log2 freq = freq.log2
  rw [log2, bitWidth, if_neg h]
  omega

theorem init_n (h : nanosPerSecond * 2 ^ (init freq).p < 2 ^ 64) :
    (init freq).n = nanosPerSecond * 2 ^ (init freq).p / freq := by
  change (nanosPerSecond <<< (init freq).p) % 2 ^ 64 / freq = _
  rw [Nat.shiftLeft_eq, Nat.mod_eq_of_lt h]

/-- The fraction is not above the exact one. -/
theorem mul_fraction_le (h : freq ≠ 0) (hn : n = nanosPerSecond * 2 ^ p / freq) :
    t * n / 2 ^ p ≤ t * nanosPerSecond / freq := by
  have hle : n * freq ≤ nanosPerSecond * 2 ^ p := hn ▸ Nat.div_mul_le_self _ _
  rw [Nat.le_div_iff_mul_le (Nat.pos_of_ne_zero h)]
  refine Nat.le_of_mul_le_mul_right ?_ (Nat.two_pow_pos p)
  calc t * n / 2 ^ p * freq * 2 ^ p
      = t * n / 2 ^ p * 2 ^ p * freq := by ring
    _ ≤ t * n * freq := Nat.mul_le_mul_right _ (Nat.div_mul_le_self _ _)
    _ = t * (n * freq) := by ring
    _ ≤ t * (nanosPerSecond * 2 ^ p) := Nat.mul_le_mul_left _ hle
    _ = t * nanosPerSecond * 2 ^ p := by ring

/-- The fraction loses less than `2 ^ -p` a tick, and the shift less than a nanosecond. -/
theorem le_mul_fraction (h : freq ≠ 0) (hn : n = nanosPerSecond * 2 ^ p / freq) :
    t * nanosPerSecond / freq ≤ t * n / 2 ^ p + (t / 2 ^ p + 1) := by
  have hpos : 0 < 2 ^ p := Nat.two_pow_pos p
  have hlt : nanosPerSecond * 2 ^ p < (n + 1) * freq := by
    rw [hn]
    exact Nat.lt_mul_of_div_lt (Nat.lt_succ_self _) (Nat.pos_of_ne_zero h)
  have hdiv : t * (n + 1) / 2 ^ p ≤ t * n / 2 ^ p + (t / 2 ^ p + 1) := by
    rw [Nat.mul_succ, Nat.div_le_iff_le_mul_add_pred hpos]
    have h₁ := Nat.div_add_mod (t * n) (2 ^ p)
    have h₂ := Nat.div_add_mod t (2 ^ p)
    have h₃ := Nat.mod_lt (t * n) hpos
    have h₄ := Nat.mod_lt t hpos
    rw [Nat.mul_add, Nat.mul_add, Nat.mul_one]
    omega
  refine le_trans ?_ hdiv
  rw [Nat.le_div_iff_mul_le hpos]
  refine Nat.le_of_mul_le_mul_right ?_ (Nat.pos_of_ne_zero h)
  calc t * nanosPerSecond / freq * 2 ^ p * freq
      = t * nanosPerSecond / freq * freq * 2 ^ p := by ring
    _ ≤ t * nanosPerSecond * 2 ^ p := Nat.mul_le_mul_right _ (Nat.div_mul_le_self _ _)
    _ = t * (nanosPerSecond * 2 ^ p) := by ring
    _ ≤ t * ((n + 1) * freq) := Nat.mul_le_mul_left _ hlt.le
    _ = t * (n + 1) * freq := by ring

end Fraction

section Nanos

variable {f : Freqfrac} {t u : ℕ}

/-- `nanos` without the machine words. -/
theorem nanos_eq (hn : f.n < 2 ^ 64) (ht : t < 2 ^ 64) :
    f.nanos t = min (t * f.n / 2 ^ f.p) (2 ^ 64 - 1) := by
  have hmul : t * f.n < 2 ^ 128 := by
    calc t * f.n < 2 ^ 64 * 2 ^ 64 := Nat.mul_lt_mul'' ht hn
      _ = 2 ^ 128 := by norm_num
  rw [nanos, Nat.mod_eq_of_lt hmul, Nat.shiftRight_eq_div_pow, Nat.shiftRight_eq_div_pow]
  obtain ⟨res, hres⟩ : ∃ res, res = t * f.n / 2 ^ f.p := ⟨_, rfl⟩
  rw [← hres]
  by_cases hlt : res < 2 ^ 64
  · rw [if_neg (not_not.mpr (Nat.div_eq_of_lt hlt)), Nat.mod_eq_of_lt hlt, min_eq_left (by omega)]
  · rw [if_pos (Nat.div_pos (Nat.not_lt.mp hlt) (by norm_num)).ne', min_eq_right (by omega)]

theorem nanos_mono (hn : f.n < 2 ^ 64) (hle : t ≤ u) (hu : u < 2 ^ 64) : f.nanos t ≤ f.nanos u := by
  rw [nanos_eq hn (hle.trans_lt hu), nanos_eq hn hu]
  exact min_le_min_right _ (Nat.div_le_div_right (Nat.mul_le_mul_right _ hle))

/-- Back to ticks. -/
theorem ticks_nanos_le (hn : f.n < 2 ^ 64) (hp : f.p ≤ 64) (ht : t < 2 ^ 64)
    (hfit : f.nanos t < 2 ^ (64 - f.p)) : f.ticks (f.nanos t) ≤ t := by
  have hshift : f.nanos t * 2 ^ f.p < 2 ^ 64 := by
    calc f.nanos t * 2 ^ f.p < 2 ^ (64 - f.p) * 2 ^ f.p :=
          Nat.mul_lt_mul_of_pos_right hfit (Nat.two_pow_pos _)
      _ = 2 ^ 64 := by rw [← pow_add, Nat.sub_add_cancel hp]
  have hle : f.nanos t ≤ t * f.n / 2 ^ f.p := by
    rw [nanos_eq hn ht]
    exact min_le_left _ _
  rw [ticks, Nat.shiftLeft_eq, Nat.mod_eq_of_lt hshift]
  refine Nat.div_le_of_le_mul ?_
  calc f.nanos t * 2 ^ f.p ≤ t * f.n / 2 ^ f.p * 2 ^ f.p := Nat.mul_le_mul_right _ hle
    _ ≤ t * f.n := Nat.div_mul_le_self _ _
    _ = f.n * t := Nat.mul_comm _ _

end Nanos

/-- `nanos` is monotone and not above the exact number of nanoseconds. It falls short of it by at most
`t / 2 ^ p + 1` unless it is the largest word, and turning it back into ticks divides by a positive number
and does not exceed `t`. -/
theorem nanos_spec {freq t : ℕ} (h : 1 ≤ freq) (hfit : nanosPerSecond * 2 ^ freq.log2 < 2 ^ 64)
    (ht : t < 2 ^ 64) :
    (∀ u, t ≤ u → u < 2 ^ 64 → (init freq).nanos t ≤ (init freq).nanos u) ∧
    (init freq).nanos t ≤ t * nanosPerSecond / freq ∧
    (t * nanosPerSecond / freq ≤ (init freq).nanos t + (t / 2 ^ freq.log2 + 1) ∨
      (init freq).nanos t = 2 ^ 64 - 1 ∧ 2 ^ 64 ≤ t * (init freq).n / 2 ^ freq.log2) ∧
    0 < (init freq).n ∧
    ((init freq).nanos t < 2 ^ (64 - freq.log2) → (init freq).ticks ((init freq).nanos t) ≤ t) := by
  have h0 : freq ≠ 0 := Nat.one_le_iff_ne_zero.mp h
  have hp := init_p h0 hfit
  have hn : (init freq).n = nanosPerSecond * 2 ^ freq.log2 / freq := by
    rw [init_n (hp ▸ hfit), hp]
  have hn64 : (init freq).n < 2 ^ 64 := hn ▸ (Nat.div_le_self _ _).trans_lt hfit
  have hpos : 0 < (init freq).n := by
    rw [hn]
    refine Nat.div_pos ?_ h
    calc freq ≤ 2 * 2 ^ freq.log2 := by
          rw [← pow_succ']
          exact Nat.lt_log2_self.le
      _ ≤ nanosPerSecond * 2 ^ freq.log2 := Nat.mul_le_mul_right _ (by decide)
  have hnanos := nanos_eq hn64 ht
  rw [hp] at hnanos
  refine ⟨fun u hle hu => nanos_mono hn64 hle hu, ?_, ?_, hpos, fun hlt => ?_⟩
  · rw [hnanos]
    exact (min_le_left _ _).trans (mul_fraction_le h0 hn)
  · have hle := le_mul_fraction (t := t) h0 hn
    rw [hnanos]
    by_cases hsat : 2 ^ 64 ≤ t * (init freq).n / 2 ^ freq.log2
    · exact Or.inr ⟨min_eq_right (by omega), hsat⟩
    · rw [min_eq_left (by omega)]
      exact Or.inl hle
  · rw [← hp] at hlt
    exact ticks_nanos_le hn64 (hp ▸ (log2_lt hfit).le.trans (by decide)) ht hlt

/-- The ACPI timer. -/
theorem nanos_spec_acpipm :
    (∀ u, 3579545 ≤ u → u < 2 ^ 64 → (init 3579545).nanos 3579545 ≤ (init 3579545).nanos u) ∧
    (init 3579545).nanos 3579545 ≤ 3579545 * nanosPerSecond / 3579545 ∧
    (3579545 * nanosPerSecond / 3579545 ≤
        (init 3579545).nanos 3579545 + (3579545 / 2 ^ Nat.log2 3579545 + 1) ∨
      (init 3579545).nanos 3579545 = 2 ^ 64 - 1 ∧
        2 ^ 64 ≤ 3579545 * (init 3579545).n / 2 ^ Nat.log2 3579545) ∧
    0 < (init 3579545).n ∧
    ((init 3579545).nanos 3579545 < 2 ^ (64 - Nat.log2 3579545) →
      (init 3579545).ticks ((init 3579545).nanos 3579545) ≤ 3579545) :=
  nanos_spec (by decide) (by decide) (by decide)

end Freqfrac

end Ilobilix.Lib
