import Ilobilix.Foundation.Masks
import Mathlib.Logic.Function.Basic
import Mathlib.Tactic.Ring

/-!
# Base address registers: `entity::read_bars`

For each register `read_bars` writes all ones, reads what the device made of them and writes the old
value back. A register of a size `2 ^ k` takes only the bits from `k` on, so the complement of what
is read gives the size. A 64-bit register takes two slots.

`Kind` are the registers that a device may have, and `readBars_eq` says that `read_bars` finds out
which they are.
-/

namespace Ilobilix.Pci

/-! ## The model -/

/-- The configuration registers of a device by their offsets: what each reads, and the bits that can
be written. -/
@[ext] structure Registers where
  value : ℕ → ℕ
  mask : ℕ → ℕ
  value_lt : ∀ offset, value offset < 2 ^ 32
  mask_lt : ∀ offset, mask offset < 2 ^ 32

namespace Registers

def read (regs : Registers) (offset : ℕ) : ℕ := regs.value offset

def write (regs : Registers) (offset value : ℕ) : Registers :=
  { regs with
    value := Function.update regs.value offset
      (Masks.written 32 (regs.mask offset) value (regs.value offset))
    value_lt := fun o => by
      obtain rfl | hne := eq_or_ne o offset
      · rw [Function.update_self]
        exact Nat.or_lt_two_pow (Nat.and_lt_two_pow _ (regs.mask_lt o))
          (Nat.lt_of_le_of_lt Nat.and_le_left (regs.value_lt o))
      · rw [Function.update_of_ne hne]
        exact regs.value_lt o }

end Registers

/-- `bar::type`. -/
inductive BarType
  | invalid
  | io
  | mem
deriving DecidableEq, Repr

structure Bar where
  virt : ℕ
  phys : ℕ
  size : ℕ
  prefetch : Bool
  bits64 : Bool
  type : BarType
deriving DecidableEq, Repr

def bar0 : ℕ := 0x10

/-- The end of the branch for memory. -/
def memBar (addr length : ℕ) (prefetch bits64 : Bool) : Bar :=
  { virt := 0, phys := addr, size := length, prefetch, bits64,
    type := if addr = 0 ∧ length = 0 then .invalid else .mem }

/-- The registers and the array `bars`. -/
structure BarState where
  regs : Registers
  bars : ℕ → Bar

/-- The body of the loop, with the index for the next turn. -/
def readBar (nbars i : ℕ) (s : BarState) : ℕ × BarState :=
  let offset := bar0 + i * 4
  let bar := s.regs.read offset
  let regs := s.regs.write offset 0xFFFFFFFF
  let lenlow := regs.read offset
  let regs := regs.write offset bar
  if bar &&& 1 ≠ 0 then
    let addr := bar &&& 0xFFFFFFFC
    let length := (2 ^ 32 - 1 - (lenlow &&& 0xFFFFFFFC) + 1) % 2 ^ 32 &&& 0xFFFF
    (i + 1, ⟨regs, Function.update s.bars i ⟨addr, addr, length, false, false, .io⟩⟩)
  else
    let prefetch := decide (bar &&& 8 ≠ 0)
    match bar >>> 1 &&& 3 with
    | 0 =>
        let length := (2 ^ 32 - 1 - (lenlow &&& 0xFFFFFFF0) + 1) % 2 ^ 32
        let addr := bar &&& 0xFFFFFFF0
        (i + 1, ⟨regs, Function.update s.bars i (memBar addr length prefetch false)⟩)
    | 2 =>
        if i = nbars - 1 then (i + 1, ⟨regs, s.bars⟩)
        else
          let offseth := offset + 4
          let barh := regs.read offseth
          let regs := regs.write offseth 0xFFFFFFFF
          let lenhigh := regs.read offseth
          let regs := regs.write offseth barh
          let length := (2 ^ 64 - 1 - (lenhigh <<< 32 ||| lenlow &&& 0xFFFFFFF0) + 1) % 2 ^ 64
          let addr := barh <<< 32 ||| bar &&& 0xFFFFFFF0
          let bars := Function.update s.bars i (memBar addr length prefetch true)
          (i + 2, ⟨regs, Function.update bars (i + 1) ⟨0, 0, 0, false, true, .invalid⟩⟩)
    | _ => (i + 1, ⟨regs, Function.update s.bars i (memBar 0 0 prefetch false)⟩)

/-- The loop, which takes `nbars` turns at most. -/
def readBarsFrom (nbars : ℕ) : ℕ → ℕ → BarState → BarState
  | 0, _, s => s
  | fuel + 1, i, s =>
      if i < nbars then readBarsFrom nbars fuel (readBar nbars i s).1 (readBar nbars i s).2 else s

def readBars (nbars : ℕ) (s : BarState) : BarState := readBarsFrom nbars nbars 0 s

/-! ## The registers of a device -/

/-- A base address register of the size `2 ^ k`. A device may leave out the upper half of one for
ports. -/
inductive Kind
  | unimplemented
  | io (k base : ℕ) (wide : Bool) (hk : 2 ≤ k ∧ k ≤ 15) (haligned : 2 ^ k ∣ base)
      (hlt : base < 2 ^ (if wide then 32 else 16))
  | mem32 (k base : ℕ) (prefetch : Bool) (hk : 4 ≤ k ∧ k ≤ 31) (haligned : 2 ^ k ∣ base)
      (hlt : base < 2 ^ 32)
  | mem64 (k base : ℕ) (prefetch : Bool) (hk : 4 ≤ k ∧ k ≤ 63) (haligned : 2 ^ k ∣ base)
      (hlt : base < 2 ^ 64)

namespace Kind

/-- What the slots read, and the bits that can be written: those of the base from the size on. -/
def slots : Kind → List (ℕ × ℕ)
  | unimplemented => [(0, 0)]
  | io k base wide _ _ _ => [(base + 1, 2 ^ (if wide then 32 else 16) - 2 ^ k)]
  | mem32 k base prefetch _ _ _ => [(base + if prefetch then 8 else 0, 2 ^ 32 - 2 ^ k)]
  | mem64 k base prefetch _ _ _ =>
      [(base % 2 ^ 32 + 4 + if prefetch then 8 else 0, (2 ^ 64 - 2 ^ k) % 2 ^ 32),
        (base / 2 ^ 32, (2 ^ 64 - 2 ^ k) / 2 ^ 32)]

/-- What `read_bars` is to find in the slots. -/
def bars : Kind → List Bar
  | unimplemented => [⟨0, 0, 0, false, false, .invalid⟩]
  | io k base _ _ _ _ => [⟨base, base, 2 ^ k, false, false, .io⟩]
  | mem32 k base prefetch _ _ _ => [⟨0, base, 2 ^ k, prefetch, false, .mem⟩]
  | mem64 k base prefetch _ _ _ =>
      [⟨0, base, 2 ^ k, prefetch, true, .mem⟩, ⟨0, 0, 0, false, true, .invalid⟩]

theorem length_bars (kind : Kind) : kind.bars.length = kind.slots.length := by
  cases kind <;> rfl

end Kind

/-- The registers from a slot on are those of the list. -/
def Registers.Holds (regs : Registers) (i : ℕ) (slots : List (ℕ × ℕ)) : Prop :=
  ∀ j (hj : j < slots.length), regs.value (bar0 + (i + j) * 4) = slots[j].1 ∧
    regs.mask (bar0 + (i + j) * 4) = slots[j].2

/-! ## Sizing one register -/

namespace Registers

variable {regs : Registers} {offset w k : ℕ}

/-- The old value written back after all ones restores the registers. -/
theorem write_write (regs : Registers) (offset value : ℕ) :
    (regs.write offset value).write offset (regs.read offset) = regs := by
  ext o
  · obtain rfl | hne := eq_or_ne o offset
    · simp only [write, read, Function.update_self]
      exact Masks.written_written (regs.mask_lt o) (regs.value_lt o)
    · simp only [write, Function.update_of_ne hne]
  · rfl

/-- What the register reads after all ones. -/
theorem read_write_ones (hmask : regs.mask offset = 2 ^ w - 2 ^ k) (hk : k ≤ w) (hw : w ≤ 32)
    (hlt : regs.value offset < 2 ^ w) :
    (regs.write offset 0xFFFFFFFF).read offset = 2 ^ w - 2 ^ k + regs.read offset % 2 ^ k := by
  simp only [write, read, Function.update_self, hmask]
  exact Masks.written_ones hk hw hlt

end Registers

theorem and_4 {x : ℕ} (hx : x < 2 ^ 32) : x &&& 0xFFFFFFFC = x / 4 * 4 :=
  Masks.and_run (w := 32) (k := 2) (by decide) hx

theorem and_16 {x : ℕ} (hx : x < 2 ^ 32) : x &&& 0xFFFFFFF0 = x / 16 * 16 :=
  Masks.and_run (w := 32) (k := 4) (by decide) hx

/-- The size of a register, from its mask in `w` bits. -/
theorem complement_size {w k : ℕ} (hk : k < w) : (2 ^ w - 1 - (2 ^ w - 2 ^ k) + 1) % 2 ^ w = 2 ^ k := by
  have hlt : 2 ^ k < 2 ^ w := Nat.pow_lt_pow_right (by decide) hk
  have hpos : 0 < 2 ^ k := Nat.two_pow_pos k
  rw [show 2 ^ w - 1 - (2 ^ w - 2 ^ k) + 1 = 2 ^ k by omega, Nat.mod_eq_of_lt hlt]

/-- The type bits below an aligned base. -/
theorem low_bits {base low k : ℕ} (haligned : 2 ^ k ∣ base) (hlow : low < 2 ^ k) :
    (base + low) % 2 ^ k = low := by
  obtain ⟨q, rfl⟩ := haligned
  rw [Nat.mul_add_mod, Nat.mod_eq_of_lt hlow]

theorem dvd_of_size {base j k : ℕ} (hjk : j ≤ k) (haligned : 2 ^ k ∣ base) : 2 ^ j ∣ base :=
  (pow_dvd_pow 2 hjk).trans haligned

theorem readBar_io {nbars i w k base : ℕ} {s : BarState} (hw : w = 32 ∨ w = 16) (hk : 2 ≤ k ∧ k ≤ 15)
    (haligned : 2 ^ k ∣ base) (hlt : base < 2 ^ w) (hvalue : s.regs.value (bar0 + i * 4) = base + 1)
    (hmask : s.regs.mask (bar0 + i * 4) = 2 ^ w - 2 ^ k) :
    readBar nbars i s =
      (i + 1, ⟨s.regs, Function.update s.bars i ⟨base, base, 2 ^ k, false, false, .io⟩⟩) := by
  have hk32 : 2 ^ k ≤ 2 ^ 15 := Nat.pow_le_pow_right (by decide) hk.2
  obtain ⟨q, hq⟩ : 4 ∣ base := dvd_of_size hk.1 haligned
  obtain ⟨t, ht⟩ : 4 ∣ 2 ^ k := pow_dvd_pow 2 hk.1
  have ht0 : 0 < 2 ^ k := Nat.two_pow_pos k
  have hlow := low_bits haligned (show 1 < 2 ^ k by omega)
  have hread : s.regs.read (bar0 + i * 4) = base + 1 := hvalue
  obtain ⟨hkw, hw32, hvalue'⟩ : k ≤ w ∧ w ≤ 32 ∧ base + 1 < 2 ^ w := by
    obtain rfl | rfl := hw <;> omega
  have hword : 2 ^ w ≤ 2 ^ 32 := Nat.pow_le_pow_right (by decide) hw32
  have hlen := Registers.read_write_ones hmask hkw hw32 (hvalue.trans_lt hvalue')
  rw [hread, hlow] at hlen
  have hodd : base + 1 &&& 1 ≠ 0 := by
    rw [Nat.and_one_is_mod]
    omega
  have haddr : base + 1 &&& 0xFFFFFFFC = base := by
    rw [and_4 (by omega)]
    omega
  have hsize : (2 ^ 32 - 1 - (2 ^ w - 2 ^ k + 1 &&& 0xFFFFFFFC) + 1) % 2 ^ 32 &&& 0xFFFF = 2 ^ k := by
    rw [and_4 (by omega), show 0xFFFF = 2 ^ 16 - 1 from rfl, Nat.and_two_pow_sub_one_eq_mod]
    obtain rfl | rfl := hw <;> omega
  have hrestore := Registers.write_write s.regs (bar0 + i * 4) 0xFFFFFFFF
  rw [hread] at hrestore
  unfold readBar
  simp only [hlen, hread, hrestore, if_pos hodd, haddr, hsize]

/-- The type bits of a register for memory. -/
theorem mem_bits {bar low : ℕ} (hlow : bar % 16 = low) (heven : low % 2 = 0) :
    ¬ (bar &&& 1 ≠ 0) ∧ bar >>> 1 &&& 3 = low / 2 % 4 ∧ decide (bar &&& 8 ≠ 0) = decide (8 ≤ low) := by
  refine ⟨?_, ?_, ?_⟩
  · rw [Nat.and_one_is_mod]
    omega
  · rw [show 3 = 2 ^ 2 - 1 from rfl, Nat.and_two_pow_sub_one_eq_mod, Nat.shiftRight_eq_div_pow]
    omega
  · rw [show 8 = 2 ^ 3 from rfl, Nat.and_two_pow, Nat.testBit_eq_decide_div_mod_eq]
    by_cases hbit : bar / 2 ^ 3 % 2 = 1
    · simp only [hbit, decide_true, Bool.toNat_true]
      simp
      omega
    · simp only [hbit, decide_false, Bool.toNat_false]
      simp
      omega

/-- The bits of a register for memory above its type, and the mask without the type. -/
theorem lenlow_eq {m low : ℕ} (hm : 16 ∣ m) (hlow : low < 16) (hlt : m + low < 2 ^ 32) :
    m + low &&& 0xFFFFFFF0 = m := by
  obtain ⟨q, rfl⟩ := hm
  rw [and_16 hlt]
  omega

theorem add_low_lt {m low : ℕ} (hm : 16 ∣ m) (hlow : low < 16) (hlt : m < 2 ^ 32) : m + low < 2 ^ 32 := by
  obtain ⟨q, rfl⟩ := hm
  omega

/-- With `k = 32` the register is unimplemented. -/
theorem readBar_mem32 {nbars i k base : ℕ} {prefetch : Bool} {s : BarState} (hk : 4 ≤ k ∧ k ≤ 32)
    (haligned : 2 ^ k ∣ base) (hlt : base < 2 ^ 32)
    (hvalue : s.regs.value (bar0 + i * 4) = base + if prefetch then 8 else 0)
    (hmask : s.regs.mask (bar0 + i * 4) = 2 ^ 32 - 2 ^ k) :
    readBar nbars i s =
      (i + 1, ⟨s.regs, Function.update s.bars i (memBar base (2 ^ k % 2 ^ 32) prefetch false)⟩) := by
  obtain ⟨low, hlow⟩ : ∃ low, low = if prefetch then 8 else 0 := ⟨_, rfl⟩
  rw [← hlow] at hvalue
  have hlow16 : low = 0 ∨ low = 8 := by
    rw [hlow]
    cases prefetch <;> decide
  have h16 : 16 ∣ base := dvd_of_size hk.1 haligned
  have hlowlt : low < 16 := by rcases hlow16 with rfl | rfl <;> decide
  have heven₀ : low % 2 = 0 := by rcases hlow16 with rfl | rfl <;> rfl
  have hk16 : 16 ∣ 2 ^ k := pow_dvd_pow 2 hk.1
  have hk32 : 2 ^ k ≤ 2 ^ 32 := Nat.pow_le_pow_right (by decide) hk.2
  have hpos : 0 < 2 ^ k := Nat.two_pow_pos k
  have hbase : base + low < 2 ^ 32 := add_low_lt h16 hlowlt hlt
  have hread : s.regs.read (bar0 + i * 4) = base + low := hvalue
  have hlen := Registers.read_write_ones hmask hk.2 le_rfl (hvalue.trans_lt hbase)
  rw [hread, low_bits haligned (hlowlt.trans_le (Nat.le_of_dvd hpos hk16))] at hlen
  obtain ⟨heven, htype, hprefetch⟩ := @mem_bits (base + low) low (low_bits (k := 4) h16 hlowlt) heven₀
  have htype0 : low / 2 % 4 = 0 := by rcases hlow16 with rfl | rfl <;> rfl
  have hprefetch8 : decide (8 ≤ low) = prefetch := by
    rw [hlow]
    cases prefetch <;> decide
  have hmask16 : 16 ∣ 2 ^ 32 - 2 ^ k := Nat.dvd_sub (by decide) hk16
  have hmasklt : 2 ^ 32 - 2 ^ k < 2 ^ 32 := Nat.sub_lt (by decide) hpos
  have hsize : (2 ^ 32 - 1 - (2 ^ 32 - 2 ^ k + low &&& 0xFFFFFFF0) + 1) % 2 ^ 32 = 2 ^ k % 2 ^ 32 := by
    rw [lenlow_eq hmask16 hlowlt (add_low_lt hmask16 hlowlt hmasklt), Nat.sub_right_comm,
      Nat.sub_sub_self hk32, Nat.sub_add_cancel hpos]
  have hrestore := Registers.write_write s.regs (bar0 + i * 4) 0xFFFFFFFF
  rw [hread] at hrestore
  unfold readBar
  simp only [hread, hlen, hrestore, if_neg heven, htype, htype0, hprefetch, hprefetch8, hsize,
    lenlow_eq h16 hlowlt hbase]

/-- The two halves of the mask of a 64-bit register. -/
theorem mask64 {k : ℕ} (hk : k ≤ 63) : (2 ^ 64 - 2 ^ k) % 2 ^ 32 = 2 ^ 32 - 2 ^ min k 32 ∧
    (2 ^ 64 - 2 ^ k) / 2 ^ 32 = 2 ^ 32 - 2 ^ (k - 32) := by
  by_cases hlow : k ≤ 32
  · have hle : 2 ^ k ≤ 2 ^ 32 := Nat.pow_le_pow_right (by decide) hlow
    have hpos : 0 < 2 ^ k := Nat.two_pow_pos k
    rw [Nat.min_eq_left hlow, Nat.sub_eq_zero_of_le hlow]
    omega
  · have hle : 2 ^ (k - 32) ≤ 2 ^ 31 := Nat.pow_le_pow_right (by decide) (by omega)
    have hmul : 2 ^ k = 2 ^ 32 * 2 ^ (k - 32) := by
      rw [← pow_add]
      congr 1
      omega
    rw [Nat.min_eq_right (by omega), hmul]
    omega

/-- A 64-bit value from its halves. -/
theorem halves (x : ℕ) : (x / 2 ^ 32) <<< 32 ||| x % 2 ^ 32 = x := by
  rw [← Nat.shiftLeft_add_eq_or_of_lt (Nat.mod_lt x (by decide)), Nat.shiftLeft_eq, Nat.div_add_mod']

theorem dvd_high {base k : ℕ} (haligned : 2 ^ k ∣ base) : 2 ^ (k - 32) ∣ base / 2 ^ 32 := by
  by_cases hlow : k ≤ 32
  · rw [Nat.sub_eq_zero_of_le hlow, pow_zero]
    exact one_dvd _
  · obtain ⟨q, rfl⟩ := haligned
    rw [← Nat.add_sub_cancel' (Nat.le_of_not_le hlow), pow_add, Nat.mul_assoc,
      Nat.mul_div_cancel_left _ (by decide), Nat.add_sub_cancel_left]
    exact dvd_mul_right _ q

theorem readBar_mem64 {nbars i k base : ℕ} {prefetch : Bool} {s : BarState} (hi : i + 1 < nbars)
    (hk : 4 ≤ k ∧ k ≤ 63) (haligned : 2 ^ k ∣ base) (hlt : base < 2 ^ 64)
    (hvalue : s.regs.value (bar0 + i * 4) = base % 2 ^ 32 + 4 + if prefetch then 8 else 0)
    (hmask : s.regs.mask (bar0 + i * 4) = (2 ^ 64 - 2 ^ k) % 2 ^ 32)
    (hvalueh : s.regs.value (bar0 + i * 4 + 4) = base / 2 ^ 32)
    (hmaskh : s.regs.mask (bar0 + i * 4 + 4) = (2 ^ 64 - 2 ^ k) / 2 ^ 32) :
    readBar nbars i s =
      (i + 2, ⟨s.regs, Function.update (Function.update s.bars i (memBar base (2 ^ k) prefetch true)) (i + 1)
        ⟨0, 0, 0, false, true, .invalid⟩⟩) := by
  obtain ⟨low, hlow⟩ : ∃ low, low = 4 + if prefetch then 8 else 0 := ⟨_, rfl⟩
  rw [Nat.add_assoc, ← hlow] at hvalue
  have hlow16 : low = 4 ∨ low = 12 := by
    rw [hlow]
    cases prefetch <;> decide
  obtain ⟨hlowmask, hhighmask⟩ := mask64 hk.2
  have hdvdlow : 2 ^ min k 32 ∣ base % 2 ^ 32 :=
    (Nat.dvd_mod_iff (pow_dvd_pow 2 (Nat.min_le_right k 32))).mpr (dvd_of_size (Nat.min_le_left k 32) haligned)
  have hmin16 : 16 ∣ 2 ^ min k 32 := pow_dvd_pow 2 (Nat.le_min.mpr ⟨hk.1, by decide⟩)
  have hminpos : 0 < 2 ^ min k 32 := Nat.two_pow_pos _
  have hlowlt : low < 16 := by rcases hlow16 with rfl | rfl <;> decide
  have heven₀ : low % 2 = 0 := by rcases hlow16 with rfl | rfl <;> rfl
  have h16 : 16 ∣ base % 2 ^ 32 := hmin16.trans hdvdlow
  have hmask16 : 16 ∣ (2 ^ 64 - 2 ^ k) % 2 ^ 32 := by
    rw [hlowmask]
    exact Nat.dvd_sub (by decide) hmin16
  have hbase : base % 2 ^ 32 + low < 2 ^ 32 := add_low_lt h16 hlowlt (Nat.mod_lt _ (by decide))
  have hread : s.regs.read (bar0 + i * 4) = base % 2 ^ 32 + low := hvalue
  have hlen := Registers.read_write_ones (hmask.trans hlowmask) (Nat.min_le_right k 32) le_rfl
    (hvalue.trans_lt hbase)
  rw [hread, low_bits hdvdlow (hlowlt.trans_le (Nat.le_of_dvd hminpos hmin16)), ← hlowmask] at hlen
  have hreadh : s.regs.read (bar0 + i * 4 + 4) = base / 2 ^ 32 := hvalueh
  have hlenh := Registers.read_write_ones (hmaskh.trans hhighmask) (Nat.sub_le_of_le_add (hk.2.trans (by decide))) le_rfl
    (hvalueh.trans_lt (Nat.div_lt_of_lt_mul hlt))
  rw [hreadh, Nat.mod_eq_zero_of_dvd (dvd_high haligned), ← hhighmask] at hlenh
  obtain ⟨heven, htype, hprefetch⟩ := @mem_bits (base % 2 ^ 32 + low) low
    (low_bits (k := 4) h16 hlowlt) heven₀
  have htype2 : low / 2 % 4 = 2 := by rcases hlow16 with rfl | rfl <;> rfl
  have hprefetch8 : decide (8 ≤ low) = prefetch := by
    rw [hlow]
    cases prefetch <;> decide
  have hrestore := Registers.write_write s.regs (bar0 + i * 4) 0xFFFFFFFF
  have hrestoreh := Registers.write_write s.regs (bar0 + i * 4 + 4) 0xFFFFFFFF
  rw [hread] at hrestore
  rw [hreadh] at hrestoreh
  have hlast : i ≠ nbars - 1 := (Nat.lt_sub_of_add_lt hi).ne
  unfold readBar
  simp only [hread, hlen, hrestore, hreadh, hlenh, hrestoreh, if_neg heven, htype, htype2, if_neg hlast,
    hprefetch, hprefetch8, lenlow_eq h16 hlowlt hbase,
    lenlow_eq hmask16 hlowlt (add_low_lt hmask16 hlowlt (Nat.mod_lt _ (by decide))), Nat.add_zero, halves,
    complement_size (Nat.lt_succ_of_le hk.2)]

/-! ## All registers -/

/-- The array with these entries from an index on. -/
def place (bars : ℕ → Bar) (i : ℕ) : List Bar → ℕ → Bar
  | [] => bars
  | bar :: l => place (Function.update bars i bar) (i + 1) l

theorem place_append (bars : ℕ → Bar) (i : ℕ) (l l' : List Bar) :
    place bars i (l ++ l') = place (place bars i l) (i + l.length) l' := by
  induction l generalizing bars i with
  | nil => rfl
  | cons bar l ih => rw [List.cons_append, place, ih, place, List.length_cons, Nat.add_assoc, Nat.add_comm 1]

theorem place_apply_of_lt {bars : ℕ → Bar} {i j : ℕ} (l : List Bar) (h : j < i) :
    place bars i l j = bars j := by
  induction l generalizing bars i with
  | nil => rfl
  | cons bar l ih => rw [place, ih (Nat.lt_succ_of_lt h), Function.update_of_ne h.ne]

theorem getElem?_eq_place {bars : ℕ → Bar} {i j : ℕ} {l : List Bar} (h : j < l.length) :
    l[j]? = some (place bars i l (i + j)) := by
  induction l generalizing bars i j with
  | nil => exact absurd h (Nat.not_lt_zero j)
  | cons bar l ih =>
      cases j with
      | zero =>
          rw [Nat.add_zero, place, place_apply_of_lt l (Nat.lt_add_one i), Function.update_self]
          rfl
      | succ j =>
          have hrest := @ih (Function.update bars i bar) (i + 1) j (Nat.lt_of_succ_lt_succ h)
          rw [Nat.add_assoc, Nat.add_comm 1] at hrest
          exact hrest

theorem Registers.Holds.left {regs : Registers} {i : ℕ} {l l' : List (ℕ × ℕ)}
    (h : regs.Holds i (l ++ l')) : regs.Holds i l := by
  intro j hj
  have hslot := h j (by rw [List.length_append]; omega)
  rwa [List.getElem_append_left hj] at hslot

theorem Registers.Holds.right {regs : Registers} {i : ℕ} {l l' : List (ℕ × ℕ)}
    (h : regs.Holds i (l ++ l')) : regs.Holds (i + l.length) l' := by
  intro j hj
  have hslot := h (l.length + j) (by rw [List.length_append]; omega)
  rw [List.getElem_append_right (Nat.le_add_right _ _)] at hslot
  simpa only [Nat.add_sub_cancel_left, Nat.add_assoc] using hslot

theorem memBar_size (base k : ℕ) (prefetch bits64 : Bool) :
    memBar base (2 ^ k) prefetch bits64 = ⟨0, base, 2 ^ k, prefetch, bits64, .mem⟩ := by
  rw [memBar, if_neg fun h => (Nat.two_pow_pos k).ne' h.2]

/-- One turn of the loop finds out which register there is, and leaves the registers as they were. -/
theorem readBar_kind {nbars i : ℕ} {s : BarState} {kind : Kind} (hholds : s.regs.Holds i kind.slots)
    (hi : i + kind.slots.length ≤ nbars) :
    readBar nbars i s = (i + kind.slots.length, ⟨s.regs, place s.bars i kind.bars⟩) := by
  cases kind with
  | unimplemented =>
      obtain ⟨hvalue, hmask⟩ := hholds 0 Nat.one_pos
      exact @readBar_mem32 nbars i 32 0 false s (by decide) (dvd_zero _) (by decide) hvalue hmask
  | io k base wide hk haligned hlt =>
      obtain ⟨hvalue, hmask⟩ := hholds 0 Nat.one_pos
      exact readBar_io (by cases wide <;> decide) hk haligned hlt hvalue hmask
  | mem32 k base prefetch hk haligned hlt =>
      obtain ⟨hvalue, hmask⟩ := hholds 0 Nat.one_pos
      have hk32 : k ≤ 32 := hk.2.trans (by decide)
      have hsize : 2 ^ k % 2 ^ 32 = 2 ^ k :=
        Nat.mod_eq_of_lt (Nat.pow_lt_pow_right (by decide) (Nat.lt_succ_of_le hk.2))
      have hrun := @readBar_mem32 nbars i k base prefetch s ⟨hk.1, hk32⟩ haligned hlt hvalue hmask
      rw [hsize, memBar_size] at hrun
      exact hrun
  | mem64 k base prefetch hk haligned hlt =>
      obtain ⟨hvalue, hmask⟩ := hholds 0 Nat.two_pos
      obtain ⟨hvalueh, hmaskh⟩ := hholds 1 Nat.one_lt_two
      have hoffset : bar0 + (i + 1) * 4 = bar0 + i * 4 + 4 := by ring
      rw [hoffset] at hvalueh hmaskh
      have hrun := readBar_mem64 (i := i) hi hk haligned hlt hvalue hmask hvalueh hmaskh
      rw [memBar_size] at hrun
      exact hrun

/-- The loop from a slot on. -/
theorem readBarsFrom_eq {nbars fuel i : ℕ} {s : BarState} {kinds : List Kind}
    (hholds : s.regs.Holds i (kinds.flatMap Kind.slots))
    (hnbars : i + (kinds.flatMap Kind.slots).length = nbars) (hfuel : nbars ≤ i + fuel) :
    readBarsFrom nbars fuel i s = ⟨s.regs, place s.bars i (kinds.flatMap Kind.bars)⟩ := by
  induction kinds generalizing fuel i s with
  | nil =>
      cases fuel with
      | zero => rfl
      | succ fuel =>
          rw [readBarsFrom, if_neg (by simp at hnbars; omega)]
          rfl
  | cons kind kinds ih =>
      rw [List.flatMap_cons] at hholds hnbars
      rw [List.length_append] at hnbars
      have hpos : 0 < kind.slots.length := by cases kind <;> exact Nat.succ_pos _
      cases fuel with
      | zero => omega
      | succ fuel =>
          have hrest := @ih fuel _ ⟨s.regs, place s.bars i kind.bars⟩ hholds.right (by omega) (by omega)
          rw [readBarsFrom, if_pos (by omega), readBar_kind hholds.left (by omega), List.flatMap_cons,
            place_append, kind.length_bars]
          exact hrest

theorem readBars_eq (kinds : List Kind) (s : BarState)
    (hholds : s.regs.Holds 0 (kinds.flatMap Kind.slots)) :
    (readBars (kinds.flatMap Kind.slots).length s).regs = s.regs ∧
      ∀ j < (kinds.flatMap Kind.slots).length, (kinds.flatMap Kind.bars)[j]? =
        some ((readBars (kinds.flatMap Kind.slots).length s).bars j) := by
  have hlength : (kinds.flatMap Kind.bars).length = (kinds.flatMap Kind.slots).length := by
    rw [List.length_flatMap, List.length_flatMap, funext Kind.length_bars]
  rw [readBars, readBarsFrom_eq hholds (Nat.zero_add _) (Nat.zero_add _).ge]
  refine ⟨rfl, fun j hj => ?_⟩
  have hplace := @getElem?_eq_place s.bars 0 j _ (hj.trans_eq hlength.symm)
  rwa [Nat.zero_add] at hplace

/-- Ports, 16 megabytes above 4 gigabytes, a page, and two registers that are left out. -/
def mixed : List Kind :=
  [.io 5 0xC000 false (by decide) (by decide) (by decide),
    .mem64 24 0x100000000 true (by decide) (by decide) (by decide),
    .mem32 12 0xFEB00000 false (by decide) (by decide) (by decide), .unimplemented, .unimplemented]

def mixedRegisters : Registers where
  value offset :=
    if offset = 0x10 then 0xC001 else if offset = 0x14 then 0xC else if offset = 0x18 then 1
    else if offset = 0x1C then 0xFEB00000 else 0
  mask offset :=
    if offset = 0x10 then 0xFFE0 else if offset = 0x14 then 0xFF000000 else if offset = 0x18 then 0xFFFFFFFF
    else if offset = 0x1C then 0xFFFFF000 else 0
  value_lt offset := by split_ifs <;> decide
  mask_lt offset := by split_ifs <;> decide

/-- The registers, and an array that has not been assigned yet. -/
def mixedState : BarState := ⟨mixedRegisters, fun _ => ⟨1, 1, 1, true, true, .io⟩⟩

theorem readBars_mixed : (readBars (mixed.flatMap Kind.slots).length mixedState).regs = mixedRegisters ∧
    ∀ j < (mixed.flatMap Kind.slots).length, (mixed.flatMap Kind.bars)[j]? =
      some ((readBars (mixed.flatMap Kind.slots).length mixedState).bars j) :=
  readBars_eq mixed mixedState (by unfold Registers.Holds; decide)

end Ilobilix.Pci
