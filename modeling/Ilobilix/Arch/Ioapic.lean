import Mathlib.Algebra.GroupWithZero.Nat
import Mathlib.Data.List.Pairwise
import Mathlib.Logic.Function.Basic
import Mathlib.Order.Nat

/-!
# Interrupt routing: `ioapic.cpp`

Every I/O APIC has a range of global system interrupts, from its base on, and a redirection entry
for each. `gsi2ioapic` takes the first one whose range has the interrupt, with the end of the range
as `gsi_range` gives it: one past the last interrupt, and in 32 bits. But the scan compares with
`<=`. So the interrupt just past a range goes to that I/O APIC if it comes before the owner in the
list or if there is no owner, and a range up to the end of the 32 bits is empty to the scan.
`routed_iff` says that these are the only ways to miss the owner.
-/

namespace Ilobilix.Arch.Ioapics

/-! ## One I/O APIC -/

/-- An `ioapic`, with what its registers read. -/
structure Ioapic where
  gsiBase : ℕ
  redirs : ℕ
  regs : ℕ → UInt32
  gsiBase_lt : gsiBase < 2 ^ 32
  redirs_pos : 1 ≤ redirs
  redirs_le : redirs ≤ 256

namespace Ioapic

/-- The register of the lower half of a redirection entry. -/
def entry (idx : ℕ) : ℕ := (0x10 + idx * 2) % 2 ^ 32

def readEntry (a : Ioapic) (idx : ℕ) : UInt64 :=
  let lo := a.regs (entry (idx % 2 ^ 32))
  let hi := a.regs ((entry (idx % 2 ^ 32) + 1) % 2 ^ 32)
  hi.toUInt64 <<< 32 ||| lo.toUInt64

/-- The two writes of `write_entry`: a register and its new value. -/
def writeEntry (idx : ℕ) (value : UInt64) : List (ℕ × UInt32) :=
  [(entry (idx % 2 ^ 32), (value &&& 0xFFFFFFFF).toUInt32),
    ((entry (idx % 2 ^ 32) + 1) % 2 ^ 32, (value >>> 32).toUInt32)]

def setIdx (idx : ℕ) (vector : UInt8) (dest : UInt64) (flags deliv : UInt32) : List (ℕ × UInt32) :=
  writeEntry idx (vector.toUInt64 ||| (deliv &&& 0x700).toUInt64 ||| (flags &&& 0xFFFFF800).toUInt64
    ||| dest <<< 56)

def mask (a : Ioapic) (idx : ℕ) : List (ℕ × UInt32) :=
  writeEntry idx (a.readEntry idx ||| (1 : UInt64) <<< 16)

def unmask (a : Ioapic) (idx : ℕ) : List (ℕ × UInt32) :=
  writeEntry idx (a.readEntry idx &&& ~~~((1 : UInt64) <<< 16))

/-- The I/O APIC after some writes. -/
def run (a : Ioapic) (writes : List (ℕ × UInt32)) : Ioapic :=
  { a with regs := writes.foldl (fun regs w => Function.update regs w.1 w.2) a.regs }

/-- The constructor reads the number of redirection entries and masks all of them. -/
def create (regs : ℕ → UInt32) (gsiBase : UInt32) : Ioapic :=
  let redirs := (regs 1 >>> 16 &&& 0xFF).toNat + 1
  (List.range redirs).foldl (fun a i => a.run (a.mask i))
    { gsiBase := gsiBase.toNat
      redirs
      regs
      gsiBase_lt := gsiBase.toNat_lt
      redirs_pos := Nat.le_add_left _ _
      redirs_le := by
        have hle : (regs 1 >>> 16 &&& 0xFF).toNat ≤ 0xFF := by
          rw [UInt32.toNat_and]
          exact Nat.and_le_right
        omega }

def gsiRange (a : Ioapic) : ℕ × ℕ := (a.gsiBase, (a.gsiBase + a.redirs) % 2 ^ 32)

/-- The interrupt is one of the I/O APIC's. -/
def Owns (a : Ioapic) (gsi : ℕ) : Prop := a.gsiBase ≤ gsi ∧ gsi < a.gsiBase + a.redirs

/-- No interrupt belongs to both. -/
def Apart (a b : Ioapic) : Prop := ∀ gsi, ¬ (a.Owns gsi ∧ b.Owns gsi)

/-- The condition of the scan. -/
def Takes (a : Ioapic) (gsi : ℕ) : Prop := a.gsiRange.1 ≤ gsi ∧ gsi ≤ a.gsiRange.2

instance (a : Ioapic) (gsi : ℕ) : Decidable (a.Owns gsi) := inferInstanceAs (Decidable (_ ∧ _))

instance (a : Ioapic) (gsi : ℕ) : Decidable (a.Takes gsi) := inferInstanceAs (Decidable (_ ∧ _))

/-- The scan takes the closed range, if it does not wrap around. -/
theorem takes_iff {a : Ioapic} {gsi : ℕ} :
    a.Takes gsi ↔ a.gsiBase + a.redirs < 2 ^ 32 ∧ (a.Owns gsi ∨ gsi = a.gsiBase + a.redirs) := by
  have hbase := a.gsiBase_lt
  have hpos := a.redirs_pos
  have hle := a.redirs_le
  unfold Takes gsiRange Owns
  dsimp only
  by_cases hwrap : a.gsiBase + a.redirs < 2 ^ 32
  · rw [Nat.mod_eq_of_lt hwrap]
    omega
  · rw [Nat.mod_eq_sub_mod (Nat.not_lt.mp hwrap), Nat.mod_eq_of_lt (by omega)]
    omega

end Ioapic

/-! ## The list of I/O APICs -/

/-- The writes to one I/O APIC, which is given by its place in the list. -/
structure Access where
  place : ℕ
  writes : List (ℕ × UInt32)
deriving DecidableEq

/-- The place of the first I/O APIC that takes the interrupt; without one, the kernel panics. -/
def gsi2ioapic (apics : List Ioapic) (gsi : ℕ) : Option ℕ := apics.findIdx? fun a => a.Takes gsi

/-- What the three functions have in common: the interrupt has `width` bits, and 32 of them are looked
up. -/
def onGsi (width : ℕ) (act : Ioapic → ℕ → List (ℕ × UInt32)) (apics : List Ioapic) (gsi : ℕ) :
    Option Access := do
  let place ← gsi2ioapic apics (gsi % 2 ^ 32)
  let a ← apics[place]?
  some ⟨place, act a ((gsi + 2 ^ width - a.gsiRange.1) % 2 ^ width)⟩

def setGsi (vector : UInt8) (dest : UInt64) (flags deliv : UInt32) : List Ioapic → ℕ → Option Access :=
  onGsi 64 fun _ idx => Ioapic.setIdx idx vector dest flags deliv

def maskGsi : List Ioapic → ℕ → Option Access := onGsi 32 Ioapic.mask

def unmaskGsi : List Ioapic → ℕ → Option Access := onGsi 32 Ioapic.unmask

/-- The access is to the owner of the interrupt and at its index there, and without an owner there is
none. -/
structure Routed (apics : List Ioapic) (gsi : ℕ) (act : Ioapic → ℕ → List (ℕ × UInt32))
    (access : Option Access) : Prop where
  owned : ∀ i a, apics[i]? = some a → a.Owns gsi →
    gsi - a.gsiBase < a.redirs ∧ access = some ⟨i, act a (gsi - a.gsiBase)⟩
  unowned : (∀ a ∈ apics, ¬ a.Owns gsi) → access = none

/-- The range of the owner does not reach the end of the 32 bits and no range before it ends at the
interrupt; without an owner, no range has the lower 32 bits of the interrupt or ends there. -/
structure Clear (apics : List Ioapic) (gsi : ℕ) : Prop where
  owned : ∀ (i : ℕ) (a : Ioapic), apics[i]? = some a → a.Owns gsi → a.gsiBase + a.redirs < 2 ^ 32 ∧
    ∀ j < i, ∀ b : Ioapic, apics[j]? = some b → b.gsiBase + b.redirs ≠ gsi
  unowned : (∀ a ∈ apics, ¬ a.Owns gsi) → ∀ b ∈ apics, b.gsiBase + b.redirs < 2 ^ 32 →
    ¬ (b.Owns (gsi % 2 ^ 32) ∨ gsi % 2 ^ 32 = b.gsiBase + b.redirs)

variable {apics : List Ioapic} {gsi width : ℕ} {act : Ioapic → ℕ → List (ℕ × UInt32)}

theorem gsi2ioapic_eq_some {i : ℕ} : gsi2ioapic apics gsi = some i ↔ ∃ a, apics[i]? = some a ∧
    a.Takes gsi ∧ ∀ j < i, ∀ b, apics[j]? = some b → ¬ b.Takes gsi := by
  simp only [gsi2ioapic, List.findIdx?_eq_some_iff_getElem, decide_eq_true_eq]
  constructor
  · rintro ⟨hi, htakes, hfirst⟩
    refine ⟨apics[i], List.getElem?_eq_getElem hi, htakes, fun j hj b hb => ?_⟩
    obtain ⟨hj', rfl⟩ := List.getElem?_eq_some_iff.mp hb
    exact hfirst j hj
  · rintro ⟨a, ha, htakes, hfirst⟩
    obtain ⟨hi, rfl⟩ := List.getElem?_eq_some_iff.mp ha
    exact ⟨hi, htakes, fun j hj => hfirst j hj _ (List.getElem?_eq_getElem (Nat.lt_trans hj hi))⟩

theorem gsi2ioapic_eq_none : gsi2ioapic apics gsi = none ↔ ∀ a ∈ apics, ¬ a.Takes gsi := by
  simp only [gsi2ioapic, List.findIdx?_eq_none_iff, decide_eq_false_iff_not]

theorem onGsi_eq_none : onGsi width act apics gsi = none ↔ gsi2ioapic apics (gsi % 2 ^ 32) = none := by
  unfold onGsi
  cases h : gsi2ioapic apics (gsi % 2 ^ 32) with
  | none => simp
  | some i =>
      obtain ⟨a, ha, -⟩ := gsi2ioapic_eq_some.mp h
      simp [ha]

/-- An access is to the I/O APIC that the scan stops at. -/
theorem onGsi_place {acc : Access} (h : onGsi width act apics gsi = some acc) :
    gsi2ioapic apics (gsi % 2 ^ 32) = some acc.place := by
  simp only [onGsi, Option.bind_eq_bind, Option.bind_eq_some_iff, Option.some.injEq] at h
  obtain ⟨i, hi, a, -, rfl⟩ := h
  exact hi

/-- The ranges are disjoint, so there is one owner at most. -/
theorem owner_unique (hapart : apics.Pairwise Ioapic.Apart) {i j : ℕ} {a b : Ioapic}
    (ha : apics[i]? = some a) (hb : apics[j]? = some b) (hai : a.Owns gsi) (hbj : b.Owns gsi) :
    i = j := by
  obtain ⟨hi, rfl⟩ := List.getElem?_eq_some_iff.mp ha
  obtain ⟨hj, rfl⟩ := List.getElem?_eq_some_iff.mp hb
  rw [List.pairwise_iff_getElem] at hapart
  obtain hlt | heq | hgt := lt_trichotomy i j
  · exact absurd ⟨hai, hbj⟩ (hapart i j hi hj hlt gsi)
  · exact heq
  · exact absurd ⟨hbj, hai⟩ (hapart j i hj hi hgt gsi)

/-- With an owner, the access is to it exactly if the scan stops there. -/
theorem routed_owned_iff (hapart : apics.Pairwise Ioapic.Apart) (hgsi : gsi < 2 ^ width) {i : ℕ}
    {a : Ioapic} (ha : apics[i]? = some a) (howns : a.Owns gsi) :
    onGsi width act apics gsi = some ⟨i, act a (gsi - a.gsiBase)⟩ ↔
      a.gsiBase + a.redirs < 2 ^ 32 ∧ ∀ j < i, ∀ b, apics[j]? = some b → b.gsiBase + b.redirs ≠ gsi := by
  have hmod : a.gsiBase + a.redirs < 2 ^ 32 → gsi % 2 ^ 32 = gsi :=
    fun h => Nat.mod_eq_of_lt (howns.2.trans h)
  constructor
  · intro h
    obtain ⟨a', ha', htakes, hfirst⟩ := gsi2ioapic_eq_some.mp (onGsi_place h)
    obtain rfl : a' = a := Option.some.inj (ha'.symm.trans ha)
    have hend := (Ioapic.takes_iff.mp htakes).1
    rw [hmod hend] at hfirst
    refine ⟨hend, fun j hj b hb heq => hfirst j hj b hb (Ioapic.takes_iff.mpr ⟨?_, .inr heq.symm⟩)⟩
    rw [heq]
    exact howns.2.trans hend
  · rintro ⟨hend, hbefore⟩
    have hscan : gsi2ioapic apics gsi = some i := by
      refine gsi2ioapic_eq_some.mpr ⟨a, ha, Ioapic.takes_iff.mpr ⟨hend, .inl howns⟩, ?_⟩
      intro j hj b hb htakes
      obtain hown | hlast := (Ioapic.takes_iff.mp htakes).2
      · exact hj.ne (owner_unique hapart hb ha hown howns)
      · exact hbefore j hj b hb hlast.symm
    have hidx : (gsi + 2 ^ width - a.gsiBase) % 2 ^ width = gsi - a.gsiBase := by
      rw [Nat.sub_add_comm howns.1, Nat.add_mod_right, Nat.mod_eq_of_lt (by omega)]
    simp only [onGsi, hmod hend, hscan, ha, Option.bind_eq_bind, Option.bind_some, Ioapic.gsiRange, hidx]

theorem onGsi_routed_iff (hapart : apics.Pairwise Ioapic.Apart) (hgsi : gsi < 2 ^ width) :
    Routed apics gsi act (onGsi width act apics gsi) ↔ Clear apics gsi := by
  have hnone : onGsi width act apics gsi = none ↔ ∀ b ∈ apics, b.gsiBase + b.redirs < 2 ^ 32 →
      ¬ (b.Owns (gsi % 2 ^ 32) ∨ gsi % 2 ^ 32 = b.gsiBase + b.redirs) := by
    simp only [onGsi_eq_none, gsi2ioapic_eq_none, Ioapic.takes_iff, not_and]
  constructor
  · intro h
    refine ⟨fun i a ha howns => ?_, fun hno => hnone.mp (h.unowned hno)⟩
    exact (routed_owned_iff hapart hgsi ha howns).mp (h.owned i a ha howns).2
  · intro h
    refine ⟨fun i a ha howns => ⟨?_, ?_⟩, fun hno => hnone.mpr (h.unowned hno)⟩
    · obtain ⟨hlo, hhi⟩ := howns
      omega
    · exact (routed_owned_iff hapart hgsi ha howns).mpr (h.owned i a ha howns)

/-- `set_gsi` takes an interrupt of 64 bits, the other two of 32. -/
theorem routed_iff (hapart : apics.Pairwise Ioapic.Apart) (hgsi : gsi < 2 ^ 64) (vector : UInt8)
    (dest : UInt64) (flags deliv : UInt32) :
    (Routed apics gsi (fun _ idx => Ioapic.setIdx idx vector dest flags deliv)
        (setGsi vector dest flags deliv apics gsi) ∧
      (gsi < 2 ^ 32 → Routed apics gsi Ioapic.mask (maskGsi apics gsi) ∧
        Routed apics gsi Ioapic.unmask (unmaskGsi apics gsi))) ↔ Clear apics gsi := by
  unfold setGsi maskGsi unmaskGsi
  rw [onGsi_routed_iff hapart hgsi]
  refine and_iff_left_of_imp fun hclear hgsi => ⟨?_, ?_⟩
  · exact (onGsi_routed_iff hapart hgsi).mpr hclear
  · exact (onGsi_routed_iff hapart hgsi).mpr hclear

/-- Two I/O APICs with 24 redirection entries each. -/
def pair : List Ioapic :=
  [{ gsiBase := 0, redirs := 24, regs := fun _ => 0, gsiBase_lt := by decide, redirs_pos := by decide,
     redirs_le := by decide },
   { gsiBase := 24, redirs := 24, regs := fun _ => 0, gsiBase_lt := by decide, redirs_pos := by decide,
     redirs_le := by decide }]

theorem pair_apart : pair.Pairwise Ioapic.Apart := by
  simp only [pair, List.pairwise_pair]
  rintro gsi ⟨⟨-, hlt⟩, hle, -⟩
  dsimp only at hlt hle
  omega

theorem pair_routed_iff : pair.Pairwise Ioapic.Apart ∧
    ((Routed pair 30 (fun _ idx => Ioapic.setIdx idx 0x40 0 0 0) (setGsi 0x40 0 0 0 pair 30) ∧
      (30 < 2 ^ 32 → Routed pair 30 Ioapic.mask (maskGsi pair 30) ∧
        Routed pair 30 Ioapic.unmask (unmaskGsi pair 30))) ↔ Clear pair 30) :=
  ⟨pair_apart, routed_iff pair_apart (by decide) 0x40 0 0 0⟩

/-- The first interrupt of the second I/O APIC goes to the first one, past its last redirection entry;
the interrupt past the second one does not panic. -/
theorem pair_not_routed : pair.Pairwise Ioapic.Apart ∧
    (maskGsi pair 24).map Access.place = some 0 ∧ ¬ Routed pair 24 Ioapic.mask (maskGsi pair 24) ∧
    ¬ Routed pair 48 Ioapic.mask (maskGsi pair 48) := by
  refine ⟨pair_apart, by decide, fun h => ?_, fun h => ?_⟩
  · have hplace := congrArg (Option.map Access.place) (h.owned 1 _ rfl ⟨by decide, by decide⟩).2
    exact absurd hplace (by decide)
  · exact absurd (h.unowned (by decide)) (by decide)

end Ilobilix.Arch.Ioapics
