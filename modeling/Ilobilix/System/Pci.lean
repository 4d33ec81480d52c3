import Ilobilix.Foundation.Dependencies
import Ilobilix.Foundation.Fuel
import Mathlib.Data.Finset.Lattice.Fold
import Mathlib.Data.Finset.Range
import Mathlib.Data.Set.Finite.Basic
import Mathlib.Logic.Function.Basic

/-!
# PCI enumeration

`enum_bus` looks at the devices of a bus, `enum_dev` at the functions of a device, and `enum_func` puts a
function into one of two tables. For a bridge it first enumerates the bus behind it. Below a bridge that
is a PCI Express port only device 0 is looked at.

Two things come between the functions of a machine and the tables. `devidx` packs segment, bus, device
and function into 32 bits and leaves 8 of them for the segment, so functions in segments that agree modulo
256 can share a key. And a bridge without a PCI Express capability has the two flags that say whether it
is a port uninitialised, so the other devices below it can be left out.

`registry_iff` says that the tables are right exactly for the machines without either.
-/

namespace Ilobilix.Pci

open Relation

/-! ## The model -/

/-- The address of a function. -/
structure Fn where
  seg : UInt16
  bus : UInt8
  dev : ℕ
  func : ℕ
deriving DecidableEq, Repr

/-- What the configuration space of a function answers. A capability is its type and the 16 bits after
the pointer to the next one, and there are none without the bit in the status register. -/
structure Config where
  venid : UInt16
  devid : UInt16
  header : UInt8
  caps : List (UInt8 × UInt16)
  secondaryBus : UInt8

/-- The root buses and the configuration spaces, and for each function what is in `is_pcie` and
`is_secondary` of a new `entity`. -/
structure Machine where
  rbs : List (UInt16 × UInt8)
  config : Fn → Config
  junk : Fn → Bool × Bool

/-- Where a bus comes from: a place among the root buses, or the bridge that is its
`associated_bridge`. -/
inductive Origin
  | root (idx : ℕ)
  | bridge (f : Fn)
deriving DecidableEq, Repr

structure Bus where
  seg : UInt16
  id : UInt8
  origin : Origin
deriving DecidableEq, Repr

/-- `devs` and `brdgs`. -/
structure Tables where
  devs : ℕ → Option Fn
  brdgs : ℕ → Option Fn

/-- A header type that is not known, or a run that is cut off. -/
inductive Fault
  | panic
  | fuel
deriving DecidableEq, Repr

def devidx (seg bus dev func : ℕ) : ℕ :=
  ((seg <<< 24) % 2 ^ 32) ||| ((bus <<< 16) % 2 ^ 32) ||| ((dev <<< 8) % 2 ^ 32) ||| func

namespace Fn

/-- `devidx` of a function. -/
def key (f : Fn) : ℕ := devidx f.seg.toNat f.bus.toNat f.dev f.func

end Fn

namespace Config

/-- The header type without the bit for several functions. -/
def headerType (c : Config) : UInt8 := c.header &&& 0x7F

def isMulti (c : Config) : Bool := c.header &&& 0x80 != 0

/-- A port with a link below it: a root port, a downstream port of a switch, or a bridge from PCI to PCI
Express. -/
def isPort (flags : UInt16) : Bool :=
  let tp := (flags >>> 4) &&& 0x0F
  tp == 4 || tp == 6 || tp == 8

/-- The loop of the constructor of `entity`, from the flags as they are before. -/
def flags (flags : Bool × Bool) (c : Config) : Bool × Bool :=
  c.caps.foldl (fun flags cap => if cap.1 = 0x10 then (true, isPort cap.2) else flags) flags

/-- The function has a PCI Express capability. -/
def isPcie (c : Config) : Bool := c.caps.any fun cap => cap.1 == 0x10

end Config

namespace Machine

/-- `is_pcie && is_secondary` of a bridge. -/
def limited (m : Machine) (f : Fn) : Bool :=
  let flags := (m.config f).flags (m.junk f)
  flags.1 && flags.2

/-- `devs32`. -/
def devs32 (m : Machine) (bus : Bus) : Bool :=
  match bus.origin with
  | .root _ => true
  | .bridge f => !m.limited f

/-- `enum_func`, with `enum_bus` for the bus behind a bridge. -/
def enumFunc (m : Machine) (enumBus : Bus → Tables → Except Fault Tables) (bus : Bus) (dev func : ℕ)
    (t : Tables) : Except Fault Tables :=
  let f : Fn := ⟨bus.seg, bus.id, dev, func⟩
  let c := m.config f
  if c.venid = 0xFFFF ∨ c.devid = 0xFFFF then .ok t
  else if c.headerType = 0 then .ok { t with devs := Function.update t.devs f.key (some f) }
  else if c.headerType = 1 then
    (if c.secondaryBus ≠ 0 then enumBus ⟨bus.seg, c.secondaryBus, .bridge f⟩ t else .ok t) >>= fun t =>
      .ok { t with brdgs := Function.update t.brdgs f.key (some f) }
  else .error .panic

def enumDev (m : Machine) (enumBus : Bus → Tables → Except Fault Tables) (bus : Bus) (t : Tables)
    (dev : ℕ) : Except Fault Tables :=
  let c := m.config ⟨bus.seg, bus.id, dev, 0⟩
  if c.venid = 0xFFFF then .ok t
  else if c.isMulti then (List.range 8).foldlM (fun t func => m.enumFunc enumBus bus dev func t) t
  else m.enumFunc enumBus bus dev 0 t

def enumBus (m : Machine) : ℕ → Bus → Tables → Except Fault Tables
  | 0, _, _ => .error .fuel
  | fuel + 1, bus, t =>
      (List.range (if m.devs32 bus then 32 else 1)).foldlM (m.enumDev (m.enumBus fuel) bus) t

/-- The task `pci.enumerate`. -/
def enumerate (m : Machine) (fuel : ℕ) : Except Fault Tables :=
  m.rbs.zipIdx.foldlM (fun t rb => m.enumBus fuel ⟨rb.1.1, rb.1.2, .root rb.2⟩ t)
    ⟨fun _ => none, fun _ => none⟩

/-! ## What is there -/

/-- The bridge is a PCI Express port with a link below it. -/
def port (m : Machine) (f : Fn) : Bool :=
  let flags := (m.config f).flags (false, false)
  flags.1 && flags.2

section

variable (m : Machine) (limited : Fn → Bool)

/-- The function is present on the bus. Below a bridge that is limited only device 0 is. -/
structure Present (b : Bus) (f : Fn) : Prop where
  seg : f.seg = b.seg
  bus : f.bus = b.id
  dev : f.dev < 32
  func : f.func < 8
  first : ∀ g, b.origin = .bridge g → limited g = true → f.dev = 0
  answers : (m.config f).venid ≠ 0xFFFF ∧ (m.config f).devid ≠ 0xFFFF
  multi : f.func = 0 ∨ (m.config { f with func := 0 }).venid ≠ 0xFFFF ∧
    (m.config { f with func := 0 }).isMulti = true

/-- The bus behind a bridge. A secondary bus number of 0 is not set up. -/
def Child (b b' : Bus) : Prop :=
  ∃ f, Present m limited b f ∧ (m.config f).headerType = 1 ∧ (m.config f).secondaryBus ≠ 0 ∧
    b' = ⟨b.seg, (m.config f).secondaryBus, .bridge f⟩

def Reached (b : Bus) : Prop :=
  ∃ rb idx, (rb, idx) ∈ m.rbs.zipIdx ∧ ReflTransGen (Child m limited) ⟨rb.1, rb.2, .root idx⟩ b

/-- The functions on the buses that are reached. -/
def HasFunction (f : Fn) : Prop := ∃ b, Reached m limited b ∧ Present m limited b f

end

end Machine

/-- Every bus number of a segment is reached at most once, and the header types are known. -/
structure Topology extends Machine where
  once : ∀ b b', toMachine.Reached toMachine.port b → toMachine.Reached toMachine.port b' →
    b.seg = b'.seg → b.id = b'.id → b = b'
  headers : ∀ f, toMachine.HasFunction toMachine.port f →
    (toMachine.config f).headerType = 0 ∨ (toMachine.config f).headerType = 1

/-- The tables have every function of the machine under its key, in the table it belongs to, and nothing
else, and no two functions have the same key. -/
structure Registered (m : Machine) (t : Tables) : Prop where
  devs : ∀ key f, t.devs key = some f ↔
    m.HasFunction m.port f ∧ (m.config f).headerType = 0 ∧ f.key = key
  brdgs : ∀ key f, t.brdgs key = some f ↔
    m.HasFunction m.port f ∧ (m.config f).headerType = 1 ∧ f.key = key
  keys : ∀ f g, m.HasFunction m.port f → m.HasFunction m.port g → f.key = g.key → f = g

/-- No two functions in segments that agree modulo 256 have the same bus, device and function. -/
def SegmentsApart (m : Machine) : Prop :=
  ∀ f g, m.HasFunction m.port f → m.HasFunction m.port g → f.seg.toNat % 256 = g.seg.toNat % 256 →
    f.bus = g.bus → f.dev = g.dev → f.func = g.func → f = g

/-- Below a bridge without a PCI Express capability, for which both flags happen to be set, there is
nothing but device 0. -/
def FlagsHarmless (m : Machine) : Prop :=
  ∀ b f, m.Reached m.port b → b.origin = .bridge f → (m.config f).isPcie = false →
    m.junk f = (true, true) → ∀ g, m.Present m.port b g → g.dev = 0

/-! ## Keys -/

theorem devidx_eq {seg bus dev func : ℕ} (hbus : bus < 256) (hdev : dev < 256) (hfunc : func < 256) :
    devidx seg bus dev func = seg % 256 * 2 ^ 24 + bus * 2 ^ 16 + dev * 2 ^ 8 + func := by
  have hseg : (seg <<< 24) % 2 ^ 32 = 2 ^ 24 * (seg % 256) := by
    rw [Nat.shiftLeft_eq]
    omega
  have hbus' : (bus <<< 16) % 2 ^ 32 = 2 ^ 16 * bus := by
    rw [Nat.shiftLeft_eq]
    omega
  have hdev' : (dev <<< 8) % 2 ^ 32 = 2 ^ 8 * dev := by
    rw [Nat.shiftLeft_eq]
    omega
  -- each part is below the ones before it
  have hfirst : 2 ^ 24 * (seg % 256) ||| 2 ^ 16 * bus = 2 ^ 16 * (2 ^ 8 * (seg % 256) + bus) := by
    rw [← Nat.two_pow_add_eq_or_of_lt (by omega)]
    omega
  have hsecond : 2 ^ 16 * (2 ^ 8 * (seg % 256) + bus) ||| 2 ^ 8 * dev =
      2 ^ 8 * (2 ^ 8 * (2 ^ 8 * (seg % 256) + bus) + dev) := by
    rw [← Nat.two_pow_add_eq_or_of_lt (by omega)]
    omega
  rw [devidx, hseg, hbus', hdev', hfirst, hsecond, ← Nat.two_pow_add_eq_or_of_lt (by omega)]
  omega

/-- The key of a function is its address with the segment modulo 256. -/
theorem Fn.key_eq_iff {f g : Fn} (hf : f.dev < 32 ∧ f.func < 8) (hg : g.dev < 32 ∧ g.func < 8) :
    f.key = g.key ↔ f.seg.toNat % 256 = g.seg.toNat % 256 ∧ f.bus = g.bus ∧ f.dev = g.dev ∧
      f.func = g.func := by
  have hfb : f.bus.toNat < 256 := f.bus.toNat_lt
  have hgb : g.bus.toNat < 256 := g.bus.toNat_lt
  rw [Fn.key, Fn.key, devidx_eq hfb (by omega) (by omega), devidx_eq hgb (by omega) (by omega),
    ← UInt8.toNat_inj]
  omega

/-! ## The flags of a bridge -/

namespace Config

/-- With a capability the flags are those of the last one, and without they are as they were. -/
theorem flags_eq (j : Bool × Bool) (c : Config) :
    c.flags j = if c.isPcie then c.flags (false, false) else j := by
  rw [flags, flags, isPcie]
  generalize c.caps = caps
  induction caps generalizing j with
  | nil => rfl
  | cons cap caps ih =>
      rw [List.foldl_cons, List.foldl_cons, List.any_cons]
      by_cases hcap : cap.1 = 0x10
      · rw [if_pos hcap, if_pos hcap, hcap]
        rfl
      · rw [if_neg hcap, if_neg hcap, ih, beq_false_of_ne hcap, Bool.false_or]

end Config

namespace Machine

variable {m : Machine}

theorem limited_iff (f : Fn) :
    m.limited f = true ↔
      m.port f = true ∨ ((m.config f).isPcie = false ∧ m.junk f = (true, true)) := by
  rw [limited, port, Config.flags_eq (m.junk f), Config.flags_eq (false, false)]
  cases h : (m.config f).isPcie with
  | true => simp
  | false =>
      rcases hj : m.junk f with ⟨a, b⟩
      simp

theorem limited_of_port (f : Fn) (h : m.port f = true) : m.limited f = true :=
  (limited_iff f).mpr (Or.inl h)

theorem Present.to_port {b : Bus} {f : Fn} (h : m.Present m.limited b f) : m.Present m.port b f :=
  ⟨h.seg, h.bus, h.dev, h.func, fun g hg hport => h.first g hg (limited_of_port g hport), h.answers,
    h.multi⟩

theorem Child.to_port {b b' : Bus} (h : m.Child m.limited b b') : m.Child m.port b b' := by
  obtain ⟨f, hf, hrest⟩ := h
  exact ⟨f, hf.to_port, hrest⟩

theorem Reached.to_port {b : Bus} (h : m.Reached m.limited b) : m.Reached m.port b := by
  obtain ⟨rb, idx, hrb, hpath⟩ := h
  exact ⟨rb, idx, hrb, hpath.lift id fun _ _ h => h.to_port⟩

theorem HasFunction.to_port {f : Fn} (h : m.HasFunction m.limited f) : m.HasFunction m.port f := by
  obtain ⟨b, hb, hf⟩ := h
  exact ⟨b, hb.to_port, hf.to_port⟩

theorem Reached.child {limited : Fn → Bool} {b b' : Bus} (h : m.Reached limited b)
    (hchild : m.Child limited b b') : m.Reached limited b' := by
  obtain ⟨rb, idx, hrb, hpath⟩ := h
  exact ⟨rb, idx, hrb, hpath.tail hchild⟩

end Machine

/-! ## No bus is behind itself -/

namespace Topology

variable (m : Topology)

/-- The bus before a bus is the one that its bridge is on, and it is the only one. -/
theorem parent_unique {b b₁ b₂ : Bus} (h₁ : m.Reached m.port b₁) (h₂ : m.Reached m.port b₂)
    (hb₁ : m.Child m.port b₁ b) (hb₂ : m.Child m.port b₂ b) : b₁ = b₂ := by
  obtain ⟨f, hf, -, -, rfl⟩ := hb₁
  obtain ⟨g, hg, -, -, heq⟩ := hb₂
  obtain rfl : f = g := Origin.bridge.inj (congrArg Bus.origin heq)
  exact m.once b₁ b₂ h₁ h₂ (hf.seg.symm.trans hg.seg) (hf.bus.symm.trans hg.bus)

theorem not_cycle {b : Bus} (h : m.Reached m.port b) : ¬ TransGen (m.Child m.port) b b := by
  obtain ⟨rb, idx, hrb, hpath⟩ := h
  induction hpath with
  | refl =>
      intro hcycle
      obtain ⟨c, -, f, -, -, -, heq⟩ := TransGen.tail'_iff.mp hcycle
      exact Origin.noConfusion (congrArg Bus.origin heq)
  | tail hpath hlast ih =>
      rename_i c d
      intro hcycle
      -- the cycle comes back through the bus before
      obtain ⟨e, hde, hed⟩ := TransGen.tail'_iff.mp hcycle
      have hc : m.Reached m.port c := ⟨rb, idx, hrb, hpath⟩
      have he : m.Reached m.port e := ⟨rb, idx, hrb, (hpath.tail hlast).trans hde⟩
      obtain rfl := m.parent_unique hc he hlast hed
      exact ih (TransGen.head' hlast hde)

/-- The buses that are reached are no more than the bus numbers. -/
theorem finite_reached : {b | m.Reached m.port b}.Finite := by
  refine Set.Finite.of_injOn (f := fun b : Bus => (b.seg.toNat, b.id.toNat))
    (t := (Set.Iio (2 ^ 16)) ×ˢ (Set.Iio (2 ^ 8))) ?_ ?_ ?_
  · exact fun b _ => ⟨b.seg.toNat_lt, b.id.toNat_lt⟩
  · intro b hb b' hb' heq
    obtain ⟨hseg, hid⟩ := Prod.mk.inj heq
    exact m.once b b' hb hb' (UInt16.toNat_inj.mp hseg) (UInt8.toNat_inj.mp hid)
  · exact (Set.finite_Iio _).prod (Set.finite_Iio _)

end Topology

/-! ## The enumeration -/

section Enumeration

variable (m : Machine)

/-- Everything in the tables is a function that the enumeration comes to, in its place. -/
structure Sound (t : Tables) : Prop where
  devs : ∀ key f, t.devs key = some f →
    m.HasFunction m.limited f ∧ (m.config f).headerType = 0 ∧ f.key = key
  brdgs : ∀ key f, t.brdgs key = some f →
    m.HasFunction m.limited f ∧ (m.config f).headerType = 1 ∧ f.key = key

/-- No key is removed. -/
structure Grows (t t' : Tables) : Prop where
  devs : ∀ key, t.devs key ≠ none → t'.devs key ≠ none
  brdgs : ∀ key, t.brdgs key ≠ none → t'.brdgs key ≠ none

theorem Grows.refl (t : Tables) : Grows t t := ⟨fun _ h => h, fun _ h => h⟩

theorem Grows.trans {t t' t'' : Tables} (h : Grows t t') (h' : Grows t' t'') : Grows t t'' :=
  ⟨fun key hk => h'.devs key (h.devs key hk), fun key hk => h'.brdgs key (h.brdgs key hk)⟩

/-- There is an entry under the key of the function. -/
def Has (f : Fn) (t : Tables) : Prop :=
  ((m.config f).headerType = 0 → t.devs f.key ≠ none) ∧
    ((m.config f).headerType = 1 → t.brdgs f.key ≠ none)

theorem Has.mono {f : Fn} {t t' : Tables} (h : Has m f t) (hgrows : Grows t t') : Has m f t' :=
  ⟨fun hh => hgrows.devs _ (h.1 hh), fun hh => hgrows.brdgs _ (h.2 hh)⟩

/-- All functions on the bus and on the buses behind it have entries. -/
def Covers (b : Bus) (t : Tables) : Prop :=
  ∀ b', ReflTransGen (m.Child m.limited) b b' → ∀ f, m.Present m.limited b' f → Has m f t

/-- The function has an entry, and the buses behind it are covered. -/
def CoversFn (b : Bus) (f : Fn) (t : Tables) : Prop :=
  m.Present m.limited b f → Has m f t ∧ ((m.config f).headerType = 1 → (m.config f).secondaryBus ≠ 0 →
    Covers m ⟨b.seg, (m.config f).secondaryBus, .bridge f⟩ t)

variable {m}

theorem Covers.mono {b : Bus} {t t' : Tables} (h : Covers m b t) (hgrows : Grows t t') :
    Covers m b t' := fun b' hb' f hf => (h b' hb' f hf).mono m hgrows

theorem CoversFn.mono {b : Bus} {f : Fn} {t t' : Tables} (h : CoversFn m b f t)
    (hgrows : Grows t t') : CoversFn m b f t' :=
  fun hf => ⟨((h hf).1).mono m hgrows, fun hh hs => ((h hf).2 hh hs).mono hgrows⟩

variable (m)

/-- With fuel for `N` levels the computation returns, with tables that are sound and have what `C`
says. -/
def Runs (N : ℕ) (g : ℕ → Tables → Except Fault Tables) (C : Tables → Prop) : Prop :=
  ∀ t, ∃ t', (∀ fuel, N ≤ fuel → g fuel t = .ok t') ∧ (Sound m t → Sound m t') ∧ Grows t t' ∧ C t'

variable {m}

theorem Runs.skip {N : ℕ} {C : Tables → Prop} (hC : ∀ t, C t) : Runs m N (fun _ t => .ok t) C :=
  fun t => ⟨t, fun _ _ => rfl, fun h => h, Grows.refl t, hC t⟩

theorem Runs.more {N N' : ℕ} {g : ℕ → Tables → Except Fault Tables} {C : Tables → Prop}
    (h : Runs m N g C) (hN : N ≤ N') : Runs m N' g C := by
  intro t
  obtain ⟨t', hrun, hrest⟩ := h t
  exact ⟨t', fun fuel hfuel => hrun fuel (Nat.le_trans hN hfuel), hrest⟩

theorem Runs.weaken {N : ℕ} {g : ℕ → Tables → Except Fault Tables} {C C' : Tables → Prop}
    (h : Runs m N g C) (hC : ∀ t, C t → C' t) : Runs m N g C' := by
  intro t
  obtain ⟨t', hrun, hsound, hgrows, hCt⟩ := h t
  exact ⟨t', hrun, hsound, hgrows, hC t' hCt⟩

theorem Runs.foldlM {β : Type} {N : ℕ} {g : ℕ → Tables → β → Except Fault Tables}
    {C : β → Tables → Prop} (l : List β)
    (hmono : ∀ b t t', Grows t t' → C b t → C b t')
    (h : ∀ b ∈ l, Runs m N (fun fuel t => g fuel t b) (C b)) :
    Runs m N (fun fuel t => l.foldlM (g fuel) t) fun t => ∀ b ∈ l, C b t := by
  induction l with
  | nil => exact Runs.skip fun t b hb => absurd hb List.not_mem_nil
  | cons b l ih =>
      intro t
      obtain ⟨t₁, hrun₁, hsound₁, hgrows₁, hC₁⟩ := h b (List.mem_cons_self ..) t
      obtain ⟨t', hrun, hsound, hgrows, hC⟩ := ih (fun c hc => h c (List.mem_cons_of_mem _ hc)) t₁
      refine ⟨t', fun fuel hfuel => ?_, fun ht => hsound (hsound₁ ht), hgrows₁.trans hgrows, ?_⟩
      · have hfirst := hrun₁ fuel hfuel
        dsimp only at hfirst ⊢
        rw [List.foldlM_cons, hfirst]
        exact hrun fuel hfuel
      · intro c hc
        rcases List.mem_cons.mp hc with rfl | hc
        · exact hmono c t₁ t' hgrows hC₁
        · exact hC c hc

variable {b : Bus} {N : ℕ}

/-- A function goes into the first table. -/
theorem Sound.putDev {t : Tables} (h : Sound m t) {f : Fn} (hf : m.HasFunction m.limited f)
    (hheader : (m.config f).headerType = 0) :
    Sound m { t with devs := Function.update t.devs f.key (some f) } := by
  refine ⟨fun key g hg => ?_, h.brdgs⟩
  dsimp only at hg
  by_cases hkey : key = f.key
  · rw [hkey, Function.update_self] at hg
    cases hg
    exact ⟨hf, hheader, hkey.symm⟩
  · rw [Function.update_of_ne hkey] at hg
    exact h.devs key g hg

theorem Sound.putBridge {t : Tables} (h : Sound m t) {f : Fn} (hf : m.HasFunction m.limited f)
    (hheader : (m.config f).headerType = 1) :
    Sound m { t with brdgs := Function.update t.brdgs f.key (some f) } := by
  refine ⟨h.devs, fun key g hg => ?_⟩
  dsimp only at hg
  by_cases hkey : key = f.key
  · rw [hkey, Function.update_self] at hg
    cases hg
    exact ⟨hf, hheader, hkey.symm⟩
  · rw [Function.update_of_ne hkey] at hg
    exact h.brdgs key g hg

theorem update_ne_none (g : ℕ → Option Fn) (f : Fn) {key : ℕ} (h : g key ≠ none) :
    Function.update g f.key (some f) key ≠ none := by
  by_cases hkey : key = f.key
  · rw [hkey, Function.update_self]
    exact Option.some_ne_none f
  · rwa [Function.update_of_ne hkey]

/-- A function that answers is put into its table, after the bus behind it if it is a bridge. -/
theorem enumFunc_runs (dev func : ℕ)
    (hheaders : ∀ f, m.HasFunction m.limited f → (m.config f).headerType = 0 ∨
      (m.config f).headerType = 1)
    (hb : m.Reached m.limited b)
    (hpresent : (m.config ⟨b.seg, b.id, dev, func⟩).venid ≠ 0xFFFF →
      (m.config ⟨b.seg, b.id, dev, func⟩).devid ≠ 0xFFFF →
      m.Present m.limited b ⟨b.seg, b.id, dev, func⟩)
    (hchild : ∀ b', m.Child m.limited b b' → Runs m N (fun fuel => m.enumBus fuel b') (Covers m b')) :
    Runs m N (fun fuel => m.enumFunc (m.enumBus fuel) b dev func)
      (CoversFn m b ⟨b.seg, b.id, dev, func⟩) := by
  set f : Fn := ⟨b.seg, b.id, dev, func⟩ with hfdef
  by_cases hanswers : (m.config f).venid = 0xFFFF ∨ (m.config f).devid = 0xFFFF
  · -- nothing answers
    intro t
    refine ⟨t, fun fuel _ => ?_, fun h => h, Grows.refl t, fun hf => ?_⟩
    · exact if_pos hanswers
    · rcases hanswers with hid | hid
      · exact absurd hid hf.answers.1
      · exact absurd hid hf.answers.2
  · have hf := hpresent (fun hid => hanswers (Or.inl hid)) fun hid => hanswers (Or.inr hid)
    have hfn : m.HasFunction m.limited f := ⟨b, hb, hf⟩
    rcases hheaders f hfn with hheader | hheader
    · intro t
      refine ⟨{ t with devs := Function.update t.devs f.key (some f) }, fun fuel _ => ?_,
        fun h => h.putDev hfn hheader, ⟨fun key => update_ne_none t.devs f, fun _ h => h⟩, fun _ => ?_⟩
      · exact (if_neg hanswers).trans (if_pos hheader)
      · refine ⟨⟨fun _ => ?_, fun hone => ?_⟩, fun hone => ?_⟩
        · dsimp only
          rw [Function.update_self]
          exact Option.some_ne_none f
        · exact absurd (hheader.symm.trans hone) (by decide)
        · exact absurd (hheader.symm.trans hone) (by decide)
    · have hne : (m.config f).headerType ≠ 0 := by
        rw [hheader]
        decide
      -- the bus behind the bridge, if there is one
      have hbehind : Runs m N
          (fun fuel t => if (m.config f).secondaryBus ≠ 0 then
            m.enumBus fuel ⟨b.seg, (m.config f).secondaryBus, .bridge f⟩ t else .ok t)
          fun t => (m.config f).secondaryBus ≠ 0 →
            Covers m ⟨b.seg, (m.config f).secondaryBus, .bridge f⟩ t := by
        by_cases hsec : (m.config f).secondaryBus ≠ 0
        · simp only [if_pos hsec]
          exact (hchild _ ⟨f, hf, hheader, hsec, rfl⟩).weaken fun t ht _ => ht
        · simp only [if_neg hsec]
          exact Runs.skip fun t h => absurd h hsec
      intro t
      obtain ⟨t₁, hrun, hsound, hgrows, hcovers⟩ := hbehind t
      have hput : Grows t₁ { t₁ with brdgs := Function.update t₁.brdgs f.key (some f) } :=
        ⟨fun _ h => h, fun key => update_ne_none t₁.brdgs f⟩
      refine ⟨{ t₁ with brdgs := Function.update t₁.brdgs f.key (some f) }, fun fuel hfuel => ?_,
        fun h => (hsound h).putBridge hfn hheader, hgrows.trans hput, fun _ => ?_⟩
      · refine (if_neg hanswers).trans ((if_neg hne).trans ((if_pos hheader).trans ?_))
        exact congrArg (fun r : Except Fault Tables => r >>= fun t =>
          .ok { t with brdgs := Function.update t.brdgs f.key (some f) }) (hrun fuel hfuel)
      · refine ⟨⟨fun hzero => absurd hzero hne, fun _ => ?_⟩, fun _ hsec => (hcovers hsec).mono hput⟩
        dsimp only
        rw [Function.update_self]
        exact Option.some_ne_none f

/-- A function other than the first one is looked at if the first one says so. -/
theorem enumDev_runs {dev : ℕ}
    (hheaders : ∀ f, m.HasFunction m.limited f → (m.config f).headerType = 0 ∨
      (m.config f).headerType = 1)
    (hb : m.Reached m.limited b) (hdev : dev < 32)
    (hfirst : ∀ g, b.origin = .bridge g → m.limited g = true → dev = 0)
    (hchild : ∀ b', m.Child m.limited b b' → Runs m N (fun fuel => m.enumBus fuel b') (Covers m b')) :
    Runs m N (fun fuel t => m.enumDev (m.enumBus fuel) b t dev)
      fun t => ∀ func, CoversFn m b ⟨b.seg, b.id, dev, func⟩ t := by
  by_cases hvenid : (m.config ⟨b.seg, b.id, dev, 0⟩).venid = 0xFFFF
  · intro t
    refine ⟨t, fun fuel _ => if_pos hvenid, fun h => h, Grows.refl t, fun func hf => ?_⟩
    rcases hf.multi with hzero | ⟨hid, -⟩
    · change func = 0 at hzero
      subst hzero
      exact absurd hvenid hf.answers.1
    · exact absurd hvenid hid
  · by_cases hmulti : (m.config ⟨b.seg, b.id, dev, 0⟩).isMulti = true
    · have hall : ∀ func ∈ List.range 8, Runs m N
          (fun fuel t => m.enumFunc (m.enumBus fuel) b dev func t)
          (CoversFn m b ⟨b.seg, b.id, dev, func⟩) := by
        intro func hfunc
        refine enumFunc_runs dev func hheaders hb (fun hid hid' => ?_) hchild
        exact ⟨rfl, rfl, hdev, List.mem_range.mp hfunc, hfirst, ⟨hid, hid'⟩, Or.inr ⟨hvenid, hmulti⟩⟩
      intro t
      obtain ⟨t', hrun, hsound, hgrows, hC⟩ :=
        Runs.foldlM (g := fun fuel t func => m.enumFunc (m.enumBus fuel) b dev func t)
          (C := fun func => CoversFn m b ⟨b.seg, b.id, dev, func⟩) (List.range 8)
          (fun _ _ _ hgrows h => h.mono hgrows) hall t
      refine ⟨t', fun fuel hfuel => ?_, hsound, hgrows, fun func hf => ?_⟩
      · exact (if_neg hvenid).trans ((if_pos hmulti).trans (hrun fuel hfuel))
      · exact hC func (List.mem_range.mpr hf.func) hf
    · have hzero := enumFunc_runs dev 0 hheaders hb (fun hid hid' =>
        ⟨rfl, rfl, hdev, Nat.zero_lt_succ 7, hfirst, ⟨hid, hid'⟩, Or.inl rfl⟩) hchild
      intro t
      obtain ⟨t', hrun, hsound, hgrows, hC⟩ := hzero t
      refine ⟨t', fun fuel hfuel => ?_, hsound, hgrows, fun func hf => ?_⟩
      · exact (if_neg hvenid).trans ((if_neg hmulti).trans (hrun fuel hfuel))
      · rcases hf.multi with heq | ⟨-, hbit⟩
        · change func = 0 at heq
          subst heq
          exact hC hf
        · exact absurd hbit hmulti

/-- One level more of fuel than the buses behind the bus need. -/
theorem enumBus_runs
    (hheaders : ∀ f, m.HasFunction m.limited f → (m.config f).headerType = 0 ∨
      (m.config f).headerType = 1)
    (hb : m.Reached m.limited b)
    (hchild : ∀ b', m.Child m.limited b b' → Runs m N (fun fuel => m.enumBus fuel b') (Covers m b')) :
    Runs m (N + 1) (fun fuel => m.enumBus fuel b) (Covers m b) := by
  have hdevs : ∀ dev ∈ List.range (if m.devs32 b then 32 else 1), dev < 32 ∧
      ∀ g, b.origin = .bridge g → m.limited g = true → dev = 0 := by
    intro dev hdev
    rw [List.mem_range] at hdev
    refine ⟨by split at hdev <;> omega, fun g hg hlimited => ?_⟩
    rw [Machine.devs32, hg] at hdev
    simp only [hlimited, Bool.not_true, Bool.false_eq_true, if_false] at hdev
    omega
  have hall := Runs.foldlM (m := m) (N := N)
    (g := fun fuel => m.enumDev (m.enumBus fuel) b)
    (C := fun dev t => ∀ func, CoversFn m b ⟨b.seg, b.id, dev, func⟩ t)
    (List.range (if m.devs32 b then 32 else 1))
    (fun _ _ _ hgrows h func => (h func).mono hgrows)
    (fun dev hdev => enumDev_runs hheaders hb (hdevs dev hdev).1 (hdevs dev hdev).2 hchild)
  intro t
  obtain ⟨t', hrun, hsound, hgrows, hC⟩ := hall t
  refine ⟨t', fun fuel hfuel => ?_, hsound, hgrows, ?_⟩
  · obtain ⟨fuel, rfl⟩ := Nat.exists_eq_add_of_le' hfuel
    exact hrun (fuel + N) (Nat.le_add_left _ _)
  · -- each function of the bus is among those that were looked at
    have hfn : ∀ f, m.Present m.limited b f → CoversFn m b f t' := by
      intro f hf
      have hmem : f.dev ∈ List.range (if m.devs32 b then 32 else 1) := by
        rw [List.mem_range]
        split
        · exact hf.dev
        · rename_i hdevs32
          rw [Machine.devs32] at hdevs32
          split at hdevs32
          · exact absurd rfl hdevs32
          · rename_i g hg
            rw [hf.first g hg (by simpa using hdevs32)]
            exact Nat.one_pos
      have hthis := hC f.dev hmem f.func
      rwa [← hf.seg, ← hf.bus] at hthis
    intro b' hb' f hf
    rcases ReflTransGen.cases_head_iff.mp hb' with rfl | ⟨c, ⟨g, hg, hheader, hsec, rfl⟩, hpath⟩
    · exact (hfn f hf hf).1
    · exact (hfn g hg hg).2 hheader hsec b' hpath f hf

end Enumeration

namespace Topology

variable (m : Topology)

/-- The enumeration of a bus that is reached returns. -/
theorem runs_of_reached {b : Bus} (hb : m.Reached m.limited b) :
    ∃ N, Runs m.toMachine N (fun fuel => m.enumBus fuel b) (Covers m.toMachine b) := by
  have hheaders : ∀ f, m.HasFunction m.limited f → (m.config f).headerType = 0 ∨
      (m.config f).headerType = 1 := fun f hf => m.headers f hf.to_port
  by_contra hnone
  -- a bus without enough fuel has such a bus behind it, and there would be a cycle of them
  let stuck : Set Bus := {b | m.Reached m.limited b ∧
    ¬ ∃ N, Runs m.toMachine N (fun fuel => m.enumBus fuel b) (Covers m.toMachine b)}
  have hfinite : stuck.Finite := m.finite_reached.subset fun b hb => hb.1.to_port
  have hpred : ∀ b ∈ stuck, ∃ b' ∈ stuck, Function.swap (m.Child m.limited) b' b := by
    intro b hb
    by_contra hgood
    refine hb.2 ?_
    have hchild : ∀ b', m.Child m.limited b b' →
        ∃ N, Runs m.toMachine N (fun fuel => m.enumBus fuel b') (Covers m.toMachine b') := by
      intro b' hb'
      by_contra hbad
      exact hgood ⟨b', ⟨hb.1.child hb', hbad⟩, hb'⟩
    choose! N hN using hchild
    have hchildren : {b' | m.Child m.limited b b'}.Finite :=
      m.finite_reached.subset fun b' hb' => (hb.1.child hb').to_port
    exact ⟨_, enumBus_runs hheaders hb.1 fun b' hb' => (hN b' hb').more
      (Finset.le_sup (f := N) (hchildren.mem_toFinset.mpr hb'))⟩
  obtain ⟨c, hcb, hcycle⟩ := exists_cycle_of_forall_pred hfinite hpred ⟨hb, hnone⟩
  have hc : m.Reached m.port c := by
    obtain ⟨rb, idx, hrb, hpath⟩ := hb.to_port
    refine ⟨rb, idx, hrb, hpath.trans ?_⟩
    exact (reflTransGen_swap.mp hcb).lift id fun _ _ h => h.to_port
  exact m.not_cycle hc ((transGen_swap.mp hcycle).lift id fun _ _ h => h.to_port)

/-- The enumeration returns tables that are sound, with an entry for each function it comes to. -/
theorem enumerate_spec :
    ∃ t, Returns m.enumerate t ∧ Sound m.toMachine t ∧
      ∀ f, m.HasFunction m.limited f → Has m.toMachine f t := by
  have hroot : ∀ rb ∈ m.rbs.zipIdx, m.Reached m.limited ⟨rb.1.1, rb.1.2, .root rb.2⟩ :=
    fun rb hrb => ⟨rb.1, rb.2, hrb, .refl⟩
  have hruns : ∀ rb ∈ m.rbs.zipIdx, ∃ N, Runs m.toMachine N
      (fun fuel => m.enumBus fuel ⟨rb.1.1, rb.1.2, .root rb.2⟩)
      (Covers m.toMachine ⟨rb.1.1, rb.1.2, .root rb.2⟩) :=
    fun rb hrb => m.runs_of_reached (hroot rb hrb)
  choose! N hN using hruns
  obtain ⟨t, hrun, hsound, -, hcovers⟩ := Runs.foldlM (m := m.toMachine)
    (N := m.rbs.zipIdx.toFinset.sup N)
    (g := fun fuel t rb => m.enumBus fuel ⟨rb.1.1, rb.1.2, .root rb.2⟩ t)
    (C := fun rb => Covers m.toMachine ⟨rb.1.1, rb.1.2, .root rb.2⟩) m.rbs.zipIdx
    (fun _ _ _ hgrows h => h.mono hgrows)
    (fun rb hrb => (hN rb hrb).more (Finset.le_sup (f := N) (List.mem_toFinset.mpr hrb)))
    ⟨fun _ => none, fun _ => none⟩
  refine ⟨t, ⟨_, hrun⟩, hsound ⟨nofun, nofun⟩, fun f hf => ?_⟩
  obtain ⟨b, ⟨rb, idx, hrb, hpath⟩, hf⟩ := hf
  exact hcovers (rb, idx) hrb b hpath f hf

/-- Without a harm from the flags the enumeration comes to every function. -/
theorem limited_of_harmless (h : FlagsHarmless m.toMachine) {f : Fn} (hf : m.HasFunction m.port f) :
    m.HasFunction m.limited f := by
  have hpresent : ∀ b f, m.Reached m.port b → m.Present m.port b f → m.Present m.limited b f := by
    intro b f hb hf
    refine ⟨hf.seg, hf.bus, hf.dev, hf.func, fun g hg hlimited => ?_, hf.answers, hf.multi⟩
    rcases (Machine.limited_iff g).mp hlimited with hport | ⟨hpcie, hjunk⟩
    · exact hf.first g hg hport
    · exact h b g hb hg hpcie hjunk f hf
  obtain ⟨b, ⟨rb, idx, hrb, hpath⟩, hf⟩ := hf
  have hreached : m.Reached m.limited b := by
    refine ⟨rb, idx, hrb, ?_⟩
    clear hf
    induction hpath with
    | refl => exact .refl
    | tail hpath hlast ih =>
        obtain ⟨g, hg, hrest⟩ := hlast
        exact ih.tail ⟨g, hpresent _ g ⟨rb, idx, hrb, hpath⟩ hg, hrest⟩
  exact ⟨b, hreached, hpresent b f ⟨rb, idx, hrb, hpath⟩ hf⟩

/-- The other way around. -/
theorem harmless_of_limited
    (h : ∀ f, m.HasFunction m.port f → m.HasFunction m.limited f) : FlagsHarmless m.toMachine := by
  intro b g hb hg hpcie hjunk f hf
  obtain ⟨b', hb', hf'⟩ := h f ⟨b, hb, hf⟩
  obtain rfl : b = b' := m.once b b' hb hb'.to_port (hf.seg.symm.trans hf'.seg)
    (hf.bus.symm.trans hf'.bus)
  exact hf'.first g hg ((Machine.limited_iff g).mpr (Or.inr ⟨hpcie, hjunk⟩))

end Topology

/-- The enumeration returns, and the tables are right if and only if segments that agree modulo 256 have
no function in common and no uninitialised flags hide a device. -/
theorem registry_iff (m : Topology) :
    ∃ t, Returns m.enumerate t ∧ (Registered m.toMachine t ↔
      SegmentsApart m.toMachine ∧ FlagsHarmless m.toMachine) := by
  obtain ⟨t, hrun, hsound, hhas⟩ := m.enumerate_spec
  have hbounds : ∀ f, m.HasFunction m.port f → f.dev < 32 ∧ f.func < 8 := by
    rintro f ⟨b, -, hf⟩
    exact ⟨hf.dev, hf.func⟩
  have hkeys : (∀ f g, m.HasFunction m.port f → m.HasFunction m.port g → f.key = g.key → f = g) ↔
      SegmentsApart m.toMachine := by
    constructor
    · intro h f g hf hg hseg hbus hdev hfunc
      exact h f g hf hg ((Fn.key_eq_iff (hbounds f hf) (hbounds g hg)).mpr ⟨hseg, hbus, hdev, hfunc⟩)
    · intro h f g hf hg hkey
      obtain ⟨hseg, hbus, hdev, hfunc⟩ := (Fn.key_eq_iff (hbounds f hf) (hbounds g hg)).mp hkey
      exact h f g hf hg hseg hbus hdev hfunc
  refine ⟨t, hrun, fun h => ⟨hkeys.mp h.keys, m.harmless_of_limited fun f hf => ?_⟩,
    fun ⟨hsegs, hflags⟩ => ?_⟩
  · -- a function with an entry was found
    rcases m.headers f hf with hheader | hheader
    · exact (hsound.devs _ f ((h.devs f.key f).mpr ⟨hf, hheader, rfl⟩)).1
    · exact (hsound.brdgs _ f ((h.brdgs f.key f).mpr ⟨hf, hheader, rfl⟩)).1
  · have hunique := hkeys.mpr hsegs
    refine ⟨fun key f => ⟨fun hentry => ?_, ?_⟩, fun key f => ⟨fun hentry => ?_, ?_⟩, hunique⟩
    · obtain ⟨hf, hrest⟩ := hsound.devs key f hentry
      exact ⟨hf.to_port, hrest⟩
    · rintro ⟨hf, hheader, rfl⟩
      obtain ⟨g, hg⟩ := Option.ne_none_iff_exists'.mp
        ((hhas f (m.limited_of_harmless hflags hf)).1 hheader)
      obtain ⟨hg', -, hkey⟩ := hsound.devs _ g hg
      rw [hg, hunique g f hg'.to_port hf hkey]
    · obtain ⟨hf, hrest⟩ := hsound.brdgs key f hentry
      exact ⟨hf.to_port, hrest⟩
    · rintro ⟨hf, hheader, rfl⟩
      obtain ⟨g, hg⟩ := Option.ne_none_iff_exists'.mp
        ((hhas f (m.limited_of_harmless hflags hf)).2 hheader)
      obtain ⟨hg', -, hkey⟩ := hsound.brdgs _ g hg
      rw [hg, hunique g f hg'.to_port hf hkey]

/-- A function that answers, without capabilities. -/
def exampleDevice : Config := ⟨0x8086, 0x100E, 0, [], 0⟩

/-- Two root buses, in the segments 0 and 256, with a device each. -/
def exampleMachine : Machine where
  rbs := [(0, 0), (256, 0)]
  config f := if f.bus = 0 ∧ f.dev = 0 ∧ f.func = 0 then exampleDevice else ⟨0xFFFF, 0xFFFF, 0xFF, [], 0xFF⟩
  junk _ := (false, false)

/-- There are no bridges. -/
private theorem exampleMachine_config {f : Fn} {b : Bus}
    (h : exampleMachine.Present exampleMachine.port b f) : exampleMachine.config f = exampleDevice := by
  by_contra hnot
  refine h.answers.1 ?_
  rw [exampleMachine] at hnot ⊢
  dsimp only at hnot ⊢
  split
  · rename_i hzero
    exact absurd (if_pos hzero) hnot
  · rfl

private theorem exampleMachine_reached {b : Bus} (h : exampleMachine.Reached exampleMachine.port b) :
    b = ⟨0, 0, .root 0⟩ ∨ b = ⟨256, 0, .root 1⟩ := by
  obtain ⟨rb, idx, hrb, hpath⟩ := h
  rcases hpath.cases_tail with heq | ⟨c, -, f, hf, hheader, -⟩
  · have hrb' : (rb, idx) = ((0, 0), 0) ∨ (rb, idx) = ((256, 0), 1) := by
      simpa [exampleMachine] using hrb
    rw [heq]
    rcases hrb' with hrb' | hrb'
    · cases hrb'
      exact Or.inl rfl
    · cases hrb'
      exact Or.inr rfl
  · rw [exampleMachine_config hf] at hheader
    exact absurd hheader (by decide)

def exampleTopology : Topology where
  toMachine := exampleMachine
  once b b' hb hb' hseg _ := by
    rcases exampleMachine_reached hb with rfl | rfl
    · rcases exampleMachine_reached hb' with rfl | rfl
      · rfl
      · exact absurd hseg (by decide)
    · rcases exampleMachine_reached hb' with rfl | rfl
      · exact absurd hseg (by decide)
      · rfl
  headers f hf := by
    obtain ⟨b, -, hf⟩ := hf
    rw [exampleMachine_config hf]
    exact Or.inl rfl

/-- The two devices share the key 0. -/
theorem registry_collides :
    ¬ ∀ (m : Topology) t, Returns m.enumerate t → Registered m.toMachine t := by
  intro h
  obtain ⟨t, hrun, -⟩ := exampleTopology.enumerate_spec
  have hkeys := (h exampleTopology t hrun).keys
  have hfirst : exampleMachine.HasFunction exampleMachine.port ⟨0, 0, 0, 0⟩ :=
    ⟨⟨0, 0, .root 0⟩, ⟨(0, 0), 0, by decide, .refl⟩, rfl, rfl, by decide, by decide, nofun, by decide,
      Or.inl rfl⟩
  have hsecond : exampleMachine.HasFunction exampleMachine.port ⟨256, 0, 0, 0⟩ :=
    ⟨⟨256, 0, .root 1⟩, ⟨(256, 0), 1, by decide, .refl⟩, rfl, rfl, by decide, by decide, nofun, by decide,
      Or.inl rfl⟩
  exact absurd (hkeys _ _ hfirst hsecond (by decide)) (by decide)

end Ilobilix.Pci
