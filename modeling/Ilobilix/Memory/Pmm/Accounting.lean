import Ilobilix.Memory.Pmm.Run
import Ilobilix.Memory.Pmm.Sizes

/-!
# The count of used memory

`pmm::alloc` and `pmm::free` pick one of three zones and keep `mem.used`. `alloc` adds the size of the
block that it hands out, a power of two, while `free` takes off the size that was asked for. The two
agree for a number of pages that is a power of two: `used_eq`. For any other the difference stays in
`mem.used` for good: `used_drifts`.

The zones are those of `Run`: what they hand out lies in their ranges, so `free` finds the zone again,
and the blocks handed out are disjoint, so the counter has room for all of them.
-/

namespace Ilobilix.Pmm

open Lib

/-! ## The zones -/

/-- `enum class type`, which also names the zones. -/
inductive ZoneId
  | sub1mib
  | sub4gib
  | normal
deriving DecidableEq, Repr

def ZoneId.zone (hhdm : ℕ) : ZoneId → Zone
  | .sub1mib => ⟨pageSize, mib 1, hhdm⟩
  | .sub4gib => ⟨mib 1, gib 4, hhdm⟩
  | .normal => ⟨gib 4, 2 ^ 64 - 1, hhdm⟩

/-- The zones that a request of a type is tried on, in this order. -/
def ZoneId.tries : ZoneId → List ZoneId
  | .sub1mib => [.sub1mib]
  | .sub4gib => [.sub4gib]
  | .normal => [.normal, .sub4gib]

/-- `in_range` of a pointer. -/
def Zone.inRange (z : Zone) (ptr : ℕ) : Bool :=
  z.start ≤ fromhh z.hhdm ptr && fromhh z.hhdm ptr < z.stop

/-- The physical memory manager after `init`, when the bootstrap allocator is gone. A zone looks at the
page entries and the `list` objects of its own pages only, so each has its part of them. -/
structure Memory where
  zones : ZoneId → State
  used : ℕ

def Memory.setZone (m : Memory) (id : ZoneId) (st : State) : Memory :=
  { m with zones := Function.update m.zones id st }

/-- `pmm::alloc` on the zones left to try, with the zone that the block comes from. It panics if none
has a block. -/
def Memory.allocIn (hhdm fuel npages : ℕ) :
    List ZoneId → Memory → Except Stop (Memory × ZoneId × ℕ)
  | [], _ => .error .bug
  | id :: ids, m =>
      match Pmm.alloc (id.zone hhdm) fuel npages (m.zones id) with
      | .error stop => .error stop
      | .ok (st, none, _) => (m.setZone id st).allocIn hhdm fuel npages ids
      | .ok (st, some ret, bytes) =>
          .ok ({ m.setZone id st with used := (m.used + bytes) % 2 ^ 64 }, id, fromhh hhdm ret)

/-- `pmm::alloc`, which returns the null pointer for no pages. -/
def Memory.alloc (hhdm fuel npages : ℕ) (tp : ZoneId) (m : Memory) :
    Except Stop (Memory × Option (ZoneId × ℕ)) :=
  if npages = 0 then .ok (m, none)
  else (m.allocIn hhdm fuel npages tp.tries).map fun r => (r.1, some r.2)

/-- The zone that `pmm::free` picks. -/
def zoneOf (hhdm ptr : ℕ) : Option ZoneId :=
  [ZoneId.sub1mib, .sub4gib, .normal].find? fun id => (id.zone hhdm).inRange ptr

/-- `pmm::free`. -/
def Memory.free (hhdm ptr npages : ℕ) (m : Memory) : Except Stop Memory :=
  if npages = 0 ∨ ptr = 0 then .ok m
  else
    match zoneOf hhdm ptr with
    | none => .error .bug
    | some id =>
        match Pmm.free (id.zone hhdm) ptr npages (m.zones id) with
        | .error stop => .error stop
        | .ok (st, bytes) => .ok { m.setZone id st with used := (m.used + 2 ^ 64 - bytes) % 2 ^ 64 }

/-! ## Runs -/

/-- The memory manager with the allocations of each zone that have not been freed, as
`(address, npages)`. -/
structure Ledger where
  mem : Memory
  live : ZoneId → List (ℕ × ℕ)

/-- The operations. `touch` is a write of the owner of a block to its own memory. -/
inductive LedgerOp
  | alloc (npages : UInt64) (tp : ZoneId)
  | free (ptr : ℕ) (npages : UInt64)
  | touch (addr : ℕ) (node : Node)

/-- The runs from the state that `init` leaves, with requests for at least one page and every `free`
matching an earlier `alloc`. -/
def Ledger.system (hhdm : ℕ) (m₀ : Memory) : TransitionSystem Ledger LedgerOp where
  init s := s = ⟨m₀, fun _ => []⟩
  step s l s' :=
    match l with
    | .alloc npages tp => 1 ≤ npages.toNat ∧ ∃ m id ptr,
        Returns (fun fuel => s.mem.alloc hhdm fuel npages.toNat tp) (m, some (id, ptr)) ∧
        s' = ⟨m, Function.update s.live id ((ptr, npages.toNat) :: s.live id)⟩
    | .free ptr npages => ∃ id m, (ptr, npages.toNat) ∈ s.live id ∧
        s.mem.free hhdm ptr npages.toNat = .ok m ∧
        s' = ⟨m, Function.update s.live id ((s.live id).erase (ptr, npages.toNat))⟩
    | .touch addr node => ∃ id, ∃ a ∈ s.live id,
        (id.zone hhdm).pageFor addr ∈ ((id.zone hhdm).blockOf (tohh hhdm a.1, a.2)).pages ∧
        s' = { s with mem := s.mem.setZone id ((s.mem.zones id).setNode addr node) }

/-- The pages in the blocks of a zone that are handed out. -/
def pagesOf (live : List (ℕ × ℕ)) : ℕ := (live.map fun a => 2 ^ orderFor a.2).sum

/-- The pages in all blocks that are handed out. -/
def livePages (live : ZoneId → List (ℕ × ℕ)) : ℕ :=
  pagesOf (live .sub1mib) + pagesOf (live .sub4gib) + pagesOf (live .normal)

/-- The number of pages, which counts modulo `2 ^ 52` as the size in bytes does modulo `2 ^ 64`, is a
power of two. -/
def PowerOfTwo (npages : ℕ) : Prop := ∃ k, npages % 2 ^ 52 = 2 ^ k

/-- Blocks are given back by their real size. -/
def LedgerOp.Balanced : LedgerOp → Prop
  | .free _ npages => PowerOfTwo npages.toNat
  | _ => True

/-- What `init` leaves: ranges of page aligned memory in the window of each zone, nothing handed out,
and a count that a machine with physical addresses of 52 bits can have. -/
structure Memory.Ready (hhdm : ℕ) (ranges : ZoneId → List (ℕ × ℕ)) (m : Memory) : Prop where
  aligned : pageSize * 2 ^ maxOrder ∣ hhdm
  zones : ∀ id : ZoneId, ((id.zone hhdm).system (id.zone hhdm).window).Reachable
    ⟨m.zones id, ranges id, []⟩
  used : m.used ≤ 2 ^ 52

/-! ## Sizes -/

section Sizes

variable {z : Zone} {fuel n ptr bytes : ℕ} {st st' : State}

theorem size_mod (n : ℕ) : n % 2 ^ 52 * pageSize % 2 ^ 64 = n * pageSize % 2 ^ 64 := by
  simp only [pageSize]
  omega

theorem orderFor_mod (n : ℕ) : orderFor (n % 2 ^ 52) = orderFor n := by
  rw [orderFor, orderFor, size_mod]

theorem alloc_mod (z : Zone) (fuel n : ℕ) (st : State) :
    Pmm.alloc z fuel (n % 2 ^ 52) st = Pmm.alloc z fuel n st := by
  simp only [Pmm.alloc, size_mod]

theorem free_mod (z : Zone) (ptr n : ℕ) (st : State) :
    Pmm.free z ptr (n % 2 ^ 52) st = Pmm.free z ptr n st := by
  simp only [Pmm.free, size_mod]

/-- No block holds more than `2 ^ 51` pages, or none. -/
theorem alloc_illegal (h : n % 2 ^ 52 = 0 ∨ 2 ^ 51 < n % 2 ^ 52) :
    Pmm.alloc z fuel n st = .ok (st, none, 0) := by
  have hneg : nextOrderFrom (n * pageSize % 2 ^ 64) < 0 := by
    rw [← size_mod, nextOrderFrom]
    rcases h with h | h
    · rw [h]
      decide
    · have hlt : n % 2 ^ 52 < 2 ^ 52 := Nat.mod_lt _ (Nat.two_pow_pos 52)
      have hsize : n % 2 ^ 52 * pageSize % 2 ^ 64 = n % 2 ^ 52 * pageSize :=
        Nat.mod_eq_of_lt (by simp only [pageSize]; omega)
      rw [hsize, if_neg (by simp only [pageSize]; omega),
        nextPow2_large (by simp only [pageSize]; omega) (by simp only [pageSize]; omega)]
      decide
  rw [Pmm.alloc, if_pos (Or.inl hneg)]

theorem alloc_counts {ret : ℕ} (h : Pmm.alloc z fuel n st = .ok (st', some ret, bytes)) :
    bytes = pageSize * 2 ^ orderFor n := by
  rw [Pmm.alloc] at h
  split at h
  · cases h
  · rename_i hlegal
    rw [not_or, not_lt, not_lt] at hlegal
    rw [← blockBytes_eq (le_trans hlegal.2 (by decide) : orderFor n ≤ 51)]
    exact (allocOrder_block h).2

/-- The bytes that `free` takes off. -/
theorem free_counts (h : Pmm.free z ptr n st = .ok (st', bytes)) : bytes ≤ n * pageSize % 2 ^ 64 ∧
    (orderFor n ≤ maxOrder → 0 ≤ nextOrderFrom (n * pageSize % 2 ^ 64) →
      bytes = n * pageSize % 2 ^ 64) := by
  rw [Pmm.free] at h
  split at h
  · rename_i hillegal
    cases h
    refine ⟨Nat.zero_le _, fun hle hpos => ?_⟩
    rcases hillegal with hneg | hbig
    · exact absurd hneg (not_lt.mpr hpos)
    · exact absurd hbig (not_lt.mpr hle)
  · cases hfree : freeOrder z ptr (nextOrderFrom (n * pageSize % 2 ^ 64)).toNat st with
    | error stop =>
        rw [hfree] at h
        cases h
    | ok st₁ =>
        rw [hfree] at h
        cases h
        exact ⟨le_rfl, fun _ _ => rfl⟩

/-- The size that was asked for is at most the real one. -/
theorem size_le (h1 : 1 ≤ n % 2 ^ 52) (h2 : n % 2 ^ 52 ≤ 2 ^ 51) :
    n * pageSize % 2 ^ 64 ≤ pageSize * 2 ^ orderFor n := by
  obtain ⟨-, hle, -⟩ := nextOrderFrom_eq h1 h2
  rw [orderFor_mod] at hle
  rw [← size_mod, Nat.mul_comm pageSize]
  exact le_trans (Nat.mod_le _ _) (Nat.mul_le_mul_right _ hle)

/-- The two sizes agree for a power of two. -/
theorem PowerOfTwo.size_eq (h : PowerOfTwo n) :
    n * pageSize % 2 ^ 64 = pageSize * 2 ^ orderFor n := by
  obtain ⟨k, hk⟩ := h
  have hlt : 2 ^ k < 2 ^ 52 := hk ▸ Nat.mod_lt _ (Nat.two_pow_pos 52)
  have hk52 : k < 52 := (Nat.pow_lt_pow_iff_right (by norm_num)).mp hlt
  obtain ⟨-, hle, hleast⟩ := nextOrderFrom_eq (Nat.one_le_two_pow (n := k))
    (Nat.pow_le_pow_right (by norm_num) (by omega : k ≤ 51))
  have hkorder : orderFor n = k := by
    rw [← orderFor_mod, hk]
    apply le_antisymm
    · by_contra hgt
      exact lt_irrefl _ (hleast k (not_le.mp hgt))
    · exact (Nat.pow_le_pow_iff_right (by norm_num)).mp hle
  rw [← size_mod, hk, hkorder, Nat.mod_eq_of_lt]
  · exact Nat.mul_comm _ _
  · simp only [pageSize]
    omega

end Sizes

/-! ## The zones of a run -/

/-- A zone as a run of its own. -/
def Memory.run (hhdm : ℕ) (ranges live : ZoneId → List (ℕ × ℕ)) (m : Memory) (id : ZoneId) : Run :=
  ⟨m.zones id, ranges id, (live id).map fun a => (tohh hhdm a.1, a.2 % 2 ^ 52)⟩

/-- Every zone keeps the invariant of its runs. -/
def Memory.ZonesInv (hhdm : ℕ) (ranges live : ZoneId → List (ℕ × ℕ)) (m : Memory) : Prop :=
  ∀ id : ZoneId, ∃ free, RunInv (id.zone hhdm) (m.run hhdm ranges live id) free

section Zones

variable {hhdm n ptr : ℕ} {ranges live : ZoneId → List (ℕ × ℕ)} {m : Memory} {id : ZoneId}

@[simp] theorem ZoneId.zone_hhdm (hhdm : ℕ) (id : ZoneId) : (id.zone hhdm).hhdm = hhdm := by
  cases id with
  | sub1mib => rfl
  | sub4gib => rfl
  | normal => rfl

/-- Only the zone that was called has changed. -/
theorem Memory.ZonesInv.setZone (h : m.ZonesInv hhdm ranges live) {st : State} {l : List (ℕ × ℕ)}
    {free : ℕ → List ℕ} (hid : RunInv (id.zone hhdm) ⟨st, ranges id,
      l.map fun a => (tohh hhdm a.1, a.2 % 2 ^ 52)⟩ free) :
    (m.setZone id st).ZonesInv hhdm ranges (Function.update live id l) := by
  intro id'
  by_cases heq : id' = id
  · subst heq
    refine ⟨free, ?_⟩
    simp only [Memory.run, Memory.setZone, Function.update_self]
    exact hid
  · obtain ⟨free', hfree'⟩ := h id'
    refine ⟨free', ?_⟩
    simp only [Memory.run, Memory.setZone, Function.update_of_ne heq]
    exact hfree'

/-- The counter does not matter to the zones. -/
theorem Memory.ZonesInv.setUsed (h : m.ZonesInv hhdm ranges live) (used : ℕ) :
    { m with used := used }.ZonesInv hhdm ranges live := h

theorem RunInv.fits {z : Zone} {r : Run} {free : ℕ → List ℕ} (h : RunInv z r free) {a : ℕ × ℕ}
    (ha : a ∈ r.live) : z.Fits (z.blockOf a) :=
  h.inv.db.fits _ (Or.inr ⟨a, ha, rfl⟩)

/-- An allocation is at a direct map address. -/
theorem RunInv.tohh_fromhh {z : Zone} {r : Run} {free : ℕ → List ℕ} (h : RunInv z r free) {a : ℕ × ℕ}
    (ha : a ∈ r.live) : tohh z.hhdm (fromhh z.hhdm a.1) = a.1 := by
  have hfits := (h.fits ha).tohh
  obtain ⟨-, -, haddr⟩ := h.live_addr a ha
  rw [haddr, Zone.addr, fromhh_add]
  exact hfits

/-- The block of an allocation. -/
theorem Memory.ZonesInv.block (h : m.ZonesInv hhdm ranges live) {a : ℕ × ℕ} (ha : a ∈ live id) :
    ∃ p, tohh hhdm a.1 = (id.zone hhdm).addr p ∧ (id.zone hhdm).Fits ⟨p, orderFor a.2⟩ ∧
      p ∈ (m.run hhdm ranges live id).pages ∧ 1 ≤ a.2 % 2 ^ 52 ∧ a.2 % 2 ^ 52 ≤ 2 ^ 51 := by
  obtain ⟨free, hinv⟩ := h id
  have hmem : (tohh hhdm a.1, a.2 % 2 ^ 52) ∈ (m.run hhdm ranges live id).live :=
    List.mem_map.mpr ⟨a, ha, rfl⟩
  obtain ⟨h1, h2, haddr⟩ := hinv.live_addr _ hmem
  have hblock : (id.zone hhdm).blockOf (tohh hhdm a.1, a.2 % 2 ^ 52) =
      ⟨(id.zone hhdm).pageFor (tohh hhdm a.1), orderFor a.2⟩ := by rw [Zone.blockOf, orderFor_mod]
  refine ⟨_, haddr, hblock ▸ hinv.fits hmem, ?_, h1, h2⟩
  rw [← hinv.inv.db.cover]
  exact Set.mem_biUnion (Or.inr ⟨_, hmem, rfl⟩) (Block.base_mem_pages _)

/-- The ranges of each zone lie in the zone. -/
def WithinZones (hhdm : ℕ) (ranges : ZoneId → List (ℕ × ℕ)) : Prop :=
  ∀ id : ZoneId, ∀ rg ∈ ranges id, (id.zone hhdm).start ≤ rg.1 ∧ rg.1 + rg.2 ≤ (id.zone hhdm).stop

/-- The address of an allocation is in the range of its zone. -/
theorem Memory.ZonesInv.inRange (h : m.ZonesInv hhdm ranges live) (hranges : WithinZones hhdm ranges)
    {a : ℕ × ℕ} (ha : a ∈ live id) : (id.zone hhdm).inRange a.1 = true := by
  obtain ⟨p, haddr, hfits, hpage, -, -⟩ := h.block ha
  obtain ⟨free, hinv⟩ := h id
  have hbounds := hfits.bounds
  rw [ZoneId.zone_hhdm] at hbounds
  have hpos := Nat.two_pow_pos (orderFor a.2)
  -- the pointer may be a physical or a direct map address
  have hptr : fromhh hhdm a.1 = p * pageSize := by
    have haddr' : tohh (id.zone hhdm).hhdm a.1 = (id.zone hhdm).addr p := by
      rw [ZoneId.zone_hhdm]
      exact haddr
    have hlt : (id.zone hhdm).hhdm < 2 ^ 64 := by
      rw [ZoneId.zone_hhdm]
      simp only [pageSize] at hbounds
      omega
    rcases tohh_eq_addr (by rw [ZoneId.zone_hhdm]; exact hbounds.1) hlt haddr' with heq | heq
    · rw [heq, Zone.addr, ZoneId.zone_hhdm, fromhh_add]
    · rw [heq, fromhh, ishh, if_pos]
      simpa using hbounds.1
  obtain ⟨rg, hrg, hlo, hhi⟩ := hpage
  obtain ⟨⟨x, hx⟩, ⟨y, hy⟩⟩ := hinv.ranges rg hrg
  have hzone := hranges id rg hrg
  rw [Zone.inRange, ZoneId.zone_hhdm, hptr, Bool.and_eq_true, decide_eq_true_eq, decide_eq_true_eq]
  simp only [hx, hy, pageSize] at hlo hhi hzone ⊢
  omega

/-- `free` finds the zone again. -/
theorem zoneOf_eq (h : (id.zone hhdm).inRange ptr = true) : ptr ≠ 0 ∧ zoneOf hhdm ptr = some id := by
  rw [Zone.inRange, ZoneId.zone_hhdm, Bool.and_eq_true, decide_eq_true_eq, decide_eq_true_eq] at h
  obtain ⟨hlo, hhi⟩ := h
  have hmib : mib 1 = 2 ^ 20 := by decide
  have hgib : gib 4 = 2 ^ 32 := by decide
  have hne : ptr ≠ 0 := by
    rintro rfl
    have hzero : fromhh hhdm 0 = 0 := by
      rw [fromhh]
      split
      · rfl
      · exact Nat.zero_sub _
    rw [hzero] at hlo
    cases id with
    | sub1mib => exact absurd (show pageSize ≤ 0 from hlo) (by decide)
    | sub4gib => exact absurd (show mib 1 ≤ 0 from hlo) (by decide)
    | normal => exact absurd (show gib 4 ≤ 0 from hlo) (by decide)
  refine ⟨hne, ?_⟩
  rw [zoneOf]
  generalize hx : fromhh hhdm ptr = x at hlo hhi
  cases id with
  | sub1mib =>
      simp only [ZoneId.zone, pageSize, hmib] at hlo hhi
      simp only [List.find?_cons, Zone.inRange, ZoneId.zone, pageSize, hmib, hx]
      rw [decide_eq_true hlo, decide_eq_true hhi]
      rfl
  | sub4gib =>
      simp only [ZoneId.zone, hmib, hgib] at hlo hhi
      simp only [List.find?_cons, Zone.inRange, ZoneId.zone, hmib, hgib, hx]
      rw [decide_eq_false (not_lt.mpr hlo), Bool.and_false, decide_eq_true hlo, decide_eq_true hhi]
      rfl
  | normal =>
      simp only [ZoneId.zone, hgib] at hlo hhi
      simp only [List.find?_cons, Zone.inRange, ZoneId.zone, hmib, hgib, hx]
      rw [decide_eq_false (by omega : ¬ x < 2 ^ 20), decide_eq_false (not_lt.mpr hlo), Bool.and_false,
        Bool.and_false, decide_eq_true hlo, decide_eq_true hhi]
      rfl

/-- The blocks of a zone are disjoint and below `2 ^ 36` pages. -/
theorem Memory.ZonesInv.pagesOf_le (h : m.ZonesInv hhdm ranges live) (id : ZoneId) :
    pagesOf (live id) ≤ 2 ^ 36 := by
  obtain ⟨free, hinv⟩ := h id
  have hmap : pagesOf (live id) =
      (((m.run hhdm ranges live id).live.map (id.zone hhdm).blockOf).map
        fun b => 2 ^ b.order).sum := by
    have hfun : (fun b : Block => 2 ^ b.order) ∘ (id.zone hhdm).blockOf ∘
        (fun a : ℕ × ℕ => (tohh hhdm a.1, a.2 % 2 ^ 52)) = fun a => 2 ^ orderFor a.2 := by
      funext a
      rw [Function.comp_apply, Function.comp_apply, Zone.blockOf, orderFor_mod]
    rw [pagesOf, Memory.run, List.map_map, List.map_map, Function.comp_assoc, hfun]
  have hlive : ∀ b ∈ (m.run hhdm ranges live id).live.map (id.zone hhdm).blockOf,
      b ∈ (id.zone hhdm).liveSet (m.run hhdm ranges live id) := fun b hb => List.mem_map.mp hb
  rw [hmap]
  refine Block.sum_pages_le hinv.live_nodup (hinv.inv.db.disjoint.subset fun b hb => Or.inr ?_)
    fun b hb => ?_
  · exact hlive b hb
  · exact (hinv.inv.db.fits b (Or.inr (hlive b hb))).bounds.2.2

/-- One zone of `alloc`: it has no block, or hands out one and records it. -/
theorem Memory.ZonesInv.allocZone (hal : pageSize * 2 ^ maxOrder ∣ hhdm)
    (h : m.ZonesInv hhdm ranges live) (id : ZoneId) (n : ℕ) :
    (∃ st bytes, Returns (fun fuel => Pmm.alloc (id.zone hhdm) fuel n (m.zones id)) (st, none, bytes) ∧
      (m.setZone id st).ZonesInv hhdm ranges live) ∨
    ∃ st ret, Returns (fun fuel => Pmm.alloc (id.zone hhdm) fuel n (m.zones id))
        (st, some ret, pageSize * 2 ^ orderFor n) ∧
      (m.setZone id st).ZonesInv hhdm ranges
        (Function.update live id ((fromhh hhdm ret, n) :: live id)) ∧
      tohh hhdm (fromhh hhdm ret) = ret := by
  by_cases hlegal : n % 2 ^ 52 = 0 ∨ 2 ^ 51 < n % 2 ^ 52
  · refine Or.inl ⟨m.zones id, 0, Returns.of_eq fun _ => alloc_illegal hlegal, ?_⟩
    rwa [Memory.setZone, Function.update_eq_self]
  · rw [not_or, not_lt] at hlegal
    obtain ⟨free, hinv⟩ := h id
    have hz : (id.zone hhdm).Aligned := by rwa [Zone.Aligned, ZoneId.zone_hhdm]
    obtain ⟨r', free', ⟨st, ret, bytes, hret, rfl⟩, hinv', -⟩ :=
      hinv.alloc hz (Nat.one_le_iff_ne_zero.mpr hlegal.1) hlegal.2
    simp only [alloc_mod] at hret
    cases ret with
    | none =>
        refine Or.inl ⟨st, bytes, hret, ?_⟩
        have hset := h.setZone (l := live id) hinv'
        rwa [Function.update_eq_self] at hset
    | some ret =>
        obtain ⟨N, hN⟩ := hret
        obtain rfl := alloc_counts (hN N le_rfl)
        refine Or.inr ⟨st, ret, ⟨N, hN⟩, ?_⟩
        have htohh := hinv'.tohh_fromhh (a := (ret, n % 2 ^ 52)) List.mem_cons_self
        rw [ZoneId.zone_hhdm] at htohh
        have hnew : RunInv (id.zone hhdm) ⟨st, ranges id,
            ((fromhh hhdm ret, n) :: live id).map fun a => (tohh hhdm a.1, a.2 % 2 ^ 52)⟩ free' := by
          rw [List.map_cons, htohh]
          exact hinv'
        exact ⟨h.setZone hnew, htohh⟩

/-- The mapped list without an element, for a list whose image has no repetition. -/
theorem map_erase_of_nodup {α β : Type*} [BEq α] [LawfulBEq α] [BEq β] [LawfulBEq β] {f : α → β}
    {l : List α} {a : α} (hnodup : (l.map f).Nodup) (ha : a ∈ l) :
    (l.erase a).map f = (l.map f).erase (f a) := by
  induction l with
  | nil => cases ha
  | cons b l ih =>
      rw [List.map_cons, List.nodup_cons] at hnodup
      by_cases hba : b = a
      · subst hba
        rw [List.erase_cons_head, List.map_cons, List.erase_cons_head]
      · have hal : a ∈ l := (List.mem_cons.mp ha).resolve_left (Ne.symm hba)
        have hfne : f b ≠ f a := fun heq => hnodup.1 (heq ▸ List.mem_map_of_mem hal)
        rw [List.erase_cons_tail (by simpa using hba), List.map_cons, List.map_cons,
          List.erase_cons_tail (by simpa using hfne), ih hnodup.2 hal]

/-- `free` of an allocation returns and takes off the size that was asked for. -/
theorem Memory.ZonesInv.freeZone (h : m.ZonesInv hhdm ranges live) (hmem : (ptr, n) ∈ live id) :
    ∃ st, Pmm.free (id.zone hhdm) ptr n (m.zones id) = .ok (st, n * pageSize % 2 ^ 64) ∧
      (m.setZone id st).ZonesInv hhdm ranges
        (Function.update live id ((live id).erase (ptr, n))) := by
  obtain ⟨free, hinv⟩ := h id
  have hin : (tohh hhdm ptr, n % 2 ^ 52) ∈ (m.run hhdm ranges live id).live :=
    List.mem_map.mpr ⟨(ptr, n), hmem, rfl⟩
  have hin' : (tohh (id.zone hhdm).hhdm ptr, n % 2 ^ 52) ∈ (m.run hhdm ranges live id).live := by
    rwa [ZoneId.zone_hhdm]
  obtain ⟨r', free', ⟨st, bytes, hfree, rfl⟩, hinv', -⟩ := hinv.freeBlock hin'
  obtain ⟨h1, h2, -⟩ := hinv.live_addr _ hin
  have horder : orderFor n ≤ maxOrder := by
    rw [← orderFor_mod]
    exact (hinv.fits hin).order_le
  have hpos : 0 ≤ nextOrderFrom (n * pageSize % 2 ^ 64) := by
    rw [← size_mod, (nextOrderFrom_eq h1 h2).1]
    exact Int.natCast_nonneg _
  rw [free_mod] at hfree
  have hbytes := (free_counts hfree).2 horder hpos
  refine ⟨st, by rw [← hbytes]; exact hfree, ?_⟩
  have hnew : RunInv (id.zone hhdm) ⟨st, ranges id,
      ((live id).erase (ptr, n)).map fun a => (tohh hhdm a.1, a.2 % 2 ^ 52)⟩ free' := by
    rw [map_erase_of_nodup (List.Nodup.of_map _ hinv.live_nodup) hmem]
    rw [ZoneId.zone_hhdm] at hinv'
    exact hinv'
  exact h.setZone hnew

/-- `pmm::alloc` on the zones left to try. -/
theorem Memory.ZonesInv.allocIn (hal : pageSize * 2 ^ maxOrder ∣ hhdm) (n : ℕ) (ids : List ZoneId)
    (h : m.ZonesInv hhdm ranges live) :
    Stops (fun fuel => m.allocIn hhdm fuel n ids) .bug ∨
    ∃ m' id ptr, Returns (fun fuel => m.allocIn hhdm fuel n ids) (m', id, ptr) ∧
      m'.ZonesInv hhdm ranges (Function.update live id ((ptr, n) :: live id)) ∧
      m'.used = (m.used + pageSize * 2 ^ orderFor n) % 2 ^ 64 := by
  induction ids generalizing m with
  | nil => exact Or.inl ⟨0, fun _ _ => rfl⟩
  | cons id ids ih =>
      rcases h.allocZone hal id n with ⟨st, bytes, ⟨N, hN⟩, hinv⟩ | ⟨st, ret, ⟨N, hN⟩, hinv, -⟩
      · have hnext : ∀ fuel, N ≤ fuel → m.allocIn hhdm fuel n (id :: ids) =
            (m.setZone id st).allocIn hhdm fuel n ids := by
          intro fuel hfuel
          have hzone := hN fuel hfuel
          dsimp only at hzone
          rw [Memory.allocIn, hzone]
        rcases ih hinv with ⟨M, hM⟩ | ⟨m', id', ptr, hret, hinv', hused⟩
        · refine Or.inl ⟨max N M, fun fuel hfuel => ?_⟩
          dsimp only
          rw [hnext fuel (le_trans (le_max_left N M) hfuel)]
          exact hM fuel (le_trans (le_max_right N M) hfuel)
        · exact Or.inr ⟨m', id', ptr, hret.congr hnext, hinv', hused⟩
      · refine Or.inr ⟨{ m.setZone id st with
            used := (m.used + pageSize * 2 ^ orderFor n) % 2 ^ 64 }, id, fromhh hhdm ret,
          ⟨N, fun fuel hfuel => ?_⟩, hinv.setUsed _, rfl⟩
        have hzone := hN fuel hfuel
        dsimp only at hzone ⊢
        rw [Memory.allocIn, hzone]

/-- A write of the owner of a block. -/
theorem Memory.ZonesInv.touch (h : m.ZonesInv hhdm ranges live) {a : ℕ × ℕ} {addr : ℕ}
    (ha : a ∈ live id) (hpage : (id.zone hhdm).pageFor addr ∈
      ((id.zone hhdm).blockOf (tohh hhdm a.1, a.2)).pages) (node : Node) :
    (m.setZone id ((m.zones id).setNode addr node)).ZonesInv hhdm ranges live := by
  obtain ⟨free, hinv⟩ := h id
  have hmem : (tohh hhdm a.1, a.2 % 2 ^ 52) ∈ (m.run hhdm ranges live id).live :=
    List.mem_map.mpr ⟨a, ha, rfl⟩
  have hblock : (id.zone hhdm).blockOf (tohh hhdm a.1, a.2 % 2 ^ 52) =
      (id.zone hhdm).blockOf (tohh hhdm a.1, a.2) := by rw [Zone.blockOf, Zone.blockOf, orderFor_mod]
  obtain ⟨r', free', rfl, hinv', -⟩ := hinv.touch (n := node) hmem (by rw [hblock]; exact hpage)
  have hset := h.setZone (l := live id) hinv'
  rwa [Function.update_eq_self] at hset

end Zones

/-! ## The counter -/

/-- The invariant of a run: the counter is the count at the start and the pages handed out. -/
structure Ledger.Inv (hhdm : ℕ) (ranges : ZoneId → List (ℕ × ℕ)) (m₀ : Memory) (s : Ledger) : Prop where
  zones : s.mem.ZonesInv hhdm ranges s.live
  used : s.mem.used = m₀.used + pageSize * livePages s.live

section Counter

variable {hhdm : ℕ} {ranges live : ZoneId → List (ℕ × ℕ)} {m₀ m : Memory} {s : Ledger}

/-- The pages handed out, with those of one zone apart. -/
theorem livePages_update (live : ZoneId → List (ℕ × ℕ)) (id : ZoneId) (l : List (ℕ × ℕ)) :
    livePages (Function.update live id l) + pagesOf (live id) = livePages live + pagesOf l := by
  cases id with
  | sub1mib =>
      rw [livePages, livePages, Function.update_self, Function.update_of_ne (by decide),
        Function.update_of_ne (by decide)]
      omega
  | sub4gib =>
      rw [livePages, livePages, Function.update_self, Function.update_of_ne (by decide),
        Function.update_of_ne (by decide)]
      omega
  | normal =>
      rw [livePages, livePages, Function.update_self, Function.update_of_ne (by decide),
        Function.update_of_ne (by decide)]
      omega

theorem pagesOf_cons (a : ℕ × ℕ) (l : List (ℕ × ℕ)) :
    pagesOf (a :: l) = 2 ^ orderFor a.2 + pagesOf l := by
  rw [pagesOf, List.map_cons, List.sum_cons, pagesOf]

theorem pagesOf_erase {l : List (ℕ × ℕ)} {a : ℕ × ℕ} (ha : a ∈ l) :
    pagesOf l = 2 ^ orderFor a.2 + pagesOf (l.erase a) := by
  rw [pagesOf, ((List.perm_cons_erase ha).map fun a => 2 ^ orderFor a.2).sum_eq, ← pagesOf_cons]
  rfl

/-- The counter has room for every block. -/
theorem Memory.ZonesInv.livePages_le (h : m.ZonesInv hhdm ranges live) : livePages live ≤ 3 * 2 ^ 36 := by
  have h₁ := h.pagesOf_le .sub1mib
  have h₂ := h.pagesOf_le .sub4gib
  have h₃ := h.pagesOf_le .normal
  rw [livePages]
  omega

theorem Ledger.Inv.alloc (hready : m₀.Ready hhdm ranges) (h : s.Inv hhdm ranges m₀) {n : ℕ}
    {tp id : ZoneId} {ptr : ℕ} (hpos : 1 ≤ n)
    (halloc : Returns (fun fuel => s.mem.alloc hhdm fuel n tp) (m, some (id, ptr))) :
    Ledger.Inv hhdm ranges m₀ ⟨m, Function.update s.live id ((ptr, n) :: s.live id)⟩ := by
  have hif : ∀ fuel, s.mem.alloc hhdm fuel n tp =
      (s.mem.allocIn hhdm fuel n tp.tries).map fun r => (r.1, some r.2) := fun fuel =>
    if_neg (by omega)
  simp only [hif] at halloc
  obtain ⟨M, hM⟩ := halloc
  have hret := hM (M + 1) (Nat.le_succ M)
  rcases h.zones.allocIn hready.aligned n tp.tries with ⟨N, hN⟩ | ⟨m', id', ptr', ⟨N, hN⟩, hinv, hused⟩
  · -- a panic is no result
    have hstop := hN (max M N) (le_max_right M N)
    have hret := hM (max M N) (le_max_left M N)
    dsimp only at hstop hret
    rw [hstop] at hret
    cases hret
  · have heq := hN (max M N) (le_max_right M N)
    have hret := hM (max M N) (le_max_left M N)
    dsimp only at heq hret
    rw [heq] at hret
    simp only [Except.map, Except.ok.injEq, Prod.mk.injEq, Option.some.injEq] at hret
    obtain ⟨rfl, rfl, rfl⟩ := hret
    refine ⟨hinv, ?_⟩
    have hpages := livePages_update s.live id' ((ptr', n) :: s.live id')
    rw [pagesOf_cons] at hpages
    have hle := hinv.livePages_le
    have hm₀ := hready.used
    dsimp only at hpages ⊢
    rw [hused, h.used]
    generalize livePages (Function.update s.live id' ((ptr', n) :: s.live id')) = P' at *
    generalize 2 ^ orderFor n = k at *
    simp only [pageSize]
    omega

theorem Ledger.Inv.free (hranges : WithinZones hhdm ranges) (hready : m₀.Ready hhdm ranges)
    (h : s.Inv hhdm ranges m₀) {n ptr : ℕ} {id : ZoneId} (hmem : (ptr, n) ∈ s.live id)
    (hpow : PowerOfTwo n) (hfree : s.mem.free hhdm ptr n = .ok m) :
    Ledger.Inv hhdm ranges m₀ ⟨m, Function.update s.live id ((s.live id).erase (ptr, n))⟩ := by
  obtain ⟨hne, hzone⟩ := zoneOf_eq (h.zones.inRange hranges hmem)
  obtain ⟨st, hst, hinv⟩ := h.zones.freeZone hmem
  obtain ⟨-, -, -, -, h1, -⟩ := h.zones.block hmem
  have hn : n ≠ 0 := by
    intro hzero
    dsimp only at h1
    rw [hzero, Nat.zero_mod] at h1
    exact absurd h1 (Nat.not_succ_le_zero 0)
  rw [Memory.free, if_neg (by rw [not_or]; exact ⟨hn, hne⟩), hzone] at hfree
  dsimp only at hfree
  rw [hst, hpow.size_eq] at hfree
  obtain rfl := Except.ok.inj hfree
  refine ⟨hinv.setUsed _, ?_⟩
  have hpages := livePages_update s.live id ((s.live id).erase (ptr, n))
  rw [pagesOf_erase hmem] at hpages
  have hle := h.zones.livePages_le
  have hm₀ := hready.used
  dsimp only at hpages ⊢
  rw [h.used]
  generalize livePages (Function.update s.live id ((s.live id).erase (ptr, n))) = P' at *
  generalize 2 ^ orderFor n = k at *
  simp only [pageSize]
  omega

theorem Ledger.Inv.touch (h : s.Inv hhdm ranges m₀) {id : ZoneId} {a : ℕ × ℕ} {addr : ℕ}
    (ha : a ∈ s.live id) (hpage : (id.zone hhdm).pageFor addr ∈
      ((id.zone hhdm).blockOf (tohh hhdm a.1, a.2)).pages) (node : Node) :
    Ledger.Inv hhdm ranges m₀
      { s with mem := s.mem.setZone id ((s.mem.zones id).setNode addr node) } :=
  ⟨h.zones.touch ha hpage node, h.used⟩

/-- The ranges of a zone lie in it. -/
theorem ranges_within {z : Zone} {lim : ℕ} {r : Run} (h : (z.system lim).Reachable r) :
    ∀ rg ∈ r.ranges, z.start ≤ rg.1 ∧ rg.1 + rg.2 ≤ z.stop := by
  refine h.invariant (I := fun r => ∀ rg ∈ r.ranges, z.start ≤ rg.1 ∧ rg.1 + rg.2 ≤ z.stop)
    (fun r hr => ?_) ?_
  · obtain ⟨-, -, hnil, -⟩ := hr
    rw [hnil]
    simp
  · rintro r op r' - hr ⟨hop, hstep⟩
    cases op with
    | addRange base size =>
        obtain ⟨-, -, hstart, hstop, -, -⟩ := hop
        cases hstep
        intro rg hrg
        rcases List.mem_cons.mp hrg with rfl | hrg
        · exact ⟨hstart, hstop⟩
        · exact hr rg hrg
    | alloc n =>
        obtain ⟨st, ret, bytes, -, rfl⟩ := hstep
        exact hr
    | free ptr n =>
        obtain ⟨st, bytes, -, rfl⟩ := hstep
        exact hr
    | touch addr n =>
        cases hstep
        exact hr

theorem Ledger.inv_of_reachable (hready : m₀.Ready hhdm ranges)
    (h : ((Ledger.system hhdm m₀).restrict fun _ l => l.Balanced).Reachable s) :
    s.Inv hhdm ranges m₀ := by
  have hranges : WithinZones hhdm ranges := fun id => ranges_within (hready.zones id)
  refine h.invariant (fun s hs => ?_) ?_
  · cases hs
    refine ⟨fun id => ?_, rfl⟩
    have haligned : (id.zone hhdm).Aligned := by
      rw [Zone.Aligned, ZoneId.zone_hhdm]
      exact hready.aligned
    obtain ⟨free, hinv, -⟩ := reachable_runInv haligned (hready.zones id)
    exact ⟨free, hinv⟩
  · rintro s l s' - hs ⟨hbal, hstep⟩
    cases l with
    | alloc npages tp =>
        obtain ⟨hpos, m, id, ptr, halloc, rfl⟩ := hstep
        exact hs.alloc hready hpos halloc
    | free ptr npages =>
        obtain ⟨id, m, hmem, hfree, rfl⟩ := hstep
        exact hs.free hranges hready hmem hbal hfree
    | touch addr node =>
        obtain ⟨id, a, ha, hpage, rfl⟩ := hstep
        exact hs.touch ha hpage node

end Counter

/-- In a run that frees numbers of pages that are powers of two, the counter is its value after `init`
and the size of the blocks handed out, and no `free` takes off more than the counter has. -/
theorem used_eq {hhdm : ℕ} {ranges : ZoneId → List (ℕ × ℕ)} {m₀ : Memory}
    (hready : m₀.Ready hhdm ranges) {s : Ledger}
    (h : ((Ledger.system hhdm m₀).restrict fun _ l => l.Balanced).Reachable s) :
    s.mem.used = m₀.used + pageSize * livePages s.live ∧
      ∀ id, ∀ a ∈ s.live id, a.2 * pageSize % 2 ^ 64 ≤ s.mem.used := by
  have hinv := Ledger.inv_of_reachable hready h
  refine ⟨hinv.used, fun id a ha => ?_⟩
  obtain ⟨-, -, -, -, h1, h2⟩ := hinv.zones.block ha
  have hpages := livePages_update s.live id ((s.live id).erase a)
  rw [pagesOf_erase ha] at hpages
  calc a.2 * pageSize % 2 ^ 64
      ≤ pageSize * 2 ^ orderFor a.2 := size_le h1 h2
    _ ≤ pageSize * livePages s.live := Nat.mul_le_mul_left _ (by omega)
    _ ≤ s.mem.used := hinv.used ▸ Nat.le_add_left _ _

/-- Four free pages above the first megabyte, and five pages in use. -/
def exampleMemory : Memory where
  zones
    | .sub4gib => (addRange (ZoneId.zone 0xffff800000000000 .sub4gib) 0x100000 0x4000 State.initial).1
    | _ => State.initial
  used := 0x5000

def exampleRanges : ZoneId → List (ℕ × ℕ)
  | .sub4gib => [(0x100000, 0x4000)]
  | _ => []

theorem exampleMemory_ready : exampleMemory.Ready 0xffff800000000000 exampleRanges where
  aligned := by decide
  zones id := by
    cases id with
    | sub1mib => exact .init ⟨rfl, rfl, rfl, rfl⟩
    | sub4gib =>
        have h₀ : ((ZoneId.zone 0xffff800000000000 .sub4gib).system
            (ZoneId.zone 0xffff800000000000 .sub4gib).window).Reachable ⟨State.initial, [], []⟩ :=
          .init ⟨rfl, rfl, rfl, rfl⟩
        exact h₀.step (l := Op.addRange 0x100000 0x4000)
          ⟨by simp only [Zone.Allowed]; decide, rfl⟩
    | normal => exact .init ⟨rfl, rfl, rfl, rfl⟩
  used := by decide

set_option maxRecDepth 4000 in
private theorem exampleMemory_four : ∃ st, ∀ fuel,
    Pmm.alloc (ZoneId.zone 0xffff800000000000 .sub4gib) fuel 4 (exampleMemory.zones .sub4gib) =
      .ok (st, some 0xffff800000100000, 0x4000) :=
  ⟨_, fun _ => rfl⟩

set_option maxRecDepth 4000 in
private theorem exampleMemory_three : ∃ st, (∀ fuel,
    Pmm.alloc (ZoneId.zone 0xffff800000000000 .sub4gib) fuel 3 (exampleMemory.zones .sub4gib) =
      .ok (st, some 0xffff800000100000, 0x4000)) ∧
    ∃ st', Pmm.free (ZoneId.zone 0xffff800000000000 .sub4gib) 0x100000 3 st = .ok (st', 0x3000) :=
  ⟨_, fun _ => rfl, _, rfl⟩

/-- A request that the zone below four gigabytes serves with its first block. -/
private theorem exampleMemory_alloc {npages : ℕ} (hpos : npages ≠ 0) {st : State}
    (h : ∀ fuel, Pmm.alloc (ZoneId.zone 0xffff800000000000 .sub4gib) fuel npages
      (exampleMemory.zones .sub4gib) = .ok (st, some 0xffff800000100000, 0x4000)) :
    Returns (fun fuel => exampleMemory.alloc 0xffff800000000000 fuel npages .sub4gib)
      ({ exampleMemory.setZone .sub4gib st with used := 0x9000 }, some (.sub4gib, 0x100000)) := by
  refine Returns.of_eq fun fuel => ?_
  have hptr : fromhh 0xffff800000000000 0xffff800000100000 = 0x100000 := by decide
  simp only [Memory.alloc, ZoneId.tries, Memory.allocIn, if_neg hpos, h, hptr]
  rfl

/-- A block of four pages is handed out. -/
theorem used_eq_four : ∃ s : Ledger, s.live .sub4gib = [(0x100000, 4)] ∧
    s.mem.used = 0x5000 + pageSize * livePages s.live ∧ s.mem.used = 0x9000 := by
  have h₀ : ((Ledger.system 0xffff800000000000 exampleMemory).restrict
      fun _ l => l.Balanced).Reachable ⟨exampleMemory, fun _ => []⟩ := .init rfl
  obtain ⟨st, hst⟩ := exampleMemory_four
  have h₁ := h₀.step (l := LedgerOp.alloc 4 .sub4gib)
    ⟨trivial, by decide, _, _, _, exampleMemory_alloc (by decide) hst, rfl⟩
  exact ⟨_, rfl, (used_eq exampleMemory_ready h₁).1, rfl⟩

/-- Three pages are asked for and given back. The block had four, and one of them stays in the
counter. -/
theorem used_drifts : ∃ s : Ledger,
    (Ledger.system 0xffff800000000000 exampleMemory).Run
      [.alloc 3 .sub4gib, .free 0x100000 3] s ∧
    livePages s.live = 0 ∧ exampleMemory.used = 0x5000 ∧ s.mem.used = 0x6000 := by
  have h₀ : (Ledger.system 0xffff800000000000 exampleMemory).Run [] ⟨exampleMemory, fun _ => []⟩ :=
    .init rfl
  obtain ⟨st, hst, st', hst'⟩ := exampleMemory_three
  have h₁ := h₀.step (l := LedgerOp.alloc 3 .sub4gib)
    ⟨by decide, _, _, _, exampleMemory_alloc (by decide) hst, rfl⟩
  have hzone : zoneOf 0xffff800000000000 0x100000 = some .sub4gib := by decide
  have hfree : ({ exampleMemory.setZone .sub4gib st with used := 0x9000 } : Memory).free
      0xffff800000000000 0x100000 3 =
        .ok { (exampleMemory.setZone .sub4gib st).setZone .sub4gib st' with used := 0x6000 } := by
    have hzones : (exampleMemory.setZone .sub4gib st).zones .sub4gib = st := by
      simp only [Memory.setZone, Function.update_self]
    simp only [Memory.free, hzone, hzones, hst']
    rfl
  have h₂ := h₁.step (l := LedgerOp.free 0x100000 3)
    ⟨.sub4gib, _, List.mem_cons_self, hfree, rfl⟩
  exact ⟨_, h₂, rfl, rfl, rfl⟩

end Ilobilix.Pmm
