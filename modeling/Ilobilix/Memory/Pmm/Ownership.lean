import Ilobilix.Memory.Pmm.Accounting

/-!
# Blocks and their owners

What `pmm::alloc` and `pmm::free` do to the free pages and to the memory of the blocks that are handed
out. `alloc` takes the pages of one block out of the free ones and `free` puts them back. Neither
writes to a block that stays handed out, and the first word of a block that `alloc` hands out is null,
because that is where its `list` object had `prev`.
-/

namespace Ilobilix.Pmm

open Lib

/-- The `list` objects of a free list, from its head on. -/
inductive InList (st : State) (k : ℕ) : ℕ → Prop
  | head {a : ℕ} : st.lists k = some a → InList st k a
  | next {a b : ℕ} : InList st k a → (st.mem a).next = some b → InList st k b

/-- A page of a block in a free list. -/
def Zone.FreePage (z : Zone) (st : State) (x : ℕ) : Prop :=
  ∃ k a, InList st k a ∧ x ∈ Block.pages ⟨z.pageFor a, k⟩

/-- A page that the memory manager has to give away. -/
def Memory.FreePage (hhdm : ℕ) (m : Memory) (x : ℕ) : Prop :=
  ∃ id : ZoneId, (id.zone hhdm).FreePage (m.zones id) x

/-! ## One zone -/

section Zone

variable {z : Zone} {st : State} {free : ℕ → List ℕ} {U : Set Block} {added : Set ℕ} {r : Run}

theorem FreeLists.inList_iff (h : FreeLists z st free) {k a : ℕ} :
    InList st k a ↔ a ∈ (free k).map z.addr := by
  constructor
  · intro ha
    induction ha with
    | head hhead => exact List.mem_of_head? ((h.head k).symm.trans hhead)
    | next _ hnext ih =>
        obtain ⟨l₁, l₂, hl⟩ := List.append_of_mem ih
        have hlink := h.linked k
        rw [hl] at hlink
        rw [hl]
        exact List.mem_append_right _ (List.mem_cons_of_mem _
          (List.mem_of_head? (hlink.next_eq.symm.trans hnext)))
  · -- the nodes before the one in question are in the list
    have hall : ∀ (l₁ : List ℕ) (a : ℕ) (l₂ : List ℕ), (free k).map z.addr = l₁ ++ a :: l₂ →
        InList st k a := by
      intro l₁
      induction l₁ using List.reverseRecOn with
      | nil =>
          intro a l₂ hl
          refine .head ((h.head k).trans ?_)
          rw [hl]
          rfl
      | append_singleton l₁ b ih =>
          intro a l₂ hl
          rw [List.append_assoc, List.singleton_append] at hl
          have hlink := h.linked k
          rw [hl] at hlink
          exact .next (ih b (a :: l₂) hl) hlink.next_eq
    intro ha
    obtain ⟨l₁, l₂, hl⟩ := List.append_of_mem ha
    exact hall l₁ a l₂ hl

/-- The free pages are the pages added that are not handed out. -/
theorem Inv.freePage_iff (h : Inv z st free U added) {x : ℕ} :
    z.FreePage st x ↔ x ∈ added ∧ ∀ b ∈ U, x ∉ b.pages := by
  constructor
  · rintro ⟨k, a, ha, hx⟩
    obtain ⟨p, hp, rfl⟩ := List.mem_map.mp (h.lists.inList_iff.mp ha)
    rw [Zone.pageFor_addr] at hx
    have hb : (⟨p, k⟩ : Block) ∈ freeSet free := hp
    refine ⟨?_, fun b hU hxb => h.not_mem_free hU hxb hb hx⟩
    rw [← h.db.cover]
    exact Set.mem_biUnion (Or.inl hb) hx
  · rintro ⟨hx, hout⟩
    rw [← h.db.cover, Set.mem_iUnion₂] at hx
    obtain ⟨b, hb | hb, hxb⟩ := hx
    · refine ⟨b.order, z.addr b.base, ?_, ?_⟩
      · exact h.lists.inList_iff.mpr (List.mem_map_of_mem hb)
      · rwa [Zone.pageFor_addr]
    · exact absurd hxb (hout b hb)

/-- A write to memory that is in no free list does not concern the allocator. -/
theorem Inv.rewrite (h : Inv z st free U added) {mem : ℕ → Node}
    (hmem : ∀ k, ∀ p ∈ free k, mem (z.addr p) = st.mem (z.addr p)) :
    Inv z { st with mem := mem } free U added := by
  refine ⟨⟨h.lists.head, fun k => (h.lists.linked k).congr ?_ ?_, h.lists.nodup, h.lists.separate⟩,
    h.db⟩
  · intro a ha
    obtain ⟨p, hp, rfl⟩ := List.mem_map.mp ha
    exact congrArg Node.next (hmem k p hp)
  · intro a ha
    obtain ⟨p, hp, rfl⟩ := List.mem_map.mp ha
    exact congrArg Node.prev (hmem k p hp)

/-- `alloc` leaves the other blocks alone and hands out one whose first word is null. -/
theorem RunInv.alloc_keeps (hz : z.Aligned) (h : RunInv z r free) {n : ℕ} (h1 : 1 ≤ n) (h2 : n ≤ 2 ^ 51)
    {st' : State} {ret : Option ℕ} {bytes : ℕ}
    (hret : Returns (fun fuel => Pmm.alloc z fuel n r.st) (st', ret, bytes)) :
    Keeps z (z.liveSet r) r.st st' ∧ ∀ a, ret = some a → (st'.mem a).prev = none := by
  obtain ⟨st₁, free₁, ⟨hret₁, -, -, hkeep, -⟩ | ⟨p, hret₁, -, -, hkeep, hnull, -⟩⟩ :=
    alloc_spec hz h.inv h1 h2
  · obtain ⟨rfl, hnone⟩ := Prod.mk.inj (hret.unique hret₁)
    obtain ⟨rfl, -⟩ := Prod.mk.inj hnone
    exact ⟨hkeep, fun a ha => by cases ha⟩
  · obtain ⟨rfl, hsome⟩ := Prod.mk.inj (hret.unique hret₁)
    obtain ⟨rfl, -⟩ := Prod.mk.inj hsome
    refine ⟨hkeep, fun a ha => ?_⟩
    obtain rfl := Option.some.inj ha
    exact hnull

/-- `free` leaves the other blocks alone. -/
theorem RunInv.free_keeps (h : RunInv z r free) {ptr n : ℕ} (hmem : (tohh z.hhdm ptr, n) ∈ r.live)
    {st' : State} {bytes : ℕ} (hfree : Pmm.free z ptr n r.st = .ok (st', bytes)) :
    Keeps z (z.liveSet r \ {z.blockOf (tohh z.hhdm ptr, n)}) r.st st' := by
  obtain ⟨h1, h2, haddr⟩ := h.live_addr _ hmem
  dsimp only at h1 h2 haddr
  have hU : (⟨z.pageFor (tohh z.hhdm ptr), orderFor n⟩ : Block) ∈ z.liveSet r := ⟨_, hmem, rfl⟩
  have hbounds := (h.inv.db.fits _ (Or.inr hU)).bounds
  have hptr := tohh_eq_addr hbounds.1 (by
    have hpos := Nat.two_pow_pos (orderFor n)
    simp only [pageSize] at hbounds
    omega) haddr
  obtain ⟨st₁, free₁, hfree₁, -, -, hkeep, -⟩ := free_spec h.inv h1 h2 hU hptr
  obtain ⟨rfl, -⟩ := Prod.mk.inj (Except.ok.inj (hfree.symm.trans hfree₁))
  exact hkeep

end Zone

/-! ## The memory manager -/

/-- The block of an allocation, by its physical or its direct map address. -/
def blockAt (hhdm : ℕ) (a : ℕ × ℕ) : Block := ⟨fromhh hhdm (tohh hhdm a.1) / pageSize, orderFor a.2⟩

theorem blockAt_order (hhdm : ℕ) (a : ℕ × ℕ) : (blockAt hhdm a).order = orderFor a.2 := rfl

theorem orderFor_one : orderFor 1 = 0 := by decide

/-- The blocks handed out have the `list` objects that they had. -/
def Memory.Keeps (hhdm : ℕ) (live : ZoneId → List (ℕ × ℕ)) (m m' : Memory) : Prop :=
  ∀ id, ∀ a ∈ live id, ∀ q ∈ (blockAt hhdm a).pages,
    (m'.zones id).mem (q * pageSize + hhdm) = (m.zones id).mem (q * pageSize + hhdm)

section Memory

variable {hhdm n ptr : ℕ} {ranges live : ZoneId → List (ℕ × ℕ)} {m m' : Memory} {id : ZoneId}

theorem Memory.Keeps.refl (hhdm : ℕ) (live : ZoneId → List (ℕ × ℕ)) (m : Memory) :
    m.Keeps hhdm live m := fun _ _ _ _ _ => rfl

theorem Memory.Keeps.trans {m₁ m₂ m₃ : Memory} (h₁ : m₁.Keeps hhdm live m₂)
    (h₂ : m₂.Keeps hhdm live m₃) : m₁.Keeps hhdm live m₃ :=
  fun id a ha q hq => (h₂ id a ha q hq).trans (h₁ id a ha q hq)

theorem Memory.Keeps.mono {live' : ZoneId → List (ℕ × ℕ)} (h : m.Keeps hhdm live' m')
    (hsub : ∀ id, ∀ a ∈ live id, a ∈ live' id) : m.Keeps hhdm live m' :=
  fun id a ha => h id a (hsub id a ha)

/-- The blocks of a zone as its run has them. -/
theorem Memory.run_live (a : ℕ × ℕ) :
    (id.zone hhdm).blockOf (tohh hhdm a.1, a.2 % 2 ^ 52) = blockAt hhdm a := by
  rw [Zone.blockOf, orderFor_mod, Zone.pageFor, ZoneId.zone_hhdm, blockAt]

theorem Memory.mem_liveSet {b : Block} :
    b ∈ (id.zone hhdm).liveSet (m.run hhdm ranges live id) ↔ ∃ a ∈ live id, blockAt hhdm a = b := by
  constructor
  · rintro ⟨a', ha', rfl⟩
    obtain ⟨a, ha, rfl⟩ := List.mem_map.mp ha'
    exact ⟨a, ha, (run_live a).symm⟩
  · rintro ⟨a, ha, rfl⟩
    exact ⟨_, List.mem_map_of_mem ha, run_live a⟩

/-- A write of one zone that keeps its blocks. -/
theorem Memory.Keeps.setZone {st : State}
    (h : Pmm.Keeps (id.zone hhdm) ((id.zone hhdm).liveSet (m.run hhdm ranges live id)) (m.zones id) st) :
    m.Keeps hhdm live (m.setZone id st) := by
  intro id' a ha q hq
  by_cases heq : id' = id
  · subst heq
    have hkeep := h _ (mem_liveSet.mpr ⟨a, ha, rfl⟩) q hq
    rw [Zone.addr, ZoneId.zone_hhdm] at hkeep
    simpa only [Memory.setZone, Function.update_self] using hkeep
  · simp only [Memory.setZone, Function.update_of_ne heq]

/-- `pmm::alloc` on the zones left to try. -/
theorem Memory.ZonesInv.allocIn_keeps (hal : pageSize * 2 ^ maxOrder ∣ hhdm) {ids : List ZoneId}
    (h : m.ZonesInv hhdm ranges live)
    (hret : Returns (fun fuel => m.allocIn hhdm fuel n ids) (m', id, ptr)) :
    m.Keeps hhdm live m' ∧ ((m'.zones id).mem (tohh hhdm ptr)).prev = none ∧
      fromhh hhdm (tohh hhdm ptr) = ptr := by
  induction ids generalizing m with
  | nil =>
      obtain ⟨N, hN⟩ := hret
      cases hN N le_rfl
  | cons id' ids ih =>
      obtain ⟨free, hinv⟩ := h id'
      have hz : (id'.zone hhdm).Aligned := by rwa [Zone.Aligned, ZoneId.zone_hhdm]
      -- an illegal size leaves the zone as it is
      have hzone : ∀ {st : State} {ret : Option ℕ} {bytes : ℕ},
          Returns (fun fuel => Pmm.alloc (id'.zone hhdm) fuel n (m.zones id')) (st, ret, bytes) →
          m.Keeps hhdm live (m.setZone id' st) ∧ ∀ a, ret = some a → (st.mem a).prev = none := by
        intro st ret bytes hzret
        by_cases hlegal : n % 2 ^ 52 = 0 ∨ 2 ^ 51 < n % 2 ^ 52
        · have heq := hzret.unique (Returns.of_eq fun _ => alloc_illegal hlegal)
          obtain ⟨rfl, hnone⟩ := Prod.mk.inj heq
          obtain ⟨rfl, -⟩ := Prod.mk.inj hnone
          rw [Memory.setZone, Function.update_eq_self]
          exact ⟨.refl hhdm live m, fun a ha => by cases ha⟩
        · rw [not_or, not_lt] at hlegal
          have hmod : Returns (fun fuel => Pmm.alloc (id'.zone hhdm) fuel (n % 2 ^ 52) (m.zones id'))
              (st, ret, bytes) := by simpa only [alloc_mod] using hzret
          obtain ⟨hkeep, hnull⟩ := hinv.alloc_keeps hz (Nat.one_le_iff_ne_zero.mpr hlegal.1) hlegal.2 hmod
          exact ⟨.setZone hkeep, hnull⟩
      rcases h.allocZone hal id' n with ⟨st, bytes, hzret, hinv'⟩ | ⟨st, ret, hzret, -, htohh⟩
      · have hkeep₁ := (hzone hzret).1
        obtain ⟨N, hN⟩ := hzret
        have hnext : ∀ fuel, N ≤ fuel → (m.setZone id' st).allocIn hhdm fuel n ids =
            m.allocIn hhdm fuel n (id' :: ids) := by
          intro fuel hfuel
          have hrun := hN fuel hfuel
          dsimp only at hrun
          rw [Memory.allocIn, hrun]
        obtain ⟨hkeep, hrest⟩ := ih hinv' (hret.congr hnext)
        exact ⟨hkeep₁.trans hkeep, hrest⟩
      · obtain ⟨hkeep, hnull⟩ := hzone hzret
        obtain ⟨N, hN⟩ := hzret
        have hrun : Returns (fun fuel => m.allocIn hhdm fuel n (id' :: ids))
            ({ m.setZone id' st with used := (m.used + pageSize * 2 ^ orderFor n) % 2 ^ 64 }, id',
              fromhh hhdm ret) := by
          refine ⟨N, fun fuel hfuel => ?_⟩
          have hrun := hN fuel hfuel
          dsimp only at hrun ⊢
          rw [Memory.allocIn, hrun]
        obtain ⟨rfl, hrest⟩ := Prod.mk.inj (hret.unique hrun)
        obtain ⟨rfl, rfl⟩ := Prod.mk.inj hrest
        refine ⟨hkeep, ?_, by rw [htohh]⟩
        rw [htohh]
        simpa only [Memory.setZone, Function.update_self] using hnull ret rfl

end Memory

/-! ## The blocks of a run -/

/-- The memory manager of a run: what the ranges hold and what is handed out. -/
structure Memory.Sound (hhdm : ℕ) (ranges live : ZoneId → List (ℕ × ℕ)) (m : Memory) : Prop where
  aligned : pageSize * 2 ^ maxOrder ∣ hhdm
  within : WithinZones hhdm ranges
  zones : m.ZonesInv hhdm ranges live

/-- The pages of some ranges. -/
def rangePages (l : List (ℕ × ℕ)) : Set ℕ :=
  {x | ∃ rg ∈ l, rg.1 / pageSize ≤ x ∧ x < (rg.1 + rg.2) / pageSize}

/-- A page of a block that is handed out. -/
def Handed (hhdm : ℕ) (live : ZoneId → List (ℕ × ℕ)) (x : ℕ) : Prop :=
  ∃ id, ∃ a ∈ live id, x ∈ (blockAt hhdm a).pages

theorem Handed.mono {hhdm x : ℕ} {live live' : ZoneId → List (ℕ × ℕ)} (h : Handed hhdm live x)
    (hsub : ∀ id, ∀ a ∈ live id, a ∈ live' id) : Handed hhdm live' x :=
  h.imp fun id ⟨a, ha, hx⟩ => ⟨a, hsub id a ha, hx⟩

section Sound

variable {hhdm n ptr : ℕ} {ranges live live' : ZoneId → List (ℕ × ℕ)} {m m' : Memory} {id : ZoneId}
  {a : ℕ × ℕ}

/-- The zones are apart. -/
theorem ZoneId.eq_of_mem {id' : ZoneId} {x : ℕ}
    (h : (id.zone hhdm).start ≤ x ∧ x < (id.zone hhdm).stop)
    (h' : (id'.zone hhdm).start ≤ x ∧ x < (id'.zone hhdm).stop) : id = id' := by
  have hmib : mib 1 = 2 ^ 20 := by decide
  have hgib : gib 4 = 2 ^ 32 := by decide
  cases id <;> cases id' <;> simp only [ZoneId.zone, hmib, hgib, pageSize] at h h' <;>
    first | rfl | omega

/-- A page of the ranges of a zone lies in the zone. -/
theorem Memory.Sound.page_mem (h : m.Sound hhdm ranges live) {x : ℕ} (hx : x ∈ rangePages (ranges id)) :
    (id.zone hhdm).start ≤ x * pageSize ∧ x * pageSize < (id.zone hhdm).stop := by
  obtain ⟨rg, hrg, hlo, hhi⟩ := hx
  obtain ⟨free, hinv⟩ := h.zones id
  obtain ⟨⟨p, hp⟩, ⟨q, hq⟩⟩ := hinv.ranges rg hrg
  have hzone := h.within id rg hrg
  simp only [hp, hq, pageSize] at hlo hhi hzone ⊢
  omega

theorem Memory.Sound.zone_unique (h : m.Sound hhdm ranges live) {id' : ZoneId} {x : ℕ}
    (hx : x ∈ rangePages (ranges id)) (hx' : x ∈ rangePages (ranges id')) : id = id' :=
  ZoneId.eq_of_mem (h.page_mem hx) (h.page_mem hx')

/-- The pages of a block are pages of its zone. -/
theorem Memory.Sound.block_subset (h : m.Sound hhdm ranges live) (ha : a ∈ live id) {x : ℕ}
    (hx : x ∈ (blockAt hhdm a).pages) : x ∈ rangePages (ranges id) := by
  obtain ⟨free, hinv⟩ := h.zones id
  have hcover := hinv.inv.db.cover
  have hmem : x ∈ (m.run hhdm ranges live id).pages := by
    rw [← hcover]
    exact Set.mem_biUnion (Or.inr (Memory.mem_liveSet.mpr ⟨a, ha, rfl⟩)) hx
  exact hmem

/-- The free pages are those of the ranges that are not handed out. -/
theorem Memory.Sound.freePage_iff (h : m.Sound hhdm ranges live) {x : ℕ} :
    m.FreePage hhdm x ↔ (∃ id, x ∈ rangePages (ranges id)) ∧ ¬ Handed hhdm live x := by
  have hzone : ∀ id, (id.zone hhdm).FreePage (m.zones id) x ↔ x ∈ rangePages (ranges id) ∧
      ∀ a ∈ live id, x ∉ (blockAt hhdm a).pages := by
    intro id
    obtain ⟨free, hinv⟩ := h.zones id
    refine hinv.inv.freePage_iff.trans (and_congr Iff.rfl ⟨fun hall a ha => ?_, fun hall b hb => ?_⟩)
    · exact hall _ (Memory.mem_liveSet.mpr ⟨a, ha, rfl⟩)
    · obtain ⟨a, ha, rfl⟩ := Memory.mem_liveSet.mp hb
      exact hall a ha
  constructor
  · rintro ⟨id, hfree⟩
    obtain ⟨hx, hout⟩ := (hzone id).mp hfree
    refine ⟨⟨id, hx⟩, ?_⟩
    rintro ⟨id', a, ha, hxa⟩
    obtain rfl := h.zone_unique hx (h.block_subset ha hxa)
    exact hout a ha hxa
  · rintro ⟨⟨id, hx⟩, hout⟩
    exact ⟨id, (hzone id).mpr ⟨hx, fun a ha hxa => hout ⟨id, a, ha, hxa⟩⟩⟩

/-- The blocks of a zone are disjoint. -/
theorem Memory.Sound.disjoint_cons (h : m.Sound hhdm ranges live) {l : List (ℕ × ℕ)}
    (hperm : (live id).Perm (a :: l)) {b : ℕ × ℕ} (hb : b ∈ l) :
    Disjoint (blockAt hhdm a).pages (blockAt hhdm b).pages := by
  obtain ⟨free, hinv⟩ := h.zones id
  have hmap : (m.run hhdm ranges live id).live.map (id.zone hhdm).blockOf =
      (live id).map (blockAt hhdm) := by
    rw [Memory.run, List.map_map]
    exact List.map_congr_left fun a _ => Memory.run_live a
  have hnodup := hinv.live_nodup
  rw [hmap, (hperm.map _).nodup_iff, List.map_cons, List.nodup_cons] at hnodup
  have ha : a ∈ live id := hperm.mem_iff.mpr List.mem_cons_self
  have hb' : b ∈ live id := hperm.mem_iff.mpr (List.mem_cons_of_mem _ hb)
  refine hinv.inv.db.disjoint (Or.inr (Memory.mem_liveSet.mpr ⟨a, ha, rfl⟩))
    (Or.inr (Memory.mem_liveSet.mpr ⟨b, hb', rfl⟩)) fun heq => hnodup.1 ?_
  rw [heq]
  exact List.mem_map_of_mem hb

/-- Blocks of two zones are disjoint as well. -/
theorem Memory.Sound.disjoint_zones (h : m.Sound hhdm ranges live) {id' : ZoneId} (hne : id ≠ id')
    (ha : a ∈ live id) {b : ℕ × ℕ} (hb : b ∈ live id') :
    Disjoint (blockAt hhdm a).pages (blockAt hhdm b).pages :=
  Set.disjoint_left.mpr fun _ hx hx' =>
    hne (h.zone_unique (h.block_subset ha hx) (h.block_subset hb hx'))

/-- Two states that differ in one block: its pages are free in the one that does not hand it out. -/
theorem Memory.Sound.exchange (h : m.Sound hhdm ranges live) (h' : m'.Sound hhdm ranges live')
    (hother : ∀ id', id' ≠ id → live' id' = live id') (hperm : (live' id).Perm (a :: live id)) (x : ℕ) :
    (m'.FreePage hhdm x ↔ m.FreePage hhdm x ∧ x ∉ (blockAt hhdm a).pages) ∧
      (x ∈ (blockAt hhdm a).pages → m.FreePage hhdm x) := by
  have ha : a ∈ live' id := hperm.mem_iff.mpr List.mem_cons_self
  have hhanded : Handed hhdm live' x ↔ Handed hhdm live x ∨ x ∈ (blockAt hhdm a).pages := by
    constructor
    · rintro ⟨id', b, hb, hx⟩
      by_cases hid : id' = id
      · subst hid
        rcases List.mem_cons.mp (hperm.mem_iff.mp hb) with rfl | hb
        · exact Or.inr hx
        · exact Or.inl ⟨id', b, hb, hx⟩
      · exact Or.inl ⟨id', b, hother id' hid ▸ hb, hx⟩
    · rintro (⟨id', b, hb, hx⟩ | hx)
      · by_cases hid : id' = id
        · subst hid
          exact ⟨id', b, hperm.mem_iff.mpr (List.mem_cons_of_mem _ hb), hx⟩
        · exact ⟨id', b, (hother id' hid).symm ▸ hb, hx⟩
      · exact ⟨id, a, ha, hx⟩
  refine ⟨?_, fun hx => ?_⟩
  · rw [h.freePage_iff, h'.freePage_iff, hhanded, not_or, and_assoc]
  · refine h.freePage_iff.mpr ⟨⟨id, h'.block_subset ha hx⟩, ?_⟩
    rintro ⟨id', b, hb, hxb⟩
    by_cases hid : id' = id
    · subst hid
      exact Set.disjoint_left.mp (h'.disjoint_cons hperm hb) hx hxb
    · have hb' : b ∈ live' id' := (hother id' hid).symm ▸ hb
      exact Set.disjoint_left.mp (h'.disjoint_zones (Ne.symm hid) ha hb') hx hxb

/-- `pmm::alloc` hands out a block, or memory is exhausted. -/
theorem Memory.Sound.alloc (h : m.Sound hhdm ranges live) (hn : n ≠ 0) (tp : ZoneId) :
    Stops (fun fuel => m.alloc hhdm fuel n tp) .bug ∨
    ∃ m' id ptr, Returns (fun fuel => m.alloc hhdm fuel n tp) (m', some (id, ptr)) ∧
      m'.Sound hhdm ranges (Function.update live id ((ptr, n) :: live id)) ∧
      m.Keeps hhdm live m' ∧ ((m'.zones id).mem (tohh hhdm ptr)).prev = none ∧
      fromhh hhdm (tohh hhdm ptr) = ptr := by
  have hif : ∀ fuel, m.alloc hhdm fuel n tp =
      (m.allocIn hhdm fuel n tp.tries).map fun r => (r.1, some r.2) := fun fuel => if_neg hn
  rcases h.zones.allocIn h.aligned n tp.tries with ⟨N, hN⟩ | ⟨m', id, ptr, hret, hinv, -⟩
  · refine Or.inl ⟨N, fun fuel hfuel => ?_⟩
    have hrun := hN fuel hfuel
    dsimp only at hrun ⊢
    rw [hif, hrun]
    rfl
  · obtain ⟨hkeep, hrest⟩ := h.zones.allocIn_keeps h.aligned hret
    obtain ⟨N, hN⟩ := hret
    refine Or.inr ⟨m', id, ptr, ⟨N, fun fuel hfuel => ?_⟩, ⟨h.aligned, h.within, hinv⟩, hkeep, hrest⟩
    have hrun := hN fuel hfuel
    dsimp only at hrun ⊢
    rw [hif, hrun]
    rfl

/-- `pmm::free` takes a block back. -/
theorem Memory.Sound.free (h : m.Sound hhdm ranges live) (ha : (ptr, n) ∈ live id) :
    ∃ m', m.free hhdm ptr n = .ok m' ∧
      m'.Sound hhdm ranges (Function.update live id ((live id).erase (ptr, n))) ∧
      m.Keeps hhdm (Function.update live id ((live id).erase (ptr, n))) m' := by
  obtain ⟨hne, hzone⟩ := zoneOf_eq (h.zones.inRange h.within ha)
  obtain ⟨-, -, -, -, h1, -⟩ := h.zones.block ha
  have hn : n ≠ 0 := by
    rintro rfl
    exact absurd h1 (Nat.not_succ_le_zero 0)
  obtain ⟨st, hst, hinv⟩ := h.zones.freeZone ha
  obtain ⟨free, hrun⟩ := h.zones id
  obtain ⟨bytes, hbytes⟩ : ∃ bytes, bytes = n * pageSize % 2 ^ 64 := ⟨_, rfl⟩
  rw [← hbytes] at hst
  obtain ⟨used, hfree⟩ : ∃ used, m.free hhdm ptr n = .ok { m.setZone id st with used := used } := by
    rw [Memory.free, if_neg (not_or.mpr ⟨hn, hne⟩), hzone]
    dsimp only
    rw [hst]
    exact ⟨_, rfl⟩
  refine ⟨_, hfree, ⟨h.aligned, h.within, hinv⟩, fun id' b hb q hq => ?_⟩
  have hperm : (live id).Perm ((ptr, n) :: (live id).erase (ptr, n)) := List.perm_cons_erase ha
  by_cases hid : id' = id
  · subst hid
    rw [Function.update_self] at hb
    have hmem : (tohh (id'.zone hhdm).hhdm ptr, n % 2 ^ 52) ∈ (m.run hhdm ranges live id').live := by
      rw [ZoneId.zone_hhdm]
      exact List.mem_map.mpr ⟨(ptr, n), ha, rfl⟩
    have hfree : Pmm.free (id'.zone hhdm) ptr (n % 2 ^ 52) (m.zones id') =
        .ok (st, bytes) := by rw [free_mod, hst]
    have hdisj := h.disjoint_cons hperm hb
    have hkeep := hrun.free_keeps hmem hfree (blockAt hhdm b) ⟨Memory.mem_liveSet.mpr
      ⟨b, hperm.mem_iff.mpr (List.mem_cons_of_mem _ hb), rfl⟩, fun heq => ?_⟩ q hq
    · rw [Zone.addr, ZoneId.zone_hhdm] at hkeep
      simp only [Memory.setZone, Function.update_self]
      exact hkeep
    · rw [ZoneId.zone_hhdm] at heq
      rw [Set.mem_singleton_iff.mp heq, Memory.run_live (ptr, n)] at hq
      exact Set.disjoint_left.mp hdisj hq (by
        rw [Set.mem_singleton_iff.mp heq, Memory.run_live (ptr, n)]
        exact hq)
  · simp only [Memory.setZone, Function.update_of_ne hid]

/-- `pmm::free` makes the pages of the block free. -/
theorem Memory.Sound.release (h : m.Sound hhdm ranges live) (ha : (ptr, n) ∈ live id) :
    ∃ m', m.free hhdm ptr n = .ok m' ∧
      m'.Sound hhdm ranges (Function.update live id ((live id).erase (ptr, n))) ∧
      ∀ x, m'.FreePage hhdm x ↔ m.FreePage hhdm x ∨ x ∈ (blockAt hhdm (ptr, n)).pages := by
  obtain ⟨m', hfree, h', -⟩ := h.free ha
  have hperm : (live id).Perm
      ((ptr, n) :: Function.update live id ((live id).erase (ptr, n)) id) := by
    rw [Function.update_self]
    exact List.perm_cons_erase ha
  refine ⟨m', hfree, h', fun x => ?_⟩
  obtain ⟨hiff, hback⟩ := h'.exchange h (fun id' hne => (Function.update_of_ne hne _ _).symm) hperm x
  rw [hiff]
  by_cases hx : x ∈ (blockAt hhdm (ptr, n)).pages
  · exact ⟨fun _ => Or.inr hx, fun _ => hback hx⟩
  · exact ⟨fun hfree => Or.inl ⟨hfree, hx⟩, fun hfree => (hfree.resolve_right hx).1⟩

/-- `pmm::free` of a single page of a larger block does not return. -/
theorem Memory.Sound.free_one (h : m.Sound hhdm ranges live) (ha : a ∈ live id)
    (hne : orderFor a.2 ≠ 0) {x : ℕ} (hx : x ∈ (blockAt hhdm a).pages)
    (hptr : fromhh hhdm ptr = x * pageSize) : m.free hhdm ptr 1 = .error .bug := by
  obtain ⟨hlo, hhi⟩ := h.page_mem (h.block_subset ha hx)
  have hin : (id.zone hhdm).inRange ptr = true := by
    rw [Zone.inRange, ZoneId.zone_hhdm, hptr, Bool.and_eq_true, decide_eq_true_eq, decide_eq_true_eq]
    exact ⟨hlo, hhi⟩
  obtain ⟨hptr0, hzone⟩ := zoneOf_eq hin
  obtain ⟨free, hinv⟩ := h.zones id
  have hU : blockAt hhdm a ∈ (id.zone hhdm).liveSet (m.run hhdm ranges live id) :=
    Memory.mem_liveSet.mpr ⟨a, ha, rfl⟩
  have hdb := hinv.inv.db
  -- the first page of the block has another order, and the others are not allocated
  have hpage : ((m.zones id).pfndb x).allocated = false ∨ ((m.zones id).pfndb x).order ≠ 0 := by
    by_cases hall : ((m.zones id).pfndb x).allocated = true
    · obtain ⟨b, hb, hbx⟩ := (hdb.allocated_iff x).mp hall
      obtain rfl := hdb.base_of_mem (Or.inr hb) (Or.inr hU) (hbx ▸ hx)
      have horder := hdb.order_eq _ (Or.inr hb)
      rw [hbx] at horder
      exact Or.inr fun hzero => hne (horder.symm.trans hzero)
    · exact Or.inl (Bool.eq_false_iff.mpr hall)
  have hidx : (id.zone hhdm).pageFor ptr = x := by
    rw [Zone.pageFor, ZoneId.zone_hhdm, hptr, Nat.mul_div_cancel _ (by decide : 0 < pageSize)]
  have hsize : nextOrderFrom (1 * pageSize % 2 ^ 64) = 0 := by decide
  have hfree : Pmm.free (id.zone hhdm) ptr 1 (m.zones id) = .error .bug := by
    rw [Pmm.free, hsize, if_neg (by decide), freeOrder, hidx]
    rcases hpage with hpage | hpage
    · rw [hpage]
      rfl
    · cases ((m.zones id).pfndb x).allocated with
      | false => rfl
      | true =>
          have hbne : (((m.zones id).pfndb x).order != (0 : ℤ).toNat) = true := bne_iff_ne.mpr hpage
          rw [hbne]
          rfl
  rw [Memory.free, if_neg (not_or.mpr ⟨Nat.one_ne_zero, hptr0⟩), hzone]
  dsimp only
  rw [hfree]

/-- In every run of the memory manager its state is sound. -/
theorem Ledger.sound_of_reachable {m₀ : Memory} (hready : m₀.Ready hhdm ranges) {s : Ledger}
    (h : (Ledger.system hhdm m₀).Reachable s) : s.mem.Sound hhdm ranges s.live := by
  refine h.invariant (I := fun s => s.mem.Sound hhdm ranges s.live) (fun s hs => ?_) ?_
  · cases hs
    refine ⟨hready.aligned, fun id => ranges_within (hready.zones id), fun id => ?_⟩
    have haligned : (id.zone hhdm).Aligned := by
      rw [Zone.Aligned, ZoneId.zone_hhdm]
      exact hready.aligned
    obtain ⟨free, hinv, -⟩ := reachable_runInv haligned (hready.zones id)
    exact ⟨free, hinv⟩
  · rintro s l s' - hs hstep
    cases l with
    | alloc npages tp =>
        obtain ⟨hpos, m, id, ptr, hret, rfl⟩ := hstep
        rcases hs.alloc (Nat.one_le_iff_ne_zero.mp hpos) tp with hstop | ⟨m', id', ptr', hret', hs', -⟩
        · exact absurd hstop hret.not_stops
        · obtain ⟨rfl, hsome⟩ := Prod.mk.inj (hret.unique hret')
          obtain ⟨rfl, rfl⟩ := Prod.mk.inj (Option.some.inj hsome)
          exact hs'
    | free ptr npages =>
        obtain ⟨id, m, hmem, hfree, rfl⟩ := hstep
        obtain ⟨m', hfree', hs', -⟩ := hs.free hmem
        obtain rfl := Except.ok.inj (hfree.symm.trans hfree')
        exact hs'
    | touch addr node =>
        obtain ⟨id, a, ha, hpage, rfl⟩ := hstep
        exact ⟨hs.aligned, hs.within, hs.zones.touch ha hpage node⟩

end Sound

/-! ## Writes of the owners -/

/-- The `list` object at an address of the direct map: the first words of a page. -/
def Memory.node (hhdm : ℕ) (m : Memory) (addr : ℕ) : Node :=
  match zoneOf hhdm addr with
  | some id => (m.zones id).mem addr
  | none => ⟨none, none⟩

def Memory.setNode (hhdm : ℕ) (m : Memory) (addr : ℕ) (node : Node) : Memory :=
  match zoneOf hhdm addr with
  | some id => m.setZone id ((m.zones id).setNode addr node)
  | none => m

/-- The first words of the pages in `[addr, addr + bytes)` are cleared. -/
def Memory.clear (m : Memory) (addr bytes : ℕ) : Memory :=
  { m with zones := fun id => { m.zones id with
      mem := fun a => if addr ≤ a ∧ a < addr + bytes then ⟨none, none⟩ else (m.zones id).mem a } }

section Owners

variable {hhdm q q' : ℕ} {ranges live live' : ZoneId → List (ℕ × ℕ)} {m m' : Memory} {id : ZoneId}
  {a : ℕ × ℕ}

/-- The address of a page of a block is in the range of its zone. -/
theorem Memory.Sound.zoneOf_page (h : m.Sound hhdm ranges live) (ha : a ∈ live id)
    (hq : q ∈ (blockAt hhdm a).pages) : zoneOf hhdm (q * pageSize + hhdm) = some id := by
  obtain ⟨hlo, hhi⟩ := h.page_mem (h.block_subset ha hq)
  refine (zoneOf_eq ?_).2
  rw [Zone.inRange, ZoneId.zone_hhdm, fromhh_add, Bool.and_eq_true, decide_eq_true_eq,
    decide_eq_true_eq]
  exact ⟨hlo, hhi⟩

theorem Memory.Sound.node_page (h : m.Sound hhdm ranges live) (ha : a ∈ live id)
    (hq : q ∈ (blockAt hhdm a).pages) :
    m.node hhdm (q * pageSize + hhdm) = (m.zones id).mem (q * pageSize + hhdm) := by
  rw [Memory.node, h.zoneOf_page ha hq]

/-- The block of an allocation lies in the window of its zone. -/
theorem Memory.Sound.fits (h : m.Sound hhdm ranges live) (ha : a ∈ live id) :
    (id.zone hhdm).Fits (blockAt hhdm a) := by
  obtain ⟨p, haddr, hfits, -⟩ := h.zones.block ha
  rw [Zone.addr, ZoneId.zone_hhdm] at haddr
  rwa [blockAt, haddr, fromhh_add, Nat.mul_div_cancel _ (by decide : 0 < pageSize)]

/-- The direct map address of an allocation is that of the first page of its block. -/
theorem Memory.Sound.tohh_eq (h : m.Sound hhdm ranges live) (ha : a ∈ live id) :
    tohh hhdm a.1 = (blockAt hhdm a).base * pageSize + hhdm := by
  obtain ⟨p, haddr, -⟩ := h.zones.block ha
  rw [Zone.addr, ZoneId.zone_hhdm] at haddr
  rw [blockAt, haddr, fromhh_add, Nat.mul_div_cancel _ (by decide : 0 < pageSize)]

theorem Memory.Sound.mem_pages (h : m.Sound hhdm ranges live) (ha : a ∈ live id) :
    q ∈ (blockAt hhdm a).pages ↔ tohh hhdm a.1 ≤ q * pageSize + hhdm ∧
      q * pageSize + hhdm < tohh hhdm a.1 + 2 ^ orderFor a.2 * pageSize := by
  rw [h.tohh_eq ha, Block.mem_pages, blockAt_order]
  simp only [pageSize]
  omega

/-- A kept block has the first words that it had. -/
theorem Memory.Keeps.node (hkeep : m.Keeps hhdm live m') (h : m.Sound hhdm ranges live)
    (ha : a ∈ live id) (hq : q ∈ (blockAt hhdm a).pages) :
    m'.node hhdm (q * pageSize + hhdm) = m.node hhdm (q * pageSize + hhdm) := by
  rw [Memory.node, Memory.node, h.zoneOf_page ha hq]
  exact hkeep id a ha q hq

theorem Memory.setNode_node {addr addr' : ℕ} {node : Node} (h : zoneOf hhdm addr = some id) :
    (m.setNode hhdm addr node).node hhdm addr' = if addr' = addr then node else m.node hhdm addr' := by
  rw [Memory.setNode, h, Memory.node]
  split
  · rename_i id' hid'
    by_cases heq : addr' = addr
    · subst heq
      obtain rfl := Option.some.inj (h.symm.trans hid')
      rw [if_pos rfl]
      simp [Memory.setZone, State.setNode]
    · rw [if_neg heq, Memory.node, hid']
      by_cases hid : id' = id
      · subst hid
        simp [Memory.setZone, State.setNode, heq]
      · simp [Memory.setZone, hid]
  · rename_i hnone
    rw [if_neg, Memory.node, hnone]
    rintro rfl
    rw [h] at hnone
    cases hnone

/-- A write to a page that is not handed out. -/
theorem Memory.Keeps.setNode (h : m.Keeps hhdm live m') (hq : ¬ Handed hhdm live q) (node : Node) :
    m.Keeps hhdm live (m'.setNode hhdm (q * pageSize + hhdm) node) := by
  intro id a ha q' hq'
  have hne : q' * pageSize + hhdm ≠ q * pageSize + hhdm := by
    intro heq
    have hqq : q' = q := by
      simp only [pageSize] at heq
      omega
    exact hq ⟨id, a, ha, hqq ▸ hq'⟩
  rw [← h id a ha q' hq', Memory.setNode]
  split
  · rename_i id' _
    by_cases hid : id = id'
    · subst hid
      simp only [Memory.setZone, State.setNode, Function.update_self, Function.update_of_ne hne]
    · simp only [Memory.setZone, Function.update_of_ne hid]
  · rfl

theorem Memory.Keeps.clear (h : m.Keeps hhdm live m') {addr bytes : ℕ}
    (hout : ∀ q, addr ≤ q * pageSize + hhdm → q * pageSize + hhdm < addr + bytes →
      ¬ Handed hhdm live q) : m.Keeps hhdm live (m'.clear addr bytes) := by
  intro id a ha q hq
  rw [← h id a ha q hq]
  exact if_neg fun hin => hout q hin.1 hin.2 ⟨id, a, ha, hq⟩

/-- The owner of a block writes to the first words of one of its pages. -/
theorem Memory.Sound.setNode (h : m.Sound hhdm ranges live) (ha : a ∈ live id)
    (hq : q ∈ (blockAt hhdm a).pages) (node : Node) :
    (m.setNode hhdm (q * pageSize + hhdm) node).Sound hhdm ranges live := by
  rw [Memory.setNode, h.zoneOf_page ha hq]
  refine ⟨h.aligned, h.within, h.zones.touch ha ?_ node⟩
  rw [Zone.blockOf, Zone.pageFor, Zone.pageFor, ZoneId.zone_hhdm, fromhh_add,
    Nat.mul_div_cancel _ (by decide : 0 < pageSize)]
  exact hq

theorem Memory.Sound.clear (h : m.Sound hhdm ranges live) (ha : a ∈ live id) {addr bytes : ℕ}
    (hpages : ∀ q, addr ≤ q * pageSize + hhdm → q * pageSize + hhdm < addr + bytes →
      q ∈ (blockAt hhdm a).pages) :
    (m.clear addr bytes).Sound hhdm ranges live := by
  refine ⟨h.aligned, h.within, fun id' => ?_⟩
  obtain ⟨free, hinv⟩ := h.zones id'
  refine ⟨free, ⟨hinv.inv.rewrite fun k p hp => ?_, hinv.live_nodup, hinv.live_addr, hinv.ranges⟩⟩
  rw [Zone.addr, ZoneId.zone_hhdm, if_neg]
  · rfl
  -- a free block of any zone is none of the pages of the block
  · rintro ⟨hlo, hhi⟩
    have hpa := hpages p hlo hhi
    have hfree : m.FreePage hhdm p := by
      refine ⟨id', ?_⟩
      refine hinv.inv.freePage_iff.mpr ⟨?_, fun b hb hpb => hinv.inv.not_free hb hpb k hp⟩
      rw [← hinv.inv.db.cover]
      exact Set.mem_biUnion (Or.inl (show (⟨p, k⟩ : Block) ∈ freeSet free from hp))
        (Block.base_mem_pages _)
    exact (h.freePage_iff.mp hfree).2 ⟨id, a, ha, hpa⟩

/-- `pmm::free` takes a physical or a direct map address. -/
theorem Memory.Sound.free_tohh (h : m.Sound hhdm ranges live) {ptr n : ℕ} (ha : (ptr, n) ∈ live id)
    (hphys : fromhh hhdm (tohh hhdm ptr) = ptr) :
    m.free hhdm (tohh hhdm ptr) n = m.free hhdm ptr n := by
  have hne := (zoneOf_eq (h.zones.inRange h.within ha)).1
  obtain ⟨hlt, -, -⟩ := (h.fits ha).bounds
  have haddr := h.tohh_eq ha
  rw [ZoneId.zone_hhdm] at hlt
  dsimp only at haddr hne
  have hbase : ptr = (blockAt hhdm (ptr, n)).base * pageSize := by
    rw [haddr, fromhh_add] at hphys
    exact hphys.symm
  have hfrom : fromhh hhdm ptr = ptr := by
    rw [fromhh, ishh, if_pos]
    simpa using hbase ▸ hlt
  have htwice : tohh hhdm (tohh hhdm ptr) = tohh hhdm ptr := by rw [haddr, tohh_add]
  have hne' : tohh hhdm ptr ≠ 0 := by omega
  have hzone : zoneOf hhdm (tohh hhdm ptr) = zoneOf hhdm ptr := by
    simp only [zoneOf, Zone.inRange, ZoneId.zone_hhdm, hphys, hfrom]
  have hfree : ∀ (id' : ZoneId) (st : State),
      Pmm.free (id'.zone hhdm) (tohh hhdm ptr) n st = Pmm.free (id'.zone hhdm) ptr n st := by
    intro id' st
    simp only [Pmm.free, freeOrder, Zone.pageFor, ZoneId.zone_hhdm, hphys, hfrom, htwice]
  simp only [Memory.free, hne, hne', hzone, hfree]

theorem Memory.clear_node (m : Memory) (addr bytes addr' : ℕ) :
    (m.clear addr bytes).node hhdm addr' =
      if addr ≤ addr' ∧ addr' < addr + bytes then ⟨none, none⟩ else m.node hhdm addr' := by
  rw [Memory.node, Memory.node]
  cases zoneOf hhdm addr' with
  | none => exact (ite_self _).symm
  | some id => rfl

end Owners

/-! ## Taking blocks one by one -/

/-- From `m` on, the blocks `l` have been handed out one after the other, and nothing has been given
back. -/
structure Memory.Takes (hhdm : ℕ) (ranges live live' : ZoneId → List (ℕ × ℕ)) (m m' : Memory)
    (l : List (ℕ × ℕ)) : Prop where
  sound : m'.Sound hhdm ranges live'
  stays : ∀ id, ∀ a ∈ live id, a ∈ live' id
  held : ∀ a ∈ l, ∃ id, a ∈ live' id
  keeps : m.Keeps hhdm live m'
  free : ∀ x, m'.FreePage hhdm x ↔ m.FreePage hhdm x ∧ ∀ a ∈ l, x ∉ (blockAt hhdm a).pages
  was : ∀ a ∈ l, ∀ x ∈ (blockAt hhdm a).pages, m.FreePage hhdm x
  disjoint : l.Pairwise fun a b => Disjoint (blockAt hhdm a).pages (blockAt hhdm b).pages
  phys : ∀ a ∈ l, fromhh hhdm (tohh hhdm a.1) = a.1
  count : livePages live' = livePages live + pagesOf l

section Takes

variable {hhdm n : ℕ} {ranges live live' live'' : ZoneId → List (ℕ × ℕ)} {m m' m'' : Memory}
  {l l' : List (ℕ × ℕ)}

theorem Memory.Takes.refl (h : m.Sound hhdm ranges live) : m.Takes hhdm ranges live live m [] where
  sound := h
  stays _ _ := id
  held a ha := by cases ha
  keeps := .refl hhdm live m
  free x := by simp
  was a ha := by cases ha
  disjoint := .nil
  phys a ha := by cases ha
  count := rfl

theorem pagesOf_append (l l' : List (ℕ × ℕ)) : pagesOf (l ++ l') = pagesOf l + pagesOf l' := by
  rw [pagesOf, List.map_append, List.sum_append, pagesOf, pagesOf]

theorem pagesOf_sublist {l l' : List (ℕ × ℕ)} (h : l.Sublist l') : pagesOf l ≤ pagesOf l' := by
  induction h with
  | slnil => exact le_rfl
  | cons a _ ih =>
      rw [pagesOf_cons]
      exact ih.trans (Nat.le_add_left _ _)
  | cons_cons a _ ih =>
      rw [pagesOf_cons, pagesOf_cons]
      exact Nat.add_le_add_left ih _

theorem Memory.Takes.trans (h : m.Takes hhdm ranges live live' m' l)
    (h' : m'.Takes hhdm ranges live' live'' m'' l') :
    m.Takes hhdm ranges live live'' m'' (l ++ l') where
  sound := h'.sound
  stays id a ha := h'.stays id a (h.stays id a ha)
  held a ha := by
    rcases List.mem_append.mp ha with ha | ha
    · obtain ⟨id, hid⟩ := h.held a ha
      exact ⟨id, h'.stays id a hid⟩
    · exact h'.held a ha
  keeps := h.keeps.trans (h'.keeps.mono h.stays)
  free x := by rw [h'.free, h.free, and_assoc, List.forall_mem_append]
  was a ha x hx := by
    rcases List.mem_append.mp ha with ha | ha
    · exact h.was a ha x hx
    · exact ((h.free x).mp (h'.was a ha x hx)).1
  disjoint := by
    refine List.pairwise_append.mpr ⟨h.disjoint, h'.disjoint, fun a ha b hb => ?_⟩
    exact Set.disjoint_left.mpr fun x hxa hxb => ((h.free x).mp (h'.was b hb x hxb)).2 a ha hxa
  phys a ha := (List.mem_append.mp ha).elim (h.phys a) (h'.phys a)
  count := by rw [h'.count, h.count, pagesOf_append, Nat.add_assoc]

/-- The owners have written to their blocks. -/
theorem Memory.Takes.write (h : m.Takes hhdm ranges live live' m' l)
    (hsound : m''.Sound hhdm ranges live') (hkeeps : m.Keeps hhdm live m'') :
    m.Takes hhdm ranges live live' m'' l :=
  ⟨hsound, h.stays, h.held, hkeeps,
    fun x => (hsound.freePage_iff.trans h.sound.freePage_iff.symm).trans (h.free x), h.was, h.disjoint,
    h.phys, h.count⟩

/-- `pmm::alloc` takes a block whose first word is null, or memory is exhausted. -/
theorem Memory.Sound.takes (h : m.Sound hhdm ranges live) (hn : n ≠ 0) (tp : ZoneId) :
    Stops (fun fuel => m.alloc hhdm fuel n tp) .bug ∨
    ∃ m' id ptr live', Returns (fun fuel => m.alloc hhdm fuel n tp) (m', some (id, ptr)) ∧
      m.Takes hhdm ranges live live' m' [(ptr, n)] ∧ (ptr, n) ∈ live' id ∧
      (m'.node hhdm (tohh hhdm ptr)).prev = none := by
  rcases h.alloc hn tp with hstop | ⟨m', id, ptr, hret, hsound, hkeeps, hnull, hphys⟩
  · exact Or.inl hstop
  have hother : ∀ id', id' ≠ id → Function.update live id ((ptr, n) :: live id) id' = live id' :=
    fun id' hne => Function.update_of_ne hne _ _
  have hself : Function.update live id ((ptr, n) :: live id) id = (ptr, n) :: live id :=
    Function.update_self _ _ _
  have hmem : (ptr, n) ∈ Function.update live id ((ptr, n) :: live id) id := by
    rw [hself]
    exact List.mem_cons_self
  have hpages := h.exchange hsound hother (List.Perm.of_eq hself)
  refine Or.inr ⟨m', id, ptr, _, hret, ⟨hsound, fun id' a ha => ?_, ?_, hkeeps, fun x => ?_, ?_, ?_,
    ?_, ?_⟩, hmem, ?_⟩
  · by_cases hid : id' = id
    · subst hid
      rw [hself]
      exact List.mem_cons_of_mem _ ha
    · rwa [hother id' hid]
  · exact fun a ha => ⟨id, (List.mem_singleton.mp ha).symm ▸ hmem⟩
  · rw [(hpages x).1, List.forall_mem_singleton]
  · exact fun a ha x hx => (hpages x).2 (List.mem_singleton.mp ha ▸ hx)
  · exact List.pairwise_singleton _ _
  · exact fun a ha => List.mem_singleton.mp ha ▸ hphys
  · have hcount := livePages_update live id ((ptr, n) :: live id)
    rw [pagesOf_cons] at hcount
    rw [pagesOf_cons]
    simp only [pagesOf, List.map_nil, List.sum_nil] at hcount ⊢
    omega
  · -- the address is the one of the first page of the block
    obtain ⟨p, haddr, -⟩ := hsound.zones.block hmem
    rw [Zone.addr, ZoneId.zone_hhdm] at haddr
    have hp : p ∈ (blockAt hhdm (ptr, n)).pages := by
      have hbase : (blockAt hhdm (ptr, n)).base = p := by
        rw [blockAt, haddr, fromhh_add, Nat.mul_div_cancel _ (by decide : 0 < pageSize)]
      exact hbase ▸ Block.base_mem_pages _
    have hnode := hsound.node_page hmem hp
    dsimp only at haddr
    rw [← haddr] at hnode
    rw [hnode, hnull]

/-- A block taken was free before. -/
theorem Memory.Takes.not_handed (h : m.Takes hhdm ranges live live' m' l) (h₀ : m.Sound hhdm ranges live)
    {a : ℕ × ℕ} (ha : a ∈ l) {x : ℕ} (hx : x ∈ (blockAt hhdm a).pages) : ¬ Handed hhdm live x :=
  (h₀.freePage_iff.mp (h.was a ha x hx)).2

/-- A write to the first words of a page of a block taken. -/
theorem Memory.Takes.setNode (h : m.Takes hhdm ranges live live' m' l) (h₀ : m.Sound hhdm ranges live)
    {a : ℕ × ℕ} (ha : a ∈ l) {q : ℕ} (hq : q ∈ (blockAt hhdm a).pages) (node : Node) :
    m.Takes hhdm ranges live live' (m'.setNode hhdm (q * pageSize + hhdm) node) l := by
  obtain ⟨id, hid⟩ := h.held a ha
  exact h.write (h.sound.setNode hid hq node) (h.keeps.setNode (h.not_handed h₀ ha hq) node)

/-- A block taken is cleared. -/
theorem Memory.Takes.clear (h : m.Takes hhdm ranges live live' m' l) (h₀ : m.Sound hhdm ranges live)
    {a : ℕ × ℕ} (ha : a ∈ l) :
    m.Takes hhdm ranges live live' (m'.clear (tohh hhdm a.1) (2 ^ orderFor a.2 * pageSize)) l := by
  obtain ⟨id, hid⟩ := h.held a ha
  have hpages : ∀ q, tohh hhdm a.1 ≤ q * pageSize + hhdm →
      q * pageSize + hhdm < tohh hhdm a.1 + 2 ^ orderFor a.2 * pageSize →
      q ∈ (blockAt hhdm a).pages := fun q hlo hhi => (h.sound.mem_pages hid).mpr ⟨hlo, hhi⟩
  exact h.write (h.sound.clear hid hpages)
    (h.keeps.clear fun q hlo hhi => h.not_handed h₀ ha (hpages q hlo hhi))

end Takes

/-! ## Blocks in a chain -/

/-- The blocks `l` have been taken, and those of `n` pages at `blocks` are linked through their first
words. -/
structure Memory.Chain (hhdm n : ℕ) (ranges live live' : ZoneId → List (ℕ × ℕ)) (m m' : Memory)
    (l : List (ℕ × ℕ)) (blocks : List ℕ) : Prop where
  takes : m.Takes hhdm ranges live live' m' l
  sub : (blocks.map (·, n)).Sublist l
  chained : Chained (fun a => (m'.node hhdm a).prev) (blocks.map (tohh hhdm))

section Chain

variable {hhdm n : ℕ} {ranges live live' live'' : ZoneId → List (ℕ × ℕ)} {m m' m'' : Memory}
  {l l' : List (ℕ × ℕ)} {blocks : List ℕ} {b : ℕ}

theorem Memory.Chain.mem (h : m.Chain hhdm n ranges live live' m' l blocks) (hb : b ∈ blocks) :
    (b, n) ∈ l := h.sub.subset (List.mem_map_of_mem hb)

/-- A block of the chain is at the address of its first page. -/
theorem Memory.Chain.first (h : m.Chain hhdm n ranges live live' m' l blocks) (hb : b ∈ blocks) :
    ∃ id, (b, n) ∈ live' id ∧ tohh hhdm b = (blockAt hhdm (b, n)).base * pageSize + hhdm := by
  obtain ⟨id, hid⟩ := h.takes.held _ (h.mem hb)
  exact ⟨id, hid, h.takes.sound.tohh_eq hid⟩

theorem Memory.Chain.disjoint (h : m.Chain hhdm n ranges live live' m' l blocks) :
    blocks.Pairwise fun b c => Disjoint (blockAt hhdm (b, n)).pages (blockAt hhdm (c, n)).pages := by
  have hsub := h.takes.disjoint.sublist h.sub
  rwa [List.pairwise_map] at hsub

/-- The blocks of a chain have different addresses. -/
theorem Memory.Chain.nodup (h : m.Chain hhdm n ranges live live' m' l blocks) :
    (blocks.map (tohh hhdm)).Nodup := by
  refine List.pairwise_map.mpr (h.disjoint.imp_of_mem fun {b c} hb hc hdisj heq => ?_)
  obtain ⟨-, -, hfirst⟩ := h.first hb
  obtain ⟨-, -, hfirst'⟩ := h.first hc
  have hbase : (blockAt hhdm (b, n)).base = (blockAt hhdm (c, n)).base := by
    rw [hfirst, hfirst'] at heq
    simp only [pageSize] at heq
    omega
  exact Set.disjoint_left.mp hdisj (Block.base_mem_pages _) (hbase ▸ Block.base_mem_pages _)

/-- More blocks are taken. -/
theorem Memory.Chain.more (h : m.Chain hhdm n ranges live live' m' l blocks)
    (h' : m'.Takes hhdm ranges live' live'' m'' l') :
    m.Chain hhdm n ranges live live'' m'' (l ++ l') blocks := by
  refine ⟨h.takes.trans h', h.sub.trans (List.sublist_append_left l l'), h.chained.congr ?_⟩
  intro a ha
  obtain ⟨b, hb, rfl⟩ := List.mem_map.mp ha
  obtain ⟨id, hid, hfirst⟩ := h.first hb
  rw [hfirst, h'.keeps.node h.takes.sound hid (Block.base_mem_pages _)]

/-- A new block is linked to the last one. -/
theorem Memory.Chain.link (h₀ : m.Sound hhdm ranges live)
    (h : m.Chain hhdm n ranges live live' m' l (blocks ++ [b])) {ptr : ℕ}
    (h' : m'.Takes hhdm ranges live' live'' m'' [(ptr, n)])
    (hnull : (m''.node hhdm (tohh hhdm ptr)).prev = none) :
    m.Chain hhdm n ranges live live'' (m''.setNode hhdm (tohh hhdm b)
      { m''.node hhdm (tohh hhdm b) with prev := some (tohh hhdm ptr) }) (l ++ [(ptr, n)])
      ((blocks ++ [b]) ++ [ptr]) := by
  have hmore := h.more h'
  have hbmem : b ∈ blocks ++ [b] := List.mem_append_right _ (List.mem_singleton_self b)
  obtain ⟨id, hid, hfirst⟩ := hmore.first hbmem
  have hsub : (((blocks ++ [b]) ++ [ptr]).map (·, n)).Sublist (l ++ [(ptr, n)]) := by
    rw [List.map_append]
    exact h.sub.append_right _
  obtain ⟨node, hnode⟩ : ∃ node, node = { m''.node hhdm (tohh hhdm b) with
      prev := some (tohh hhdm ptr) } := ⟨_, rfl⟩
  have hnext : node.prev = some (tohh hhdm ptr) := by rw [hnode]
  rw [← hnode]
  have htakes : m.Takes hhdm ranges live live'' (m''.setNode hhdm (tohh hhdm b) node)
      (l ++ [(ptr, n)]) := by
    rw [hfirst]
    exact hmore.takes.setNode h₀ (hmore.mem hbmem) (Block.base_mem_pages _) node
  -- the write goes to the last block of the chain so far
  have hwrite : ∀ a, (m''.setNode hhdm (tohh hhdm b) node).node hhdm a =
      if a = tohh hhdm b then node else m''.node hhdm a := by
    intro a
    have hzone : zoneOf hhdm (tohh hhdm b) = some id := by
      rw [hfirst]
      exact hmore.takes.sound.zoneOf_page hid (Block.base_mem_pages _)
    exact setNode_node hzone
  have hnodup := hmore.nodup
  rw [List.map_append, List.map_singleton] at hnodup
  refine ⟨htakes, hsub, ?_⟩
  have hchain := hmore.chained
  rw [List.map_append, List.map_singleton] at hchain
  rw [List.map_append, List.map_append, List.map_singleton, List.map_singleton]
  refine hchain.concat (fun c hc => ?_) ?_ ?_
  · have hne : c ≠ tohh hhdm b := fun heq =>
      List.disjoint_of_nodup_append hnodup hc (heq ▸ List.mem_singleton_self _)
    rw [hwrite, if_neg hne]
  · rw [hwrite, if_pos rfl, hnext]
  · have hne : tohh hhdm ptr ≠ tohh hhdm b := by
      intro heq
      have hptr : (ptr, n) ∈ [(ptr, n)] := List.mem_singleton_self _
      obtain ⟨id', hid'⟩ := h'.held _ hptr
      have hbase : (blockAt hhdm (ptr, n)).base = (blockAt hhdm (b, n)).base := by
        rw [h'.sound.tohh_eq hid', hfirst] at heq
        simp only [pageSize] at heq
        omega
      obtain ⟨id'', hid'', -⟩ := h.first hbmem
      refine h'.not_handed h.takes.sound hptr (Block.base_mem_pages _) ⟨id'', _, hid'', ?_⟩
      rw [hbase]
      exact Block.base_mem_pages _
    rw [hwrite, if_neg hne, hnull]

/-- A chain is no longer than memory. -/
theorem Memory.Chain.length_le (h : m.Chain hhdm n ranges live live' m' l blocks) :
    blocks.length * 2 ^ orderFor n ≤ 3 * 2 ^ 36 := by
  have hblocks : pagesOf (blocks.map (·, n)) = blocks.length * 2 ^ orderFor n := by
    simp [pagesOf, Function.comp_def]
  calc blocks.length * 2 ^ orderFor n = pagesOf (blocks.map (·, n)) := hblocks.symm
    _ ≤ pagesOf l := pagesOf_sublist h.sub
    _ ≤ livePages live' := by
        rw [h.takes.count]
        exact Nat.le_add_left _ _
    _ ≤ 3 * 2 ^ 36 := h.takes.sound.zones.livePages_le

end Chain

end Ilobilix.Pmm
