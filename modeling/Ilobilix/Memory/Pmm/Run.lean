import Ilobilix.Foundation.Transition
import Ilobilix.Memory.Pmm.Operations

/-!
# Runs of the buddy allocator

A run interleaves `add_range`, `alloc` and `free` with writes of the owners of allocated blocks to
their own memory, which may leave anything where the allocator keeps its `list` objects. Next to the
allocator's state it records the ranges added and the allocations that have not been freed.

`allocator_consistent` is the main result: in every reachable state the free lists are well formed,
the free and the allocated blocks are disjoint and cover exactly the pages added, and every further
operation returns. It is about ranges in the `window` of the zone. Beyond it the allocator breaks, as
`allocator_overlap` shows: a physical address of more than 48 bits does not fit into `next_paddr`.
-/

namespace Ilobilix.Pmm

open Lib

/-- An allocator with the ranges added so far, as `(base, size)`, and the allocations not yet freed,
as `(address, npages)`. -/
structure Run where
  st : State
  ranges : List (ℕ × ℕ)
  live : List (ℕ × ℕ)

/-- The operations of a run. `touch` is a write of the owner of an allocated block. -/
inductive Op
  | addRange (base size : ℕ)
  | alloc (npages : ℕ)
  | free (ptr npages : ℕ)
  | touch (addr : ℕ) (n : Node)

/-- The pages added so far. -/
def Run.pages (r : Run) : Set ℕ :=
  {x | ∃ rg ∈ r.ranges, rg.1 / pageSize ≤ x ∧ x < (rg.1 + rg.2) / pageSize}

/-- The block an allocation holds. -/
def Zone.blockOf (z : Zone) (a : ℕ × ℕ) : Block := ⟨z.pageFor a.1, orderFor a.2⟩

/-- The blocks of the allocations that have not been freed. -/
def Zone.liveSet (z : Zone) (r : Run) : Set Block := {b | ∃ a ∈ r.live, z.blockOf a = b}

/-- The blocks that `add_range` inserted for a range. -/
def Zone.blocksOf (z : Zone) (rg : ℕ × ℕ) : List Block :=
  if rg.1 < z.start ∨ z.stop < (rg.1 + rg.2) % 2 ^ 64 then []
  else addRangeBlocks z (rg.2 / pageSize) (tohh z.hhdm rg.1) rg.2

def Zone.inserted (z : Zone) (r : Run) : Set Block := {b | ∃ rg ∈ r.ranges, b ∈ z.blocksOf rg}

/-- Calls within the contract: page-aligned ranges inside the zone that end at or below `lim` and are
disjoint from the earlier ones, sizes up to `2 ^ 51` pages, and `free` with the pointer (physical or
direct map) and the size of an earlier `alloc`. -/
def Zone.Allowed (z : Zone) (lim : ℕ) (r : Run) : Op → Prop
  | .addRange base size => pageSize ∣ base ∧ pageSize ∣ size ∧ z.start ≤ base ∧
      base + size ≤ z.stop ∧ base + size ≤ lim ∧
      ∀ rg ∈ r.ranges, base + size ≤ rg.1 ∨ rg.1 + rg.2 ≤ base
  | .alloc n => 1 ≤ n ∧ n ≤ 2 ^ 51
  | .free ptr n => (tohh z.hhdm ptr, n) ∈ r.live
  | .touch addr _ => ∃ a ∈ r.live, z.pageFor addr ∈ (z.blockOf a).pages

/-- What each operation does. A call that runs into a `bug_on` or does not return has no step. -/
def Zone.Step (z : Zone) (r : Run) : Op → Run → Prop
  | .addRange base size, r' =>
      r' = { r with st := (addRange z base size r.st).1, ranges := (base, size) :: r.ranges }
  | .alloc n, r' => ∃ st' ret bytes, Returns (fun fuel => alloc z fuel n r.st) (st', ret, bytes) ∧
      r' = { r with st := st', live := (ret.map fun a => (a, n)).toList ++ r.live }
  | .free ptr n, r' => ∃ st' bytes, Pmm.free z ptr n r.st = .ok (st', bytes) ∧
      r' = { r with st := st', live := r.live.erase (tohh z.hhdm ptr, n) }
  | .touch addr n, r' => r' = { r with st := r.st.setNode addr n }

/-- The runs of a zone over a zeroed page database whose ranges end at or below `lim`. -/
def Zone.system (z : Zone) (lim : ℕ) : TransitionSystem Run Op where
  init r := r.st.lists = (fun _ => none) ∧ r.st.pfndb = (fun _ => ⟨0, 0, false⟩) ∧
    r.ranges = [] ∧ r.live = []
  step r op r' := z.Allowed lim r op ∧ z.Step r op r'

/-- The state of a run is consistent for the lists `free` of free block bases. -/
structure Consistent (z : Zone) (r : Run) (free : ℕ → List ℕ) : Prop where
  /-- the links from `lists[k]` on spell out `free k`, without a repetition -/
  lists : FreeLists z r.st free
  /-- a node of `lists[k]` is the base of an aligned block with the right page entry -/
  node : ∀ k, ∀ p ∈ free k, k ≤ maxOrder ∧ 2 ^ k ∣ p ∧ (r.st.pfndb p).order = k ∧
    (r.st.pfndb p).allocated = false
  /-- free blocks and allocations do not overlap -/
  disjoint : (freeSet free ∪ z.liveSet r).PairwiseDisjoint Block.pages
  separate : Disjoint (freeSet free) (z.liveSet r)
  /-- and neither do two allocations -/
  live_nodup : (r.live.map z.blockOf).Nodup
  /-- no page is lost or made up -/
  cover : ⋃ b ∈ freeSet free ∪ z.liveSet r, b.pages = r.pages

/-- The invariant of a run: the allocator's invariant for the allocations recorded. -/
structure RunInv (z : Zone) (r : Run) (free : ℕ → List ℕ) : Prop where
  inv : Inv z r.st free (z.liveSet r) r.pages
  live_nodup : (r.live.map z.blockOf).Nodup
  live_addr : ∀ a ∈ r.live, 1 ≤ a.2 ∧ a.2 ≤ 2 ^ 51 ∧ a.1 = z.addr (z.pageFor a.1)
  ranges : ∀ rg ∈ r.ranges, pageSize ∣ rg.1 ∧ pageSize ∣ rg.2

/-- The blocks of a run are pieces of the blocks that `add_range` inserted. -/
def Zone.Chained (z : Zone) (r : Run) (free : ℕ → List ℕ) : Prop :=
  Pieces r.st.pfndb (freeSet free ∪ z.liveSet r) (z.inserted r) r.pages

theorem RunInv.consistent {z : Zone} {r : Run} {free : ℕ → List ℕ} (h : RunInv z r free) :
    Consistent z r free where
  lists := h.inv.lists
  node k p hp := by
    have hmem : (⟨p, k⟩ : Block) ∈ freeSet free := hp
    have hfits := h.inv.fits hmem
    exact ⟨hfits.order_le, hfits.aligned, h.inv.db.order_eq _ (Or.inl hmem),
      h.inv.db.not_allocated hmem (Block.base_mem_pages _)⟩
  disjoint := h.inv.db.disjoint
  separate := h.inv.db.separate
  live_nodup := h.live_nodup
  cover := h.inv.db.cover

theorem runInv_init {z : Zone} {r : Run} {lim : ℕ} (h : (z.system lim).init r) :
    RunInv z r (fun _ => []) ∧ z.Chained r (fun _ => []) := by
  obtain ⟨hlists, hdb, hranges, hlive⟩ := h
  have hliveSet : z.liveSet r = ∅ := by
    ext b
    simp [Zone.liveSet, hlive]
  have hpages : r.pages = ∅ := by
    ext x
    simp [Run.pages, hranges]
  have hfree : freeSet (fun _ => []) = ∅ := by
    ext b
    simp
  have hinserted : z.inserted r = ∅ := by
    ext b
    simp [Zone.inserted, hranges]
  refine ⟨⟨⟨⟨?_, ?_, ?_, ?_⟩, ?_⟩, ?_, ?_, ?_⟩, ?_⟩
  · simp [hlists]
  · exact fun _ => Linked.nil
  · simp
  · simp
  · rw [hliveSet, hpages, hfree, hdb]
    exact PageDb.initial z
  · simp [hlive]
  · simp [hlive]
  · simp [hranges]
  · rw [Zone.Chained, hliveSet, hpages, hfree, hinserted, Set.union_empty]
    exact Pieces.initial _

section Steps

variable {z : Zone} {r : Run} {free : ℕ → List ℕ}

/-- `add_range` on a range within the contract. -/
theorem RunInv.addRange (hz : z.Aligned) (h : RunInv z r free) {base size : ℕ}
    (hop : z.Allowed z.window r (.addRange base size)) :
    ∃ r' free', z.Step r (.addRange base size) r' ∧ RunInv z r' free' ∧
      (z.Chained r free → z.Chained r' free') := by
  obtain ⟨⟨p, rfl⟩, ⟨m, rfl⟩, hstart, hstop, hlim, hdisj⟩ := hop
  have hw : (p + m) * pageSize ≤ z.window := by
    rw [Nat.add_mul, Nat.mul_comm p, Nat.mul_comm m]
    exact hlim
  have hnew : Disjoint (Set.Ico p (p + m)) r.pages := by
    rw [Set.disjoint_left]
    rintro x ⟨hx1, hx2⟩ ⟨rg, hrg, hlo, hhi⟩
    obtain ⟨⟨a, ha⟩, ⟨b, hb⟩⟩ := h.ranges rg hrg
    have := hdisj rg hrg
    simp only [ha, hb, pageSize] at this hlo hhi
    omega
  -- the pages of the run with the new range
  have hpages : ∀ st', ({ r with st := st', ranges := (pageSize * p, pageSize * m) :: r.ranges } :
      Run).pages = r.pages ∪ Set.Ico p (p + m) := by
    intro st'
    ext x
    simp only [Run.pages, List.mem_cons, exists_eq_or_imp, Set.mem_ofPred_eq, Set.mem_union,
      Set.mem_Ico, ← Nat.mul_add, Nat.mul_div_cancel_left _ (by decide : 0 < pageSize)]
    exact or_comm
  have hlive : ∀ st', z.liveSet { r with
      st := st', ranges := (pageSize * p, pageSize * m) :: r.ranges } = z.liveSet r := fun _ => rfl
  have hloop : ∃ st' free', Pmm.addRange z (pageSize * p) (pageSize * m) r.st = (st', 0) ∧
      Inv z st' free' (z.liveSet r) (r.pages ∪ Set.Ico p (p + m)) ∧
      ∀ O, Pieces r.st.pfndb (freeSet free ∪ z.liveSet r) O r.pages →
        Pieces st'.pfndb (freeSet free' ∪ z.liveSet r)
          (O ∪ {b | b ∈ z.blocksOf (pageSize * p, pageSize * m)}) (r.pages ∪ Set.Ico p (p + m)) := by
    have hwin := hw
    simp only [Zone.window, paddrBits, pageSize] at hwin
    have hcheck : ¬ (pageSize * p < z.start ∨ z.stop < (pageSize * p + pageSize * m) % 2 ^ 64) := by
      simp only [pageSize] at hstart hstop ⊢
      rw [Nat.mod_eq_of_lt (by omega)]
      omega
    rw [Pmm.addRange, Zone.blocksOf, if_neg hcheck, if_neg hcheck,
      Nat.mul_div_cancel_left _ (by decide : 0 < pageSize)]
    rcases Nat.eq_zero_or_pos m with rfl | hpos
    · exact ⟨r.st, free, by simp [addRangeLoop], by simpa using h.inv, by simp [addRangeBlocks]⟩
    · have hbase : tohh z.hhdm (pageSize * p) = z.addr p := by
        rw [tohh_of_lt (by simp only [pageSize]; omega) (by simp only [pageSize]; omega), Zone.addr,
          Nat.mul_comm]
      rw [hbase, Nat.mul_comm pageSize m]
      exact addRangeLoop_spec hz h.inv le_rfl hw hnew
  obtain ⟨st', free', hadd, hinv', hpieces⟩ := hloop
  refine ⟨_, free', rfl, ⟨?_, h.live_nodup, h.live_addr, ?_⟩, fun hchained => ?_⟩
  · rw [hadd, hpages, hlive]
    exact hinv'
  · intro rg hrg
    rcases List.mem_cons.mp hrg with rfl | hrg
    · exact ⟨Dvd.intro _ rfl, Dvd.intro _ rfl⟩
    · exact h.ranges rg hrg
  · have hinserted : ∀ st', z.inserted { r with
        st := st', ranges := (pageSize * p, pageSize * m) :: r.ranges } =
          z.inserted r ∪ {b | b ∈ z.blocksOf (pageSize * p, pageSize * m)} := by
      intro st'
      ext b
      simp only [Zone.inserted, List.mem_cons, exists_eq_or_imp, Set.mem_ofPred_eq, Set.mem_union]
      exact or_comm
    rw [Zone.Chained, hadd, hpages, hlive, hinserted]
    exact hpieces _ hchained

/-- `alloc` within the contract. -/
theorem RunInv.alloc (hz : z.Aligned) (h : RunInv z r free) {n : ℕ} (h1 : 1 ≤ n)
    (h2 : n ≤ 2 ^ 51) : ∃ r' free', z.Step r (.alloc n) r' ∧ RunInv z r' free' ∧
      (z.Chained r free → z.Chained r' free') := by
  obtain ⟨st', free', ⟨hret, hinv', hreshapes, -⟩ | ⟨p, hret, hfresh, hinv', -, -, hpieces⟩⟩ :=
    alloc_spec hz h.inv h1 h2
  · exact ⟨_, free', ⟨st', none, 0, hret, rfl⟩, ⟨hinv', h.live_nodup, h.live_addr, h.ranges⟩,
      fun hchained => h.inv.reshapes hreshapes hchained⟩
  · have hblock : z.blockOf (z.addr p, n) = ⟨p, orderFor n⟩ := by
      rw [Zone.blockOf, Zone.pageFor_addr]
    have hlive : z.liveSet { r with st := st', live := (z.addr p, n) :: r.live } =
        insert ⟨p, orderFor n⟩ (z.liveSet r) := by
      ext b
      simp only [Zone.liveSet, List.mem_cons, exists_eq_or_imp, hblock, Set.mem_ofPred_eq,
        Set.mem_insert_iff, eq_comm]
    refine ⟨_, free', ⟨st', some (z.addr p), _, hret, rfl⟩, ⟨?_, ?_, ?_, h.ranges⟩, ?_⟩
    · simp only [Option.map_some, Option.toList_some, List.singleton_append]
      rw [hlive]
      exact hinv'
    · simp only [Option.map_some, Option.toList_some, List.singleton_append, List.map_cons, hblock,
        List.nodup_cons]
      refine ⟨fun hin => hfresh ?_, h.live_nodup⟩
      obtain ⟨a, ha, hab⟩ := List.mem_map.mp hin
      exact ⟨a, ha, hab⟩
    · intro a ha
      simp only [Option.map_some, Option.toList_some, List.singleton_append, List.mem_cons] at ha
      rcases ha with rfl | ha
      · exact ⟨h1, h2, by rw [Zone.pageFor_addr]⟩
      · exact h.live_addr a ha
    · intro hchained
      simp only [Option.map_some, Option.toList_some, List.singleton_append]
      rw [Zone.Chained, hlive]
      exact hpieces _ hchained

/-- The pointers that `tohh` takes to the direct map address of a page. -/
theorem tohh_eq_addr {p ptr : ℕ} (hp : p * pageSize < z.hhdm) (hw : z.hhdm < 2 ^ 64)
    (h : tohh z.hhdm ptr = z.addr p) : ptr = z.addr p ∨ ptr = p * pageSize := by
  rw [tohh, ishh] at h
  split at h
  · exact Or.inl h
  · rename_i hlt
    simp only [decide_eq_true_eq, not_le] at hlt
    right
    simp only [Zone.addr, pageSize] at h hp ⊢
    omega

/-- `free` of an allocation. -/
theorem RunInv.freeBlock (h : RunInv z r free) {ptr n : ℕ} (hmem : (tohh z.hhdm ptr, n) ∈ r.live) :
    ∃ r' free', z.Step r (.free ptr n) r' ∧ RunInv z r' free' ∧
      (z.Chained r free → z.Chained r' free') := by
  obtain ⟨h1, h2, haddr⟩ := h.live_addr _ hmem
  dsimp only at h1 h2 haddr
  set p := z.pageFor (tohh z.hhdm ptr) with hp
  have hblock : z.blockOf (tohh z.hhdm ptr, n) = ⟨p, orderFor n⟩ := rfl
  have hU : (⟨p, orderFor n⟩ : Block) ∈ z.liveSet r := ⟨_, hmem, rfl⟩
  have hfits := h.inv.db.fits _ (Or.inr hU)
  have hptr : ptr = z.addr p ∨ ptr = p * pageSize := by
    refine tohh_eq_addr hfits.bounds.1 ?_ haddr
    have hend := hfits.bounds.2.1
    have hpos := Nat.two_pow_pos (orderFor n)
    simp only [pageSize] at hend
    omega
  obtain ⟨st', free', hfree, hinv', -, -, hpieces⟩ := free_spec h.inv h1 h2 hU hptr
  have hnd : r.live.Nodup := List.Nodup.of_map _ h.live_nodup
  have hlive : z.liveSet { r with st := st', live := r.live.erase (tohh z.hhdm ptr, n) } =
      z.liveSet r \ {⟨p, orderFor n⟩} := by
    ext b
    simp only [Zone.liveSet, Set.mem_ofPred_eq, Set.mem_sdiff, Set.mem_singleton_iff,
      hnd.mem_erase_iff]
    constructor
    · rintro ⟨a, ⟨hne, ha⟩, rfl⟩
      refine ⟨⟨a, ha, rfl⟩, fun heq => hne ?_⟩
      exact List.inj_on_of_nodup_map h.live_nodup ha hmem heq
    · rintro ⟨⟨a, ha, rfl⟩, hne⟩
      refine ⟨a, ⟨?_, ha⟩, rfl⟩
      rintro rfl
      exact hne rfl
  refine ⟨_, free', ⟨st', _, hfree, rfl⟩, ⟨?_, ?_, ?_, h.ranges⟩, fun hchained => ?_⟩
  · rw [hlive]
    exact hinv'
  · exact h.live_nodup.sublist ((List.erase_sublist).map _)
  · exact fun a ha => h.live_addr a (List.mem_of_mem_erase ha)
  · rw [Zone.Chained, hlive]
    exact hpieces _ hchained

/-- A write of the owner of a block to its own memory. -/
theorem RunInv.touch (h : RunInv z r free) {addr : ℕ} {n : Node} {a : ℕ × ℕ} (ha : a ∈ r.live)
    (hmem : z.pageFor addr ∈ (z.blockOf a).pages) :
    ∃ r' free', z.Step r (.touch addr n) r' ∧ RunInv z r' free' ∧
      (z.Chained r free → z.Chained r' free') := by
  refine ⟨_, free, rfl, ⟨⟨h.inv.lists.setNode ?_ n, h.inv.db⟩, h.live_nodup, h.live_addr, h.ranges⟩,
    id⟩
  rintro k p hp rfl
  rw [Zone.pageFor_addr] at hmem
  have hF : (⟨p, k⟩ : Block) ∈ freeSet free := hp
  have hU : z.blockOf a ∈ z.liveSet r := ⟨a, ha, rfl⟩
  have heq := h.inv.db.base_of_mem (Or.inl hF) (Or.inr hU) hmem
  exact Set.disjoint_left.mp h.inv.db.separate hF (heq ▸ hU)

/-- Every operation within the contract returns and keeps the invariant. -/
theorem RunInv.step (hz : z.Aligned) (h : RunInv z r free) {op : Op}
    (hop : z.Allowed z.window r op) : ∃ r' free', z.Step r op r' ∧ RunInv z r' free' ∧
      (z.Chained r free → z.Chained r' free') := by
  cases op with
  | addRange base size => exact h.addRange hz hop
  | alloc n => exact h.alloc hz hop.1 hop.2
  | free ptr n => exact h.freeBlock hop
  | touch addr n =>
      obtain ⟨a, ha, hmem⟩ := hop
      exact h.touch ha hmem

end Steps

/-- An operation has one outcome. -/
theorem Zone.Step.unique {z : Zone} {r r₁ r₂ : Run} {op : Op} (h₁ : z.Step r op r₁)
    (h₂ : z.Step r op r₂) : r₁ = r₂ := by
  cases op with
  | addRange base size => exact h₁.trans h₂.symm
  | alloc n =>
      obtain ⟨st₁, ret₁, bytes₁, hret₁, rfl⟩ := h₁
      obtain ⟨st₂, ret₂, bytes₂, hret₂, rfl⟩ := h₂
      have heq := hret₁.unique hret₂
      simp only [Prod.mk.injEq] at heq
      rw [heq.1, heq.2.1]
  | free ptr n =>
      obtain ⟨st₁, bytes₁, hret₁, rfl⟩ := h₁
      obtain ⟨st₂, bytes₂, hret₂, rfl⟩ := h₂
      have heq := Except.ok.inj (hret₁.symm.trans hret₂)
      simp only [Prod.mk.injEq] at heq
      rw [heq.1]
  | touch addr n => exact h₁.trans h₂.symm

theorem reachable_runInv {z : Zone} (hz : z.Aligned) {r : Run}
    (h : (z.system z.window).Reachable r) : ∃ free, RunInv z r free ∧ z.Chained r free := by
  refine h.invariant (I := fun s => ∃ free, RunInv z s free ∧ z.Chained s free)
    (fun s hs => ⟨_, runInv_init hs⟩) ?_
  rintro s op s' - ⟨free, hinv, hchained⟩ ⟨hop, hstep⟩
  obtain ⟨s'', free'', hstep'', hinv'', hkeep⟩ := hinv.step hz hop
  exact hstep.unique hstep'' ▸ ⟨free'', hinv'', hkeep hchained⟩

/-- In every run over ranges in the window of the zone, the free lists are well formed, every node is
the base of an aligned free block with the right page entry, free and allocated blocks are disjoint
and cover exactly the pages added; and every operation within the contract returns, so that no
`bug_on` fires. -/
theorem allocator_consistent {z : Zone} (hz : z.Aligned) {r : Run}
    (h : (z.system z.window).Reachable r) :
    (∃ free, Consistent z r free) ∧ ∀ op, z.Allowed z.window r op → ∃ r', z.Step r op r' := by
  obtain ⟨free, hinv, -⟩ := reachable_runInv hz h
  refine ⟨⟨free, hinv.consistent⟩, fun op hop => ?_⟩
  obtain ⟨r', -, hstep, -⟩ := hinv.step hz hop
  exact ⟨r', hstep⟩

/-- The run after one `add_range` from the initial state. -/
theorem reachable_addRange {z : Zone} {l b s : ℕ}
    (h : z.Allowed l ⟨State.initial, [], []⟩ (.addRange b s)) :
    (z.system l).Reachable ⟨(addRange z b s State.initial).1, [(b, s)], []⟩ :=
  .step (.init ⟨rfl, rfl, rfl, rfl⟩) ⟨h, rfl⟩

/-- One more `alloc`. -/
theorem reachable_alloc {z : Zone} {r : Run} {lim n addr bytes : ℕ} {st' : State}
    (h : (z.system lim).Reachable r) (hn : 1 ≤ n ∧ n ≤ 2 ^ 51)
    (hret : Returns (fun fuel => alloc z fuel n r.st) (st', some addr, bytes)) :
    (z.system lim).Reachable ⟨st', r.ranges, (addr, n) :: r.live⟩ :=
  .step h ⟨(show z.Allowed lim r (.alloc n) from hn), st', some addr, bytes, hret, rfl⟩

/-- One more `free`. -/
theorem reachable_free {z : Zone} {r : Run} {lim ptr n bytes : ℕ} {st' : State}
    (h : (z.system lim).Reachable r) (hn : (tohh z.hhdm ptr, n) ∈ r.live)
    (hret : Pmm.free z ptr n r.st = .ok (st', bytes)) :
    (z.system lim).Reachable ⟨st', r.ranges, r.live.erase (tohh z.hhdm ptr, n)⟩ :=
  .step h ⟨(show z.Allowed lim r (.free ptr n) from hn), st', bytes, hret, rfl⟩

theorem allocator_consistent_after_addRange :
    ∃ r, r.ranges = [(0x1000, 0x5000)] ∧
      (∃ free, Consistent ⟨0x1000, mib 1, 0xffff800000000000⟩ r free) ∧
        ∃ r', Zone.Step ⟨0x1000, mib 1, 0xffff800000000000⟩ r (.alloc 3) r' := by
  have hz : Zone.Aligned ⟨0x1000, mib 1, 0xffff800000000000⟩ := by
    rw [Zone.Aligned]
    decide
  have hr := reachable_addRange (z := ⟨0x1000, mib 1, 0xffff800000000000⟩) (b := 0x1000)
    (s := 0x5000) (l := 2 ^ 47) (by simp only [Zone.Allowed]; decide)
  obtain ⟨hcons, hop⟩ := allocator_consistent hz hr
  exact ⟨_, rfl, hcons, hop (.alloc 3) (by simp only [Zone.Allowed]; decide)⟩

/-! ## Beyond the window -/

/-- Some run over ranges inside the zone leads to an inconsistent state. -/
def Zone.Breaks (z : Zone) : Prop :=
  z.Aligned ∧ ∃ r, (z.system (2 ^ 64)).Reachable r ∧ ∀ free, ¬ Consistent z r free

/-- A free block that is not among the pages added. -/
private theorem not_consistent_of_head {z : Zone} {r : Run} {k a : ℕ} (hk : r.st.lists k = some a)
    (ha : ∀ p, z.addr p = a → p ∉ r.pages) (free : ℕ → List ℕ) : ¬ Consistent z r free := by
  intro h
  have hhead := h.lists.head k
  rw [hk] at hhead
  obtain ⟨p, hp, hpa⟩ := List.mem_map.mp (List.mem_of_head? hhead.symm)
  have hF : (⟨p, k⟩ : Block) ∈ freeSet free := hp
  have hin : p ∈ ⋃ b ∈ freeSet free ∪ z.liveSet r, b.pages :=
    Set.mem_biUnion (Or.inl hF) (Block.base_mem_pages _)
  rw [h.cover] at hin
  exact ha p hpa hin

/-- The buddy of the page at `2 ^ 48` is recorded as page 1, as `next_paddr` has 36 bits. After
`alloc(1)` the pair at `2 ^ 48` is merged with page 1 in the place of the allocated page, so `alloc(2)`
hands out that page a second time. -/
private theorem breaks_next_paddr : Zone.Breaks ⟨gib 4, 2 ^ 64 - 1, 2 ^ 63⟩ := by
  have h₀ := reachable_addRange (z := ⟨gib 4, 2 ^ 64 - 1, 2 ^ 63⟩) (b := 2 ^ 48) (s := 0x2000)
    (l := 2 ^ 64) (by simp only [Zone.Allowed]; decide)
  have h₁ := reachable_alloc (n := 1) h₀ (by decide) (.of_eq fun _ => rfl)
  have h₂ := reachable_alloc (n := 2) h₁ (by decide) ⟨3, fun fuel hfuel => by
    obtain ⟨n, rfl⟩ := Nat.exists_eq_add_of_le' hfuel
    rfl⟩
  refine ⟨by rw [Zone.Aligned]; decide, _, h₂, fun free h => ?_⟩
  have hdisj := h.disjoint (Or.inr ⟨_, List.mem_cons_self, rfl⟩)
    (Or.inr ⟨_, List.mem_cons_of_mem _ List.mem_cons_self, rfl⟩) (by decide)
  have hpage : (2 ^ 36 + 1 : ℕ) ∉ Block.pages (Zone.blockOf _ (_, 1)) :=
    Set.disjoint_left.mp hdisj (by rw [Block.mem_pages]; decide)
  exact hpage (by rw [Block.mem_pages]; decide)

/-- A physical address that is not below the offset counts as a direct map address already. -/
private theorem breaks_hhdm : Zone.Breaks ⟨gib 4, 2 ^ 64 - 1, gib 8⟩ := by
  refine ⟨by rw [Zone.Aligned]; decide, _, reachable_addRange (b := gib 8) (s := 0x2000)
    (by simp only [Zone.Allowed]; decide), not_consistent_of_head (k := 1) (a := gib 8) rfl ?_⟩
  rintro p hp ⟨rg, hrg, hlo, -⟩
  rw [List.mem_singleton.mp hrg] at hlo
  simp only [Zone.addr, pageSize, gib, mib, kib] at hp hlo
  omega

/-- The direct map address of a physical address above `2 ^ 64 - hhdm` wraps around. -/
private theorem breaks_wrap : Zone.Breaks ⟨gib 4, 2 ^ 64 - 1, 0xffff800000000000⟩ := by
  refine ⟨by rw [Zone.Aligned]; decide, _, reachable_addRange (b := 2 ^ 47) (s := 0x2000)
    (by simp only [Zone.Allowed]; decide), not_consistent_of_head (k := 1) (a := 0) rfl ?_⟩
  rintro p hp -
  simp only [Zone.addr] at hp
  omega

/-- Each of the three bounds of the window is needed: an allocator whose direct map leaves room for
the other two breaks on a range beyond it. -/
theorem allocator_overlap :
    Zone.Breaks ⟨gib 4, 2 ^ 64 - 1, 2 ^ 63⟩ ∧ Zone.Breaks ⟨gib 4, 2 ^ 64 - 1, gib 8⟩ ∧
      Zone.Breaks ⟨gib 4, 2 ^ 64 - 1, 0xffff800000000000⟩ :=
  ⟨breaks_next_paddr, breaks_hhdm, breaks_wrap⟩

end Ilobilix.Pmm
