import Ilobilix.Memory.Pmm.Run

/-!
# The search of the buddy allocator is complete

Merging is lazy: `free` only puts a block back, and `coalesce_to` merges when an `alloc` finds
nothing. `alloc_complete` says that nothing is missed: in every reachable state a null pointer means
that no aligned run of pages of the wanted size is entirely free inside one block that `add_range`
inserted. `Settled` is what a pass over one order leaves behind, `Pieces` makes a merge that is left
visible in the chain, and `Block.exists_buddies` finds one in every run of free pages.

As for the other results about the allocator the ranges are in the window of the zone. Beyond it the
chain does not lead to the buddy, and `alloc_misses` is a run in which `alloc` misses a free block.
-/

namespace Ilobilix.Pmm

open Lib

/-- The pages of an aligned run of `2 ^ k` pages that lies in one block that `add_range` inserted, and
of which no allocation holds any. -/
def Zone.FreeRun (z : Zone) (r : Run) (p k : ℕ) : Prop :=
  2 ^ k ∣ p ∧ (∃ o ∈ z.inserted r, Block.pages ⟨p, k⟩ ⊆ o.pages) ∧
    ∀ b ∈ z.liveSet r, Disjoint (Block.pages ⟨p, k⟩) b.pages

/-- Two free buddies of order `j` in one block that `add_range` inserted. -/
def Zone.Mergeable (z : Zone) (r : Run) (free : ℕ → List ℕ) (p j : ℕ) : Prop :=
  2 ^ (j + 1) ∣ p ∧ p ∈ free j ∧ p + 2 ^ j ∈ free j ∧
    ∃ o ∈ z.inserted r, Block.pages ⟨p, j + 1⟩ ⊆ o.pages

section

variable {z : Zone} {r : Run} {free : ℕ → List ℕ}

/-- The chain leads from the lower to the upper of two buddies, so a settled order has none. -/
theorem Zone.Chained.not_mergeable (h : z.Chained r free) {j : ℕ}
    (hset : Settled j (layout r.st free)) (p : ℕ) : ¬ z.Mergeable r free p j := by
  rintro ⟨hdvd, hlow, hhigh, o, ho, hsub⟩
  have hlinked := h.linked ⟨p, j⟩ (Or.inl hlow) o ho (hsub (Block.base_mem_pages ⟨p, j + 1⟩))
  refine hlinked.mpr (hsub ?_) (hset p hdvd hlow hhigh)
  rw [Block.pages_halves]
  exact Or.inr (Block.base_mem_pages ⟨p + 2 ^ j, j⟩)

/-- Inside a block that `add_range` inserted a page that no allocation holds is in a free block. -/
theorem RunInv.freeRun_subset (h : RunInv z r free) (hc : z.Chained r free) {p k : ℕ}
    (hrun : z.FreeRun r p k) : Block.pages ⟨p, k⟩ ⊆ ⋃ b ∈ freeSet free, b.pages := by
  obtain ⟨-, ⟨o, ho, hsub⟩, hlive⟩ := hrun
  intro x hx
  have hadded : x ∈ r.pages := hc.within o ho (hsub hx)
  rw [← h.inv.db.cover] at hadded
  obtain ⟨b, hb | hb, hxb⟩ := Set.mem_iUnion₂.mp hadded
  · exact Set.mem_biUnion hb hxb
  · exact absurd hxb (Set.disjoint_left.mp (hlive b hb) hx)

/-- When the orders below `k` are settled and no larger block is free, no run of `2 ^ k` pages is. -/
theorem RunInv.not_freeRun (h : RunInv z r free) (hc : z.Chained r free) {k : ℕ}
    (hlarge : ∀ j, k ≤ j → free j = []) (hset : ∀ j < k, Settled j (layout r.st free)) (p : ℕ) :
    ¬ z.FreeRun r p k := by
  intro hrun
  have haligned : ∀ b ∈ freeSet free, 2 ^ b.order ∣ b.base := fun b hb => (h.inv.fits hb).aligned
  rcases Block.exists_buddies haligned hrun.1 (h.freeRun_subset hc hrun) with
    ⟨b, hb, hle, -⟩ | ⟨q, j, hj, hq, hlow, hhigh, hsub⟩
  · rw [mem_freeSet, hlarge b.order hle] at hb
    cases hb
  · obtain ⟨-, ⟨o, ho, hpo⟩, -⟩ := hrun
    exact hc.not_mergeable (hset j hj) q ⟨hq, hlow, hhigh, o, ho, hsub.trans hpo⟩

/-- After `coalesce_to(k)` no two free buddies of an order below `k` in the same block are left. -/
theorem RunInv.coalesce (hz : z.Aligned) (h : RunInv z r free) (hc : z.Chained r free) (k : ℕ) :
    ∃ st' free', Returns (fun fuel => coalesceTo z fuel k r.st) st' ∧ FreeLists z st' free' ∧
      ∀ j < k, ∀ p, ¬ z.Mergeable r free' p j := by
  obtain ⟨st', free', hret, hinv', hreshapes, -, hset, -⟩ := coalesceTo_spec hz h.inv k
  have hc' : z.Chained { r with st := st' } free' := h.inv.reshapes hreshapes hc
  refine ⟨st', free', hret, hinv'.lists, fun j hj p hmerge => ?_⟩
  by_cases hmax : j < maxOrder
  · exact hc'.not_mergeable (hset j (lt_min hj hmax)) p hmerge
  · -- a block of `add_range` has at most `2 ^ max_order` pages, too few for such a pair
    obtain ⟨-, -, -, o, ho, hsub⟩ := hmerge
    have hle := hc.order_le o ho
    have hpow := Nat.pow_le_pow_right (show 0 < 2 by decide) (show o.order ≤ j by omega)
    have hfirst := hsub (Block.base_mem_pages ⟨p, j + 1⟩)
    have hlast := hsub (Block.last_mem_pages ⟨p, j + 1⟩)
    rw [Block.mem_pages] at hfirst hlast
    dsimp only at hfirst hlast
    rw [pow_succ] at hlast
    have := Nat.two_pow_pos j
    omega

end

/-- In every run over ranges in the window of the zone, a request for `n` pages whose order `k` is
legal returns, and it returns a null pointer only if no aligned run of `2 ^ k` pages is entirely free
inside one block that `add_range` inserted; and `coalesce_to(m)` returns and leaves no two free
buddies of an order below `m` in the same such block. -/
theorem alloc_complete {z : Zone} (hz : z.Aligned) {r : Run}
    (h : (z.system z.window).Reachable r) :
    (∀ n k, 1 ≤ n → n ≤ 2 ^ k → (∀ j < k, 2 ^ j < n) → k ≤ maxOrder →
      ∃ st' ret bytes, Returns (fun fuel => alloc z fuel n r.st) (st', ret, bytes) ∧
        (ret = none → ∀ p, ¬ z.FreeRun r p k)) ∧
    ∀ m, ∃ st' free', Returns (fun fuel => coalesceTo z fuel m r.st) st' ∧ FreeLists z st' free' ∧
      ∀ j < m, ∀ p, ¬ z.Mergeable r free' p j := by
  obtain ⟨free, hinv, hc⟩ := reachable_runInv hz h
  refine ⟨fun n k h1 hle hleast hk => ?_, fun m => hinv.coalesce hz hc m⟩
  have h2 : n ≤ 2 ^ 51 :=
    hle.trans (Nat.pow_le_pow_right (by decide) (hk.trans (by decide)))
  obtain ⟨-, hfits, hsmall⟩ := nextOrderFrom_eq h1 h2
  -- the order of the request is the source's
  have horder : orderFor n = k := by
    rcases Nat.lt_trichotomy (orderFor n) k with hlt | heq | hgt
    · exact absurd hfits (not_le.mpr (hleast _ hlt))
    · exact heq
    · exact absurd hle (not_le.mpr (hsmall k hgt))
  obtain ⟨st', free', ⟨hret, hinv', hreshapes, -, hnone⟩ | ⟨p, hret, -⟩⟩ := alloc_spec hz hinv.inv h1 h2
  · refine ⟨st', none, 0, hret, fun _ => ?_⟩
    rw [horder] at hnone
    obtain ⟨hlarge, hset⟩ := hnone hk
    have hrun' : RunInv z { r with st := st' } free' :=
      ⟨hinv', hinv.live_nodup, hinv.live_addr, hinv.ranges⟩
    have hc' : z.Chained { r with st := st' } free' := hinv.inv.reshapes hreshapes hc
    exact fun p => hrun'.not_freeRun hc' hlarge hset p
  · exact ⟨st', _, _, hret, fun hnull => absurd hnull (by simp)⟩

theorem alloc_complete_after_addRange :
    ∃ r, r.ranges = [(0x1000, 0x5000)] ∧
      ∃ st' ret bytes, Returns (fun fuel =>
          alloc ⟨0x1000, mib 1, 0xffff800000000000⟩ fuel 3 r.st) (st', ret, bytes) ∧
        (ret = none → ∀ p, ¬ Zone.FreeRun ⟨0x1000, mib 1, 0xffff800000000000⟩ r p 2) := by
  have hz : Zone.Aligned ⟨0x1000, mib 1, 0xffff800000000000⟩ := by
    rw [Zone.Aligned]
    decide
  have hr := reachable_addRange (z := ⟨0x1000, mib 1, 0xffff800000000000⟩) (b := 0x1000)
    (s := 0x5000) (l := 2 ^ 47) (by simp only [Zone.Allowed]; decide)
  exact ⟨_, rfl, (alloc_complete hz hr).1 3 2 (by decide) (by decide) (by decide) (by decide)⟩

/-- Beyond the window: `next_paddr` has 36 bits, so the lower half of the block at `2 ^ 48` leads to
page 2 instead of to its buddy. After `alloc(2)` and `free` all four pages are free, and `alloc(4)`
finds none. -/
theorem alloc_misses : ∃ r, (Zone.system ⟨gib 4, 2 ^ 64 - 1, 2 ^ 63⟩ (2 ^ 64)).Reachable r ∧
    Zone.FreeRun ⟨gib 4, 2 ^ 64 - 1, 2 ^ 63⟩ r (2 ^ 36) 2 ∧
    ∃ st', Returns (fun fuel => alloc ⟨gib 4, 2 ^ 64 - 1, 2 ^ 63⟩ fuel 4 r.st) (st', none, 0) := by
  have h₀ := reachable_addRange (z := ⟨gib 4, 2 ^ 64 - 1, 2 ^ 63⟩) (b := 2 ^ 48) (s := 0x4000)
    (l := 2 ^ 64) (by simp only [Zone.Allowed]; decide)
  have h₁ := reachable_alloc (n := 2) h₀ (by decide) (.of_eq fun _ => rfl)
  have hlive : (tohh (2 ^ 63) (2 ^ 48 + 0x2000), 2) ∈ [(2 ^ 63 + 2 ^ 48 + 0x2000, 2)] := by decide
  have h₂ := reachable_free h₁ hlive rfl
  have hrun : ∀ st,
      Zone.FreeRun ⟨gib 4, 2 ^ 64 - 1, 2 ^ 63⟩ ⟨st, [(2 ^ 48, 0x4000)], []⟩ (2 ^ 36) 2 := by
    refine fun st => ⟨by decide, ⟨⟨2 ^ 36, 2⟩, ⟨_, List.mem_singleton_self _, by decide⟩,
      subset_rfl⟩, ?_⟩
    rintro b ⟨a, ha, -⟩
    cases ha
  exact ⟨_, h₂, hrun _, _, 4, fun fuel hfuel => by
    obtain ⟨n, rfl⟩ := Nat.exists_eq_add_of_le' hfuel
    rfl⟩

end Ilobilix.Pmm
