import Ilobilix.Foundation.Except
import Ilobilix.Memory.Pmm.Operations

/-!
# Sizes of blocks

What the orders of `Orders` mean for `add_range` and `alloc`: a block that is carved fits into what is
left of the range, and a block that is handed out holds what was asked for.
-/

namespace Ilobilix.Pmm

variable {z : Zone} {st st' : State} {fuel order base size : ℕ}

/-- The inner loop of `add_range` goes down from the order that it is given. -/
theorem alignOrder_le {first : ℕ} (h : alignOrder base first = some order) : order ≤ first := by
  induction first with
  | zero =>
      rw [alignOrder] at h
      split at h
      · exact (Option.some.inj h).ge
      · cases h
  | succ first ih =>
      rw [alignOrder] at h
      split at h
      · exact (Option.some.inj h).ge
      · exact (ih h).trans (Nat.le_succ first)

theorem blockBytes_le (h1 : pageSize ≤ size) (h2 : size ≤ 2 ^ 63)
    (h : alignOrder base (min (prevOrderFrom size).toNat maxOrder) = some order) :
    blockBytes order ≤ size := by
  obtain ⟨k, heq, hfits, -⟩ := prevOrderFrom_isGreatest h1 h2
  have hle := alignOrder_le h
  rw [heq, Int.toNat_natCast, le_min_iff] at hle
  rw [blockBytes_eq (hle.2.trans (by decide))]
  exact (Nat.mul_le_mul_left _ (Nat.pow_le_pow_right (by decide) hle.1)).trans hfits

/-- However far the loop of `add_range` has come, the blocks and what is left make up the range. -/
theorem addRangeLoop_size (z : Zone) (fuel base : ℕ) (st : State) (h : size ≤ 2 ^ 63) :
    ((addRangeBlocks z fuel base size).map fun b => blockBytes b.order).sum +
      (addRangeLoop z fuel base size st).2 = size := by
  induction fuel generalizing base size st with
  | zero => simp [addRangeBlocks, addRangeLoop]
  | succ fuel ih =>
      rw [addRangeBlocks, addRangeLoop]
      by_cases hpage : pageSize ≤ size
      · by_cases hneg : prevOrderFrom size < 0
        · simp [hpage, hneg]
        · cases halign : alignOrder base (min (prevOrderFrom size).toNat maxOrder) with
          | none => simp [hpage, hneg, halign]
          | some order =>
              have hle := blockBytes_le hpage h halign
              have hrest := fun st' => ih ((base + blockBytes order) % 2 ^ 64) st'
                ((Nat.sub_le size (blockBytes order)).trans h)
              simp only [if_pos hpage, if_neg hneg, halign, List.map_cons, List.sum_cons]
              rw [Nat.add_assoc, hrest, Nat.add_sub_cancel' hle]
      · simp [hpage]

/-- The block behind an address that is returned has the order that was looked for. -/
theorem allocOrder_block {ret bytes : ℕ}
    (h : allocOrder z fuel order st = .ok (st', some ret, bytes)) :
    (st'.pfndb (z.pageFor ret)).order = order ∧ bytes = blockBytes order := by
  rw [allocOrder] at h
  obtain ⟨⟨st₁, found⟩, -, h⟩ := Except.bind_eq_ok_iff.mp h
  cases found with
  | false => cases h
  | true =>
      obtain ⟨⟨st₂, ret'⟩, htake, h⟩ := Except.bind_eq_ok_iff.mp h
      cases h
      obtain ⟨⟨st₃, ret''⟩, -, htake⟩ := Except.bind_eq_ok_iff.mp htake
      obtain ⟨-, -, htake⟩ := Except.bind_eq_ok_iff.mp htake
      obtain ⟨_, hbug, htake⟩ := Except.bind_eq_ok_iff.mp htake
      cases htake
      have horder : (st₃.pfndb (z.pageFor ret)).order = order := by
        by_contra hne
        have hstop : bugOn ((st₃.pfndb (z.pageFor ret)).order != order) = .error .bug :=
          if_pos (bne_iff_ne.mpr hne)
        cases hstop.symm.trans hbug
      have hpage := Function.update_self (z.pageFor ret)
        ((st₃.pfndb (z.pageFor ret)).setAllocated true) st₃.pfndb
      exact ⟨(congrArg Page.order hpage).trans horder, rfl⟩

/-- `add_range` carves blocks that fit into the rest, down to what it leaves, and `alloc` hands out
blocks that are large enough, by what it says and by what the page database says. -/
theorem orders_of_size (h1 : pageSize ≤ size) (h2 : size ≤ 2 ^ 63) :
    (∃ k : ℕ, nextOrderFrom size = k ∧ IsLeast {k | size ≤ pageSize * 2 ^ k} k) ∧
      (∃ k : ℕ, prevOrderFrom size = k ∧ IsGreatest {k | pageSize * 2 ^ k ≤ size} k) ∧
      (∀ base order, alignOrder base (min (prevOrderFrom size).toNat maxOrder) = some order →
        blockBytes order = pageSize * 2 ^ order ∧ blockBytes order ≤ size) ∧
      (∀ z fuel base st,
        ((addRangeBlocks z fuel base size).map fun b => blockBytes b.order).sum +
          (addRangeLoop z fuel base size st).2 = size) ∧
      ∀ z fuel npages st st' ret bytes, npages * pageSize = size →
        alloc z fuel npages st = .ok (st', some ret, bytes) →
          size ≤ bytes ∧ size ≤ pageSize * 2 ^ (st'.pfndb (z.pageFor ret)).order := by
  refine ⟨nextOrderFrom_isLeast h1 h2, prevOrderFrom_isGreatest h1 h2, fun base order h => ?_,
    fun z fuel base st => addRangeLoop_size z fuel base st h2, ?_⟩
  · have hmax : order ≤ maxOrder := (alignOrder_le h).trans (min_le_right _ _)
    exact ⟨blockBytes_eq (hmax.trans (by decide)), blockBytes_le h1 h2 h⟩
  · intro z fuel npages st st' ret bytes hsize h
    obtain ⟨k, heq, hfits, -⟩ := nextOrderFrom_isLeast h1 h2
    rw [alloc, hsize, Nat.mod_eq_of_lt (by omega), heq, Int.toNat_natCast] at h
    split at h
    · cases h
    · rename_i hlegal
      have hmax : k ≤ maxOrder := by omega
      obtain ⟨horder, hbytes⟩ := allocOrder_block h
      rw [hbytes, horder, blockBytes_eq (hmax.trans (by decide))]
      exact ⟨hfits, hfits⟩

/-- A size between two powers of two. -/
theorem orders_of_five_pages : (∃ k : ℕ, nextOrderFrom 0x5000 = k ∧
      IsLeast {k | 0x5000 ≤ pageSize * 2 ^ k} k) ∧ nextOrderFrom 0x5000 = 3 ∧
    prevOrderFrom 0x5000 = 2 :=
  ⟨(orders_of_size (show pageSize ≤ 0x5000 by decide) (by decide)).1, by decide, by decide⟩

end Ilobilix.Pmm
