import Ilobilix.Memory.Vmm.Mapped
import Ilobilix.Memory.Vmm.Syscalls

/-!
# `mmap` without a fixed address

`find_free_region` goes through the tree in the order of `startp` and takes the first gap between the
end of an entry and the start of the next one. If the entries are disjoint, no mapping has a page of the
region and `map` then erases nothing: `mmap_nondestructive`. The difference `entry.startp - last_endp` is
unsigned, so behind an entry that ends after the next one starts, such as an empty mapping in the middle
of another, every gap looks large enough: `mmap_destructive`.

The search begins at page zero, and `mmap` takes the address zero for a search that found nothing. As long
as the first pages are free it therefore fails, also in the empty tree of a new process: `mmap_enomem_iff`.
-/

namespace Ilobilix.Vmm

open Lib Intervals

section FreeRegion

variable {pm : Pagemap} {fuel : ℕ} {s s' : Space}

/-- A `map` onto a range that no mapping overlaps erases nothing. -/
theorem map_of_free {address length offset : UInt64} {prot flags : BitVec 8} {obj : ℕ}
    (hfree : ∀ e ∈ s.tree,
      overlaps (startPage address.toNat) (endPage address.toNat length.toNat) e = false)
    (h : s.run pm fuel (.map address length prot flags obj offset) = .ok (s', .ok ())) :
    s'.tree = emplace Mapping.startp ⟨startPage address.toNat, endPage address.toNat length.toNat,
      obj, offset.toNat / psize, prot, flags⟩ s.tree := by
  obtain ⟨hres, -, htree⟩ := Space.eq_of_run h
  obtain ⟨hal, hb⟩ := SpaceOp.result_ok_iff.mp hres.symm
  have hnil : SpaceOp.entries s.tree (.map address length prot flags obj offset) = [] := by
    rw [SpaceOp.map_entries hal hb, List.filter_eq_nil_iff]
    intro e he
    rw [hfree e he]
    exact Bool.false_ne_true
  rw [htree, hnil]
  rfl

/-- The end page of a range of whole pages. -/
theorem endPage_eq {address length : ℕ} (hal : address % psize = 0) (hlen : length % psize = 0)
    (hsum : address + length < 2 ^ 64) :
    endPage address length = startPage address + divRoundup length psize := by
  rw [endPage, startPage, divRoundup_psize, divRoundup_psize]
  simp only [psize] at hal hlen ⊢
  omega

/-- A range between the mappings overlaps none of them. -/
theorem not_overlaps_of_free {address length : ℕ} (hal : address % psize = 0)
    (hlen : length % psize = 0) (hsum : address + length < 2 ^ 64)
    (hfree : ∀ e ∈ s.tree, e.endp ≤ startPage address ∨
      startPage address + divRoundup length psize ≤ e.startp) :
    ∀ e ∈ s.tree, overlaps (startPage address) (endPage address length) e = false := by
  intro e he
  rw [endPage_eq hal hlen hsum]
  have := hfree e he
  rw [Bool.eq_false_iff, ne_eq, overlaps_iff]
  omega

/-- A successful `mmap` at a free region maps it and keeps every mapping. -/
theorem mmapAt_of_free {address length offset : UInt64} {prot flags fd : BitVec 32}
    {file : Option (Option ℕ)} {memobject a : ℕ} (hal : address.toNat % psize = 0)
    (hlen : length.toNat % psize = 0)
    (hfree : ∀ e ∈ s.tree, e.endp ≤ startPage address.toNat ∨
      startPage address.toNat + divRoundup length.toNat psize ≤ e.startp)
    (h : s.mmapAt pm fuel address.toNat length.toNat prot flags fd offset.toNat file memobject =
      .ok (s', .ok a)) :
    a = address.toNat ∧ a + length.toNat < 2 ^ 64 ∧ ∃ m, s'.tree = emplace Mapping.startp m s.tree := by
  unfold Space.mmapAt at h
  dsimp only at h
  split at h
  · cases h
  · rename_i hwrap
    have haddr := address.toNat_lt
    have hlength := length.toNat_lt
    have hsum : address.toNat + length.toNat < 2 ^ 64 := by omega
    split at h
    · cases h
    · split at h
      · cases h
      · cases h
      · rename_i obj _ _ hmap
        cases h
        exact ⟨rfl, hsum, _, map_of_free (not_overlaps_of_free hal hlen hsum hfree) hmap⟩

/-- A `map` onto a range that no mapping overlaps succeeds. -/
theorem map_ne_error_of_free {address length offset : UInt64} {prot flags : BitVec 8} {obj : ℕ}
    {err : Error} (haddress : address.toNat % psize = 0) (hoffset : offset.toNat % psize = 0)
    (hfree : ∀ e ∈ s.tree,
      overlaps (startPage address.toNat) (endPage address.toNat length.toNat) e = false) :
    s.run pm fuel (.map address length prot flags obj offset) ≠ .ok (s', .error err) := by
  intro h
  obtain ⟨hres, -, -⟩ := Space.eq_of_run h
  have hok : SpaceOp.result s.tree (.map address length prot flags obj offset) = .ok () := by
    refine SpaceOp.result_ok_iff.mpr ⟨?_, ?_⟩
    · simp [SpaceOp.aligned, haddress, hoffset]
    · rw [SpaceOp.blocked, SpaceOp.startp, SpaceOp.endp, List.filter_eq_nil_iff.mpr]
      · rfl
      · intro e he
        rw [hfree e he]
        exact Bool.false_ne_true
  rw [hok] at hres
  cases hres

/-- `mmap` at a free region never fails for want of memory. -/
theorem mmapAt_ne_enomem {address length offset : UInt64} {prot flags fd : BitVec 32}
    {file : Option (Option ℕ)} {memobject : ℕ} (hal : address.toNat % psize = 0)
    (hlen : length.toNat % psize = 0) (hoffset : offset.toNat % psize = 0)
    (hfree : ∀ e ∈ s.tree, e.endp ≤ startPage address.toNat ∨
      startPage address.toNat + divRoundup length.toNat psize ≤ e.startp) :
    s.mmapAt pm fuel address.toNat length.toNat prot flags fd offset.toNat file memobject ≠
      .ok (s', .error .enomem) := by
  intro h
  unfold Space.mmapAt at h
  dsimp only at h
  split at h
  · cases h
  · rename_i hwrap
    have haddr := address.toNat_lt
    have hlength := length.toNat_lt
    have hsum : address.toNat + length.toNat < 2 ^ 64 := by omega
    split at h
    · rename_i errno hobj
      cases h
      -- the object of a file or a new one is not had with `ENOMEM`
      split at hobj
      · split at hobj
        · cases hobj
        · cases hobj
        · cases hobj
      · split at hobj
        · cases hobj
        · cases hobj
    · split at h
      · cases h
      · rename_i err hmap
        exact map_ne_error_of_free hal hoffset (not_overlaps_of_free hal hlen hsum hfree) hmap
      · cases h

end FreeRegion

/-- In a run whose operations all keep the tree, a successful `mmap` without a fixed address returns a
region in which no page is mapped, and every mapping stays. -/
theorem mmap_nondestructive (pm : Pagemap) {s s' : Space} {addr length offset : UInt64}
    {prot flags fd : BitVec 32} {file : Option (Option ℕ)} {memobject a : ℕ}
    (h : ((Space.memorySystem pm).restrict fun s l => l.KeepsTree s).Reachable s)
    (hfixed : flags.getLsbD 4 = false)
    (hmmap : Returns (fun fuel => s.runUser pm fuel
      (.mmap addr length prot flags fd offset file memobject)) (s', .ok a)) :
    (∀ x, a ≤ x → x < a + length.toNat →
      ∀ e ∈ s.tree, ¬ (e.startp ≤ x / psize ∧ x / psize < e.endp)) ∧
    ∀ e ∈ s.tree, e ∈ s'.tree := by
  have htree := treeWf_of_memorySystem h
  obtain ⟨N, hN⟩ := hmmap
  have hret : s.mmap pm N addr.toNat length.toNat prot flags fd offset.toNat file memobject =
      .ok (s', .ok a) := hN N le_rfl
  by_cases hpass : PassesChecks addr.toNat length.toNat flags fd offset.toNat
  · rw [mmap_of_passes hpass, if_neg (by rw [hfixed]; exact Bool.false_ne_true)] at hret
    split at hret
    · cases hret
    · obtain ⟨hlt, hal, hfree⟩ := htree.findFreeRegion length.toNat
      have haddress : s.findFreeRegion length.toNat =
          (UInt64.ofNat (s.findFreeRegion length.toNat)).toNat :=
        (UInt64.toNat_ofNat_of_lt' hlt).symm
      rw [haddress] at hret hal hfree
      obtain ⟨ha, hsum, m, hm⟩ := mmapAt_of_free hal hpass.length_aligned hfree hret
      rw [← ha] at hal hfree
      refine ⟨fun x hlo hhi e he hcov => ?_, fun e he => ?_⟩
      · have hfree := hfree e he
        have hlen := hpass.length_aligned
        rw [startPage, divRoundup_psize] at hfree
        simp only [psize] at hal hlen hfree hcov
        omega
      · rw [hm]
        exact mem_emplace.mpr (Or.inr he)
  · obtain ⟨-, errno, herr⟩ := mmap_of_not_passes hpass hret
    cases herr

/-- An anonymous private `mmap` without a fixed address, whose `map` succeeds. -/
private theorem mmap_region_of_call {pm : Pagemap} {s s' : Space} {address length : UInt64}
    {memobject : ℕ} (hpos : length.toNat ≠ 0) (hlen : length.toNat % psize = 0)
    (hregion : s.findFreeRegion length.toNat = address.toNat) (haddress : address.toNat ≠ 0)
    (hsum : address.toNat + length.toNat < 2 ^ 64)
    (h : s.Call pm (.map address length 3 0x22 memobject 0) (.ok ()) s') :
    Returns (fun fuel => s.runUser pm fuel (.mmap 0 length 3 0x22 (-1) 0 none memobject))
      (s', .ok address.toNat) := by
  obtain ⟨N, hN⟩ := h
  refine ⟨N, fun fuel hfuel => ?_⟩
  have hmap : s.map pm fuel address.toNat length.toNat 3 0x22 memobject 0 = .ok (s', .ok ()) :=
    hN fuel hfuel
  have hpass : PassesChecks 0 length.toNat 0x22 (-1) 0 :=
    ⟨by decide, hpos, hlen, rfl, fun _ => by decide, fun h => (by cases h), fun h => (by cases h)⟩
  have hat : s.mmapAt pm fuel address.toNat length.toNat 3 0x22 (-1) 0 none memobject =
      .ok (s', .ok address.toNat) := by
    unfold Space.mmapAt
    dsimp only
    rw [if_neg (by rw [Nat.mod_eq_of_lt hsum]; omega), if_neg (by decide), if_neg (by decide)]
    dsimp only
    rw [show (3 : BitVec 32).setWidth 8 = 3 from rfl, show (0x22 : BitVec 32).setWidth 8 = 0x22 from rfl,
      hmap]
  simp only [Space.runUser]
  rw [show UInt64.toNat 0 = 0 from rfl, mmap_of_passes hpass, if_neg (by decide), hregion,
    if_neg haddress]
  exact hat

/-- The pages from one to twenty are mapped; ten pages fit behind them. -/
theorem mmap_nondestructive_behind : ∃ s s' : Space,
    s.tree = [⟨1, 20, 1, 0, 3, 0x32⟩] ∧
    Returns (fun fuel => s.runUser exampleMachine fuel (.mmap 0 0xa000 3 0x22 (-1) 0 none 2))
      (s', .ok 0x14000) ∧
    (∀ x, 0x14000 ≤ x → x < 0x14000 + 0xa000 →
      ∀ e ∈ s.tree, ¬ (e.startp ≤ x / psize ∧ x / psize < e.endp)) ∧
    ∀ e ∈ s.tree, e ∈ s'.tree := by
  obtain ⟨s₁, hcall₁, hwf₁, htree₁⟩ := Space.exists_call (.map 0x1000 0x13000 3 0x32 1 0) (.ok ())
    [⟨1, 20, 1, 0, 3, 0x32⟩] rfl Space.empty_smallWf (fun _ => rfl) (by decide +kernel) rfl
    (by decide +kernel)
  obtain ⟨s₂, hcall₂, -, -⟩ := Space.exists_call (.map 0x14000 0xa000 3 0x22 2 0) (.ok ())
    [⟨1, 20, 1, 0, 3, 0x32⟩, ⟨20, 30, 2, 0, 3, 0x22⟩] htree₁ hwf₁ (fun _ => rfl) (by decide +kernel)
    rfl (by decide +kernel)
  have h₀ : ((Space.memorySystem exampleMachine).restrict fun s l => l.KeepsTree s).Reachable
      Space.empty := .init rfl
  have hkeep : SpaceOp.KeepsTree Space.empty.tree (.map 0x1000 0x13000 3 0x32 1 0) := by
    decide +kernel
  have h₁ := h₀.step (l := MemoryOp.kernel (.map 0x1000 0x13000 3 0x32 1 0)) ⟨hkeep, _, hcall₁⟩
  have hregion : s₁.findFreeRegion (UInt64.toNat 0xa000) = UInt64.toNat 0x14000 := by
    rw [Space.findFreeRegion, htree₁]
    decide +kernel
  have hmmap := mmap_region_of_call (by decide) (by decide) hregion (by decide) (by decide) hcall₂
  exact ⟨s₁, s₂, htree₁, hmmap, mmap_nondestructive exampleMachine h₁ rfl hmmap⟩

/-- The second `mmap` leaves an empty mapping at the end of the first, in the middle of its own range.
The `mmap` of ten pages then gets the region behind its own range, although only one page is free
there, and erases the mapping at page twenty-six. -/
theorem mmap_destructive : ∃ s₁ s₂ s₃ s₄ : Space,
    Returns (fun fuel => Space.empty.runUser exampleMachine fuel
      (.mmap 0x1000 0x13000 3 0x32 (-1) 0 none 1)) (s₁, .ok 0x1000) ∧
    Returns (fun fuel => s₁.runUser exampleMachine fuel
      (.mmap 0xf000 0xa000 3 0x32 (-1) 0 none 2)) (s₂, .ok 0xf000) ∧
    Returns (fun fuel => s₂.runUser exampleMachine fuel
      (.mmap 0x1a000 0x4000 3 0x32 (-1) 0 none 3)) (s₃, .ok 0x1a000) ∧
    Returns (fun fuel => s₃.runUser exampleMachine fuel
      (.mmap 0 0xa000 3 0x22 (-1) 0 none 4)) (s₄, .ok 0x19000) ∧
    ⟨26, 30, 3, 0, 3, 0x32⟩ ∈ s₃.tree ∧ ⟨26, 30, 3, 0, 3, 0x32⟩ ∉ s₄.tree := by
  obtain ⟨s₁, hcall₁, hwf₁, htree₁⟩ := Space.exists_call (.map 0x1000 0x13000 3 0x32 1 0) (.ok ())
    [⟨1, 20, 1, 0, 3, 0x32⟩] rfl Space.empty_smallWf (fun _ => rfl) (by decide +kernel) rfl
    (by decide +kernel)
  obtain ⟨s₂, hcall₂, hwf₂, htree₂⟩ := Space.exists_call (.map 0xf000 0xa000 3 0x32 2 0) (.ok ())
    [⟨1, 15, 1, 0, 3, 0x32⟩, ⟨15, 25, 2, 0, 3, 0x32⟩, ⟨20, 20, 1, 24, 3, 0x32⟩] htree₁ hwf₁
    (fun _ => rfl) (by decide +kernel) rfl (by decide +kernel)
  obtain ⟨s₃, hcall₃, hwf₃, htree₃⟩ := Space.exists_call (.map 0x1a000 0x4000 3 0x32 3 0) (.ok ())
    [⟨1, 15, 1, 0, 3, 0x32⟩, ⟨15, 25, 2, 0, 3, 0x32⟩, ⟨20, 20, 1, 24, 3, 0x32⟩,
      ⟨26, 30, 3, 0, 3, 0x32⟩] htree₂ hwf₂ (fun _ => rfl) (by decide +kernel) rfl (by decide +kernel)
  obtain ⟨s₄, hcall₄, -, htree₄⟩ := Space.exists_call (.map 0x19000 0xa000 3 0x22 4 0) (.ok ())
    [⟨1, 15, 1, 0, 3, 0x32⟩, ⟨15, 25, 2, 0, 3, 0x32⟩, ⟨20, 20, 1, 24, 3, 0x32⟩,
      ⟨25, 35, 4, 0, 3, 0x22⟩] htree₃ hwf₃ (fun _ => rfl) (by decide +kernel) rfl (by decide +kernel)
  have hregion : s₃.findFreeRegion (UInt64.toNat 0xa000) = UInt64.toNat 0x19000 := by
    rw [Space.findFreeRegion, htree₃]
    decide +kernel
  refine ⟨s₁, s₂, s₃, s₄,
    mmap_of_call (by decide) (by decide) (by decide) (by decide) (by decide) ?_ hcall₁,
    mmap_of_call (by decide) (by decide) (by decide) (by decide) (by decide) ?_ hcall₂,
    mmap_of_call (by decide) (by decide) (by decide) (by decide) (by decide) ?_ hcall₃,
    mmap_region_of_call (by decide) (by decide) hregion (by decide) (by decide) hcall₄, ?_, ?_⟩
  · decide +kernel
  · rw [Space.isMapped, htree₁]
    decide +kernel
  · rw [Space.isMapped, htree₂]
    decide +kernel
  · rw [htree₃]
    decide
  · rw [htree₄]
    decide

/-! ## When `mmap` finds no region -/

/-- A run of pages without a mapping below the end of the address space. -/
def FreeRun (tree : List Mapping) (page pages : ℕ) : Prop :=
  page + pages ≤ 2 ^ 52 ∧ ∀ q, page ≤ q → q < page + pages → ¬ Mapped tree q

section Search

variable {pm : Pagemap} {fuel : ℕ} {s s' : Space} {pages : ℕ}

/-- A run of pages is free if and only if every mapping lies in front of it or behind it. -/
theorem not_mapped_iff {tree : List Mapping} (hsep : Separated Mapping.startp Mapping.endp tree)
    (page : ℕ) (hpos : 0 < pages) :
    (∀ q, page ≤ q → q < page + pages → ¬ Mapped tree q) ↔
      ∀ e ∈ tree, e.endp ≤ page ∨ page + pages ≤ e.startp := by
  constructor
  · intro hfree e he
    by_contra hin
    have hne := hsep.nonempty e he
    -- the first page of the run that the mapping has
    exact hfree (max page e.startp) (by omega) (by omega) ⟨e, he, by omega, by omega⟩
  · rintro hall q hlo hhi ⟨e, he, hin⟩
    have := hall e he
    omega

/-- The search fails if and only if the first pages are free or no run of pages is. -/
theorem findFreeRegion_eq_zero (hsep : Separated Mapping.startp Mapping.endp s.tree)
    (hbound : ∀ e ∈ s.tree, e.endp ≤ 2 ^ 52) {length : ℕ} (hpos : 0 < divRoundup length psize) :
    s.findFreeRegion length = 0 →
      (∀ q < divRoundup length psize, ¬ Mapped s.tree q) ∨
        ∀ page, ¬ FreeRun s.tree page (divRoundup length psize) := by
  obtain ⟨r, hr, hcases, hall, hfirst⟩ :=
    findFreeLoop_spec (divRoundup length psize) hsep (fun e _ => Nat.zero_le _)
      fun e he => lt_of_le_of_lt (hbound e he) (by norm_num)
  have hle : r ≤ 2 ^ 52 := by
    rcases hcases with rfl | ⟨e, he, rfl⟩
    · exact Nat.zero_le _
    · exact hbound e he
  intro hzero
  rw [Space.findFreeRegion, hr, psize] at hzero
  by_cases hr0 : r = 0
  · subst hr0
    have hfree := (not_mapped_iff hsep 0 hpos).mpr hall
    exact Or.inl fun q hq => hfree q (Nat.zero_le _) (by omega)
  · -- the search ran to the end of the address space
    refine Or.inr fun page hrun => ?_
    have := hfirst page (Nat.zero_le _) ((not_mapped_iff hsep page hpos).mp hrun.2)
    have := hrun.1
    omega

/-- With the first pages free the search finds them, at address zero. -/
theorem findFreeRegion_of_first_free (hsep : Separated Mapping.startp Mapping.endp s.tree)
    (hbound : ∀ e ∈ s.tree, e.endp ≤ 2 ^ 52) {length : ℕ} (hpos : 0 < divRoundup length psize)
    (hfree : ∀ q < divRoundup length psize, ¬ Mapped s.tree q) : s.findFreeRegion length = 0 := by
  obtain ⟨r, hr, -, -, hfirst⟩ :=
    findFreeLoop_spec (divRoundup length psize) hsep (fun e _ => Nat.zero_le _)
      fun e he => lt_of_le_of_lt (hbound e he) (by norm_num)
  have hr0 := hfirst 0 le_rfl ((not_mapped_iff hsep 0 hpos).mp fun q _ hq => hfree q (by omega))
  rw [Space.findFreeRegion, hr, Nat.le_zero.mp hr0]
  rfl

/-- The region found lies between the mappings. -/
theorem findFreeRegion_free (hsep : Separated Mapping.startp Mapping.endp s.tree)
    (hbound : ∀ e ∈ s.tree, e.endp ≤ 2 ^ 52) {length : ℕ} (hne : s.findFreeRegion length ≠ 0) :
    s.findFreeRegion length % psize = 0 ∧
      ∀ e ∈ s.tree, e.endp ≤ startPage (s.findFreeRegion length) ∨
        startPage (s.findFreeRegion length) + divRoundup length psize ≤ e.startp := by
  obtain ⟨r, hr, hcases, hall, -⟩ :=
    findFreeLoop_spec (divRoundup length psize) hsep (fun e _ => Nat.zero_le _)
      fun e he => lt_of_le_of_lt (hbound e he) (by norm_num)
  have hle : r ≤ 2 ^ 52 := by
    rcases hcases with rfl | ⟨e, he, rfl⟩
    · exact Nat.zero_le _
    · exact hbound e he
  have heq : s.findFreeRegion length = r * psize := by
    rw [Space.findFreeRegion, hr, psize] at hne ⊢
    omega
  rw [heq, startPage, Nat.mul_div_cancel r (by decide : 0 < psize)]
  exact ⟨Nat.mul_mod_left r psize, hall⟩

/-- `mmap` without a fixed address fails with `ENOMEM` if and only if its search returns zero. -/
theorem mmap_enomem_of_search (hsep : Separated Mapping.startp Mapping.endp s.tree)
    (hbound : ∀ e ∈ s.tree, e.endp ≤ 2 ^ 52) {addr length offset : UInt64}
    {prot flags fd : BitVec 32} {file : Option (Option ℕ)} {memobject : ℕ}
    (hpass : PassesChecks addr.toNat length.toNat flags fd offset.toNat)
    (hfixed : flags.getLsbD 4 = false) :
    (∃ s', Returns (fun fuel => s.runUser pm fuel
        (.mmap addr length prot flags fd offset file memobject)) (s', .error .enomem)) ↔
      s.findFreeRegion length.toNat = 0 := by
  simp only [Space.runUser]
  constructor
  · rintro ⟨s', N, hN⟩
    have hret := hN N le_rfl
    dsimp only at hret
    rw [mmap_of_passes hpass, if_neg (by rw [hfixed]; exact Bool.false_ne_true)] at hret
    by_contra hne
    obtain ⟨hal, hfree⟩ := findFreeRegion_free hsep hbound hne
    have haddress : s.findFreeRegion length.toNat =
        (UInt64.ofNat (s.findFreeRegion length.toNat)).toNat :=
      (UInt64.toNat_ofNat_of_lt' (findFreeLoop_lt _ _ _)).symm
    rw [if_neg hne] at hret
    rw [haddress] at hret hal hfree
    exact mmapAt_ne_enomem hal hpass.length_aligned hpass.offset_aligned hfree hret
  · intro hzero
    refine ⟨s, Returns.of_eq fun fuel => ?_⟩
    rw [mmap_of_passes hpass, if_neg (by rw [hfixed]; exact Bool.false_ne_true), if_pos hzero]

end Search

/-- `mmap` without a fixed address reports `ENOMEM` for a lack of free pages only, if and only if one of
the first `length / psize` pages of the address space is mapped or these are the only free pages of that
number in a row. -/
theorem mmap_enomem_iff (pm : Pagemap) {s : Space}
    (hsep : Separated Mapping.startp Mapping.endp s.tree) (hbound : ∀ e ∈ s.tree, e.endp ≤ 2 ^ 52)
    {addr length offset : UInt64} {prot flags fd : BitVec 32} {file : Option (Option ℕ)}
    {memobject : ℕ} (hpass : PassesChecks addr.toNat length.toNat flags fd offset.toNat)
    (hfixed : flags.getLsbD 4 = false) :
    ((∃ s', Returns (fun fuel => s.runUser pm fuel
        (.mmap addr length prot flags fd offset file memobject)) (s', .error .enomem)) →
      ¬ ∃ page, 1 ≤ page ∧ FreeRun s.tree page (length.toNat / psize)) ↔
    ((∃ page < length.toNat / psize, Mapped s.tree page) ∨
      ∀ page, FreeRun s.tree page (length.toNat / psize) → page = 0) := by
  have hpages : divRoundup length.toNat psize = length.toNat / psize := by
    have hlt := length.toNat_lt
    have hlen := hpass.length_aligned
    rw [divRoundup_psize]
    rw [psize] at hlen ⊢
    omega
  have hpos : 0 < divRoundup length.toNat psize := by
    have hlen := hpass.length_aligned
    have hne := hpass.nonempty
    rw [hpages]
    rw [psize] at hlen ⊢
    omega
  rw [mmap_enomem_of_search hsep hbound hpass hfixed, ← hpages]
  constructor
  · intro honly
    by_contra hneither
    obtain ⟨hnone, hother⟩ := not_or.mp hneither
    push Not at hnone hother
    obtain ⟨page, hrun, hpage⟩ := hother
    exact honly (findFreeRegion_of_first_free hsep hbound hpos hnone) ⟨page, by omega, hrun⟩
  · rintro hcond hzero ⟨page, hpage, hrun⟩
    rcases findFreeRegion_eq_zero hsep hbound hpos hzero with hfree | hnone
    · rcases hcond with ⟨q, hq, hmapped⟩ | honly
      · exact hfree q hq hmapped
      · have := honly page hrun
        omega
    · exact hnone page hrun

/-- Page one is mapped, so a search for two pages does not stop at address zero. -/
theorem mmap_enomem_second_page : ∃ s : Space, s.tree = [⟨1, 20, 1, 0, 3, 0x22⟩] ∧
    ((∃ s', Returns (fun fuel => s.runUser exampleMachine fuel
        (.mmap 0 0x2000 3 0x22 (-1) 0 none 2)) (s', .error .enomem)) →
      ¬ ∃ page, 1 ≤ page ∧ FreeRun s.tree page (UInt64.toNat 0x2000 / psize)) := by
  refine ⟨{ Space.empty with tree := [⟨1, 20, 1, 0, 3, 0x22⟩] }, rfl, ?_⟩
  refine (mmap_enomem_iff exampleMachine ?_ ?_ ?_ rfl).mpr (Or.inl ⟨1, by decide, ?_⟩)
  · exact ⟨by decide, List.pairwise_singleton _ _⟩
  · decide
  · exact ⟨by decide, by decide, rfl, rfl, fun _ => by decide, fun h => (by cases h),
      fun h => (by cases h)⟩
  · exact ⟨_, List.mem_cons_self, le_rfl, by decide⟩

/-- In the empty tree of a new process a `mmap` of one page fails, although every page is free. -/
theorem mmap_fails_when_empty :
    Returns (fun fuel => Space.empty.runUser exampleMachine fuel
      (.mmap 0 0x1000 3 0x22 (-1) 0 none 1)) (Space.empty, .error .enomem) ∧
    FreeRun Space.empty.tree 1 (UInt64.toNat 0x1000 / psize) := by
  refine ⟨Returns.of_eq fun fuel => ?_, by decide, ?_⟩
  · have hpass : PassesChecks (UInt64.toNat 0) (UInt64.toNat 0x1000) 0x22 (-1) (UInt64.toNat 0) :=
      ⟨by decide, by decide, rfl, rfl, fun _ => by decide, fun h => (by cases h),
        fun h => (by cases h)⟩
    simp only [Space.runUser]
    rw [mmap_of_passes hpass, if_neg (by decide), if_pos (by decide +kernel)]
  · rintro q - - ⟨e, he, -⟩
    cases he

end Ilobilix.Vmm
