import Ilobilix.Memory.Vmm.Tree

/-!
# What `is_mapped` answers

`is_mapped` goes through the mappings that overlap its range in ascending order and keeps the page up to
which everything is covered. The bound starts at page zero and not at the first page of the range, and
the range ends `lib::div_roundup(length, psize)` pages behind its first page, also where `addr` is in the
middle of a page. So the answer is about the pages below the range as well and not about all pages of the
range: `isMapped_eq_true_iff`. It is right under the condition in `isMapped_correct_iff` only.
-/

namespace Ilobilix.Vmm

open Lib Intervals

/-- Some mapping has the page. -/
def Mapped (tree : List Mapping) (page : ℕ) : Prop :=
  ∃ entry ∈ tree, entry.startp ≤ page ∧ page < entry.endp

/-- The number of pages from the page of `addr` on that `is_mapped` looks at. -/
def countedPages (length : ℕ) : ℕ := divRoundup length psize

theorem countedPages_eq (length : ℕ) :
    countedPages length = (length + psize - 1) % 2 ^ 64 / psize := divRoundup_psize length

section Scan

variable {tree : List Mapping} {startp endp covered : ℕ}

theorem mapped_cons {entry : Mapping} {page : ℕ} :
    Mapped (entry :: tree) page ↔
      (entry.startp ≤ page ∧ page < entry.endp) ∨ Mapped tree page := by
  simp [Mapped]

/-- The loop says whether every page between the bound and the end of the range is covered, as long as
no entry starts below the bound. -/
theorem isMappedLoop_eq_true_iff (hsep : Separated Mapping.startp Mapping.endp tree)
    (hbounds : ∀ entry ∈ tree, covered ≤ entry.startp ∧ entry.startp < endp) :
    isMappedLoop endp tree covered = true ↔
      ∀ page, covered ≤ page → page < endp → Mapped tree page := by
  induction tree generalizing covered with
  | nil =>
      rw [isMappedLoop, decide_eq_true_eq]
      constructor
      · intro hle page hlo hhi
        omega
      · intro hall
        by_contra hlt
        obtain ⟨entry, hmem, -⟩ := hall covered le_rfl (by omega)
        cases hmem
  | cons entry tree ih =>
      obtain ⟨hstart, hinside⟩ := hbounds entry List.mem_cons_self
      have hne := hsep.nonempty entry List.mem_cons_self
      have hnext := (List.pairwise_cons.mp hsep.sorted).1
      rw [isMappedLoop, if_neg (by omega)]
      by_cases hgap : covered < entry.startp
      · -- the page at the bound is in front of every entry
        rw [if_pos hgap]
        refine ⟨fun h => (by cases h), fun hall => ?_⟩
        rcases mapped_cons.mp (hall covered le_rfl (by omega)) with ⟨hle, -⟩ | ⟨e, he, hle, -⟩
        · omega
        · have := hnext e he
          omega
      · rw [if_neg hgap]
        have hmax : max covered (min endp entry.endp) = min endp entry.endp := by omega
        dsimp only
        rw [hmax]
        by_cases hdone : endp ≤ min endp entry.endp
        · rw [if_pos hdone]
          refine ⟨fun _ page hlo hhi => mapped_cons.mpr (Or.inl ?_), fun _ => rfl⟩
          omega
        · -- the entry covers the pages up to its end, the rest is up to the entries behind it
          rw [if_neg hdone, min_eq_right (by omega), ih hsep.of_cons fun e he =>
            ⟨hnext e he, (hbounds e (List.mem_cons_of_mem entry he)).2⟩]
          constructor
          · intro hall page hlo hhi
            by_cases hpage : page < entry.endp
            · exact mapped_cons.mpr (Or.inl (by omega))
            · exact mapped_cons.mpr (Or.inr (hall page (by omega) hhi))
          · intro hall page hlo hhi
            rcases mapped_cons.mp (hall page (by omega) hhi) with hin | hin
            · omega
            · exact hin

/-- The scan accepts a range if its pages are covered and the mapping of its first page begins at page
zero. -/
theorem scan_eq_true_iff (hsep : Separated Mapping.startp Mapping.endp tree) (hlt : startp < endp) :
    isMappedLoop endp (tree.filter (overlaps startp endp)) 0 = true ↔
      (∀ page, startp ≤ page → page < endp → Mapped tree page) ∧
        ∃ entry ∈ tree, entry.startp = 0 ∧ startp < entry.endp := by
  rw [isMappedLoop_eq_true_iff (hsep.filter _) fun e he =>
    ⟨Nat.zero_le _, (overlaps_iff.mp (List.mem_filter.mp he).2).2⟩]
  constructor
  · intro hall
    refine ⟨fun page _ hhi => ?_, ?_⟩
    · obtain ⟨e, he, hin⟩ := hall page (Nat.zero_le _) hhi
      exact ⟨e, (List.mem_filter.mp he).1, hin⟩
    · obtain ⟨e, he, hle, -⟩ := hall 0 le_rfl (by omega)
      obtain ⟨hmem, hover⟩ := List.mem_filter.mp he
      exact ⟨e, hmem, by omega, (overlaps_iff.mp hover).1⟩
  · rintro ⟨hall, e, he, hzero, hend⟩ page - hhi
    by_cases hpage : page < startp
    · exact ⟨e, List.mem_filter.mpr ⟨he, overlaps_iff.mpr ⟨hend, by omega⟩⟩, by omega, by omega⟩
    · obtain ⟨e', he', hin⟩ := hall page (by omega) hhi
      exact ⟨e', List.mem_filter.mpr ⟨he', overlaps_iff.mpr ⟨by omega, by omega⟩⟩, hin⟩

end Scan

/-- A page has bytes of `[addr, addr + length)`. -/
def Intersects (addr length page : ℕ) : Prop :=
  addr < (page + 1) * psize ∧ page * psize < addr + length

section IsMapped

variable {s : Space} {addr length : ℕ}

/-- The pages that `is_mapped` looks at are pages of the range. -/
theorem intersects_of_counted {page : ℕ} (hpos : 0 < length) (hlo : startPage addr ≤ page)
    (hhi : page < startPage addr + countedPages length) : Intersects addr length page := by
  rw [countedPages_eq] at hhi
  simp only [startPage, Intersects, psize] at *
  omega

theorem intersects_iff {page : ℕ} :
    Intersects addr length page ↔ startPage addr ≤ page ∧ page * psize < addr + length := by
  simp only [startPage, Intersects, psize]
  omega

/-- `is_mapped` looks at no page, or at the pages from the first one of the range on, and then wants the
mapping of that page to begin at page zero. -/
theorem isMapped_eq_true_iff (hsep : Separated Mapping.startp Mapping.endp s.tree) (hpos : 0 < length)
    (hsum : addr + length < 2 ^ 64) :
    s.isMapped addr length = true ↔
      (∀ page, startPage addr ≤ page → page < startPage addr + countedPages length →
        Mapped s.tree page) ∧
      (countedPages length = 0 ∨ ∃ entry ∈ s.tree, entry.startp = 0 ∧ startPage addr < entry.endp) := by
  have hend : (startPage addr + divRoundup length psize) % 2 ^ 64 =
      startPage addr + countedPages length := by
    rw [← countedPages, countedPages_eq]
    simp only [startPage, psize]
    omega
  rw [Space.isMapped, if_neg (by omega)]
  dsimp only
  rw [hend]
  by_cases hcount : countedPages length = 0
  · -- only a length above `2 ^ 64 - psize` counts no page, and the range then starts in page zero
    have hzero : startPage addr = 0 := by
      rw [countedPages_eq] at hcount
      simp only [startPage, psize] at *
      omega
    have hnil : s.tree.filter (overlaps 0 0) = [] := by
      rw [List.filter_eq_nil_iff]
      intro e _ hover
      exact absurd (overlaps_iff.mp hover).2 (Nat.not_lt_zero _)
    rw [hcount, hzero, Nat.zero_add, hnil]
    refine iff_of_true rfl ⟨fun page _ hhi => ?_, Or.inl rfl⟩
    exact absurd hhi (Nat.not_lt_zero _)
  · rw [scan_eq_true_iff hsep (by omega)]
    simp [hcount]

end IsMapped

/-- `is_mapped` says whether every page of the range is covered if and only if, where all pages that it
looks at are covered, the mapping of the first one begins at page zero (or there is none) exactly when
the pages of the range that it does not look at are covered too. -/
theorem isMapped_correct_iff {s : Space} (hsep : Separated Mapping.startp Mapping.endp s.tree)
    (addr length : UInt64) (hpos : 0 < length.toNat) (hsum : addr.toNat + length.toNat < 2 ^ 64) :
    (s.isMapped addr.toNat length.toNat = true ↔
      ∀ page, Intersects addr.toNat length.toNat page → Mapped s.tree page) ↔
    ((∀ page, startPage addr.toNat ≤ page →
        page < startPage addr.toNat + countedPages length.toNat → Mapped s.tree page) →
      ((countedPages length.toNat = 0 ∨
          ∃ entry ∈ s.tree, entry.startp = 0 ∧ startPage addr.toNat < entry.endp) ↔
        ∀ page, startPage addr.toNat + countedPages length.toNat ≤ page →
          page * psize < addr.toNat + length.toNat → Mapped s.tree page)) := by
  rw [isMapped_eq_true_iff hsep hpos hsum]
  -- the pages of the range are those counted and those behind them
  have hsplit : (∀ page, Intersects addr.toNat length.toNat page → Mapped s.tree page) ↔
      (∀ page, startPage addr.toNat ≤ page →
        page < startPage addr.toNat + countedPages length.toNat → Mapped s.tree page) ∧
      ∀ page, startPage addr.toNat + countedPages length.toNat ≤ page →
        page * psize < addr.toNat + length.toNat → Mapped s.tree page := by
    constructor
    · intro hall
      refine ⟨fun page hlo hhi => hall page (intersects_of_counted hpos hlo hhi), ?_⟩
      intro page hlo hhi
      exact hall page (intersects_iff.mpr ⟨by omega, hhi⟩)
    · rintro ⟨hcounted, hrest⟩ page hin
      obtain ⟨hlo, hhi⟩ := intersects_iff.mp hin
      by_cases hpage : page < startPage addr.toNat + countedPages length.toNat
      · exact hcounted page hlo hpage
      · exact hrest page (by omega) hhi
  rw [hsplit]
  exact and_congr_right_iff

/-- A mapping from page zero on covers a range in it, and `is_mapped` says so. -/
theorem isMapped_correct_at_zero : ∃ s : Space, s.tree = [⟨0, 4, 1, 0, 3, 0x22⟩] ∧
    (s.isMapped (UInt64.toNat 0x1000) (UInt64.toNat 0x2000) = true ↔
      ∀ page, Intersects (UInt64.toNat 0x1000) (UInt64.toNat 0x2000) page → Mapped s.tree page) := by
  refine ⟨{ Space.empty with tree := [⟨0, 4, 1, 0, 3, 0x22⟩] }, rfl, ?_⟩
  refine (isMapped_correct_iff ?_ 0x1000 0x2000 (by decide) (by decide)).mpr fun _ => ?_
  · exact ⟨by decide, List.pairwise_singleton _ _⟩
  · -- two pages are counted, and no page of the range is left
    refine iff_of_true (Or.inr ⟨_, List.mem_cons_self, rfl, by decide⟩) fun page hlo hhi => ?_
    have hcounted : startPage (UInt64.toNat 0x1000) + countedPages (UInt64.toNat 0x2000) = 3 := by
      decide
    have hsum : UInt64.toNat 0x1000 + UInt64.toNat 0x2000 = 0x3000 := by decide
    rw [hcounted] at hlo
    rw [hsum, psize] at hhi
    omega

/-- A range is mapped and `is_mapped` says that it is not, since the mapping does not begin at page
zero. -/
theorem isMapped_misses : ∃ s : Space, Separated Mapping.startp Mapping.endp s.tree ∧
    s.isMapped (UInt64.toNat 0x1000) (UInt64.toNat 0x1000) = false ∧
    ∀ page, Intersects (UInt64.toNat 0x1000) (UInt64.toNat 0x1000) page → Mapped s.tree page := by
  refine ⟨{ Space.empty with tree := [⟨1, 2, 1, 0, 3, 0x22⟩] }, ?_, by decide, ?_⟩
  · exact ⟨by decide, List.pairwise_singleton _ _⟩
  · rintro page ⟨hlo, hhi⟩
    refine ⟨_, List.mem_cons_self, ?_⟩
    have hlow : UInt64.toNat 0x1000 = 0x1000 := rfl
    rw [hlow, psize] at hlo hhi
    show 1 ≤ page ∧ page < 2
    omega

end Ilobilix.Vmm
