import Ilobilix.Memory.Vmm.Calls

/-!
# The tree of mappings

As long as the pieces that replace an entry are nonempty and disjoint, the tree is a sorted list of
nonempty disjoint mappings and `erase`, which removes by key, removes the entry it is given.

`map` emits an empty tail for an entry that begins below the range and ends in it (its test is
`endp != 0` where `tailp != 0` is meant), a wrapped range has its end below its start, and a `protect`
of no pages emits an empty piece. `Space.KeepsTree` is the condition that excludes these.
-/

namespace Ilobilix.Vmm

open Lib Intervals

/-! ## Ranges -/

/-- The end of a range is the rounded-up end address, which may wrap around. -/
theorem divRoundup_psize (n : ℕ) : divRoundup n psize = (n + psize - 1) % 2 ^ 64 / psize := by
  have hwrap : (n + psize + (2 ^ 64 - 1)) % 2 ^ 64 = (n + psize - 1) % 2 ^ 64 := by
    rw [show n + psize + (2 ^ 64 - 1) = (n + psize - 1) + 2 ^ 64 by rw [psize]; omega,
      Nat.add_mod_right]
  rw [divRoundup, hwrap, show psize = 2 ^ 12 from rfl,
    alignDown_two_pow (Nat.mod_lt _ (Nat.two_pow_pos 64)) (by norm_num),
    Nat.mul_div_cancel _ (Nat.two_pow_pos 12)]

theorem startPage_lt (address : UInt64) : startPage address.toNat < 2 ^ 52 := by
  have h := address.toNat_lt
  rw [startPage, psize]
  omega

theorem divRoundup_lt (n : ℕ) : divRoundup n psize < 2 ^ 52 := by
  have h : (n + psize - 1) % 2 ^ 64 < 2 ^ 64 := Nat.mod_lt _ (Nat.two_pow_pos 64)
  rw [divRoundup_psize, psize]
  rw [psize] at h
  omega

theorem SpaceOp.startp_lt (op : SpaceOp) : op.startp < 2 ^ 52 := by
  cases op with
  | map address => exact startPage_lt address
  | unmap address => exact startPage_lt address
  | unmapObj => exact Nat.two_pow_pos 52
  | protect address => exact startPage_lt address

theorem SpaceOp.endp_lt (op : SpaceOp) : op.endp < 2 ^ 53 := by
  cases op with
  | map => exact lt_trans (divRoundup_lt _) (by norm_num)
  | unmap => exact lt_trans (divRoundup_lt _) (by norm_num)
  | unmapObj => exact Nat.two_pow_pos 53
  | protect address length =>
      have h₁ := startPage_lt address
      have h₂ := divRoundup_lt length.toNat
      rw [SpaceOp.endp, Nat.mod_eq_of_lt (by omega)]
      omega

/-! ## Pieces -/

/-- The parts of an entry below and above a range; `offsetp` is that of the upper part. -/
def outside (startp endp offsetp : ℕ) (entry : Mapping) : List Mapping :=
  (if entry.startp < startp then [{ entry with endp := startp }] else []) ++
    (if endp < entry.endp then [{ entry with startp := endp, offsetp := offsetp }] else [])

theorem mem_outside {startp endp offsetp : ℕ} {entry x : Mapping} :
    x ∈ outside startp endp offsetp entry ↔
      (entry.startp < startp ∧ x = { entry with endp := startp }) ∨
      (endp < entry.endp ∧ x = { entry with startp := endp, offsetp := offsetp }) := by
  rw [outside, List.mem_append]
  refine or_congr ?_ ?_
  · split
    · rename_i h
      rw [List.mem_singleton, and_iff_right h]
    · rename_i h
      simp [h]
  · split
    · rename_i h
      rw [List.mem_singleton, and_iff_right h]
    · rename_i h
      simp [h]

theorem piecesOf_outside {startp endp : ℕ} (offsetp : ℕ) {entry : Mapping} (hle : startp ≤ endp)
    (hover : overlaps startp endp entry = true) :
    PiecesOf Mapping.startp Mapping.endp entry (outside startp endp offsetp entry) := by
  obtain ⟨hlo, hhi⟩ : startp < entry.endp ∧ entry.startp < endp := by
    simpa [overlaps] using hover
  refine ⟨fun x hx => ?_, ?_⟩
  · obtain ⟨h, rfl⟩ | ⟨h, rfl⟩ := mem_outside.mp hx
    · exact ⟨le_rfl, h, hlo.le⟩
    · exact ⟨hhi.le, h, le_rfl⟩
  · rw [outside]
    split
    · split
      · exact List.pairwise_pair.mpr (Or.inl hle)
      · exact List.pairwise_singleton _ _
    · split
      · exact List.pairwise_singleton _ _
      · exact List.Pairwise.nil

/-- The parts of an entry outside of a range are apart from the range. -/
theorem apart_of_mem_outside {startp endp offsetp : ℕ} {entry x m : Mapping}
    (hx : x ∈ outside startp endp offsetp entry) (hstart : m.startp = startp) (hend : m.endp = endp) :
    Apart Mapping.startp Mapping.endp m x := by
  obtain ⟨-, rfl⟩ | ⟨-, rfl⟩ := mem_outside.mp hx
  · exact Or.inr hstart.ge
  · exact Or.inl hend.le

theorem wsub_of_le {a b : ℕ} (hb : b ≤ a) (ha : a - b < 2 ^ 64) : wsub a b = a - b := by
  rw [wsub, show a + 2 ^ 64 - b = (a - b) + 2 ^ 64 by omega, Nat.add_mod_right, Nat.mod_eq_of_lt ha]

/-- The entry begins below the range and ends in it. -/
def Mapping.EndsInside (startp endp : ℕ) (entry : Mapping) : Prop :=
  entry.startp < startp ∧ startp < entry.endp ∧ entry.endp ≤ endp

instance (startp endp : ℕ) (entry : Mapping) : Decidable (entry.EndsInside startp endp) :=
  inferInstanceAs (Decidable (_ ∧ _ ∧ _))

/-- The entry begins in the range and ends above it. -/
def Mapping.BeginsInside (startp endp : ℕ) (entry : Mapping) : Prop :=
  startp < entry.startp ∧ entry.startp < endp ∧ endp < entry.endp

instance (startp endp : ℕ) (entry : Mapping) : Decidable (entry.BeginsInside startp endp) :=
  inferInstanceAs (Decidable (_ ∧ _ ∧ _))

section Pieces

variable {startp endp : ℕ} {entry : Mapping}

/-- What `map` leaves of an entry that does not end inside the range. -/
theorem mapPieces_eq (hstart : startp < endp) (hend : endp < 2 ^ 64)
    (hover : overlaps startp endp entry = true) (hinside : ¬ entry.EndsInside startp endp) :
    mapPieces startp endp entry =
      outside startp endp ((entry.offsetp + (startp - entry.startp) + wsub endp startp) % 2 ^ 64)
        entry := by
  obtain ⟨hlo, hhi⟩ : startp < entry.endp ∧ entry.startp < endp := by
    simpa [overlaps] using hover
  rw [mapPieces, outside]
  by_cases hcover : startp ≤ entry.startp ∧ entry.endp ≤ endp
  · rw [if_pos hcover, if_neg (by omega), if_neg (by omega)]
    rfl
  · have htail : endp < entry.endp := by
      by_contra hle
      exact hinside ⟨by omega, hlo, by omega⟩
    have hheadp : (if startp < entry.startp then 0 else startp - entry.startp) =
        startp - entry.startp := by
      split
      · omega
      · rfl
    rw [if_neg hcover]
    simp only [hheadp, if_neg (show ¬ entry.endp ≤ endp by omega)]
    rw [if_pos (show endp ≠ 0 by omega), if_pos htail,
      wsub_of_le (show entry.endp - endp ≤ entry.endp by omega) (by omega),
      show entry.endp - (entry.endp - endp) = endp by omega]
    congr 1
    by_cases hhead : entry.startp < startp
    · rw [if_pos hhead, if_pos (show startp - entry.startp ≠ 0 by omega),
        show entry.startp + (startp - entry.startp) = startp by omega,
        Nat.mod_eq_of_lt (by omega)]
    · rw [if_neg hhead, if_neg (show ¬ startp - entry.startp ≠ 0 by omega)]

/-- The index in the object of the page at the end of the range, as `unmap` and `protect` compute it. -/
def tailOffset (endp : ℕ) (entry : Mapping) : ℕ :=
  wsub (entry.offsetp + wsub entry.endp entry.startp) (entry.endp - endp)

/-- The two remaining parts in `unmap` and `protect`. -/
theorem remaining_eq (hstart : startp < 2 ^ 64) (hend : endp < 2 ^ 64) :
    ((if (if entry.startp < startp then startp - entry.startp else 0) ≠ 0 then
        [{ entry with endp := (entry.startp +
            (if entry.startp < startp then startp - entry.startp else 0)) % 2 ^ 64 }] else []) ++
      if (if endp < entry.endp then entry.endp - endp else 0) ≠ 0 then
        [{ entry with
            startp := wsub entry.endp (if endp < entry.endp then entry.endp - endp else 0)
            offsetp := wsub (entry.offsetp + wsub entry.endp entry.startp)
              (if endp < entry.endp then entry.endp - endp else 0) }] else []) =
      outside startp endp (tailOffset endp entry) entry := by
  rw [outside]
  congr 1
  · by_cases hhead : entry.startp < startp
    · simp only [if_pos hhead]
      rw [if_pos (show startp - entry.startp ≠ 0 by omega),
        show entry.startp + (startp - entry.startp) = startp by omega, Nat.mod_eq_of_lt hstart]
    · simp only [if_neg hhead]
      rw [if_neg (not_not.mpr rfl)]
  · by_cases htail : endp < entry.endp
    · simp only [if_pos htail]
      rw [if_pos (show entry.endp - endp ≠ 0 by omega), tailOffset,
        wsub_of_le (show entry.endp - endp ≤ entry.endp by omega) (by omega),
        show entry.endp - (entry.endp - endp) = endp by omega]
    · simp only [if_neg htail]
      rw [if_neg (not_not.mpr rfl)]

/-- What `unmap` leaves of an entry. -/
theorem unmapPieces_eq (hstart : startp < 2 ^ 64) (hend : endp < 2 ^ 64) :
    unmapPieces startp endp entry = outside startp endp (tailOffset endp entry) entry := by
  rw [unmapPieces]
  split
  · rename_i hcover
    rw [outside, if_neg (by omega), if_neg (by omega)]
    rfl
  · exact remaining_eq hstart hend

/-- The part of an entry in a range, with another protection. -/
def inside (startp endp : ℕ) (prot : BitVec 8) (entry : Mapping) : Mapping :=
  { entry with
    startp := max startp entry.startp
    endp := min endp entry.endp
    offsetp := (entry.offsetp + (startp - entry.startp)) % 2 ^ 64
    prot := prot }

/-- What `protect` makes of an entry. -/
theorem protectPieces_eq (prot : BitVec 8) (hstart : startp < 2 ^ 64) (hend : endp < 2 ^ 64)
    (hoff : entry.offsetp < 2 ^ 64) :
    protectPieces startp endp prot entry =
      outside startp endp (tailOffset endp entry) entry ++ [inside startp endp prot entry] := by
  rw [protectPieces]
  split
  · rename_i hcover
    rw [outside, if_neg (by omega), if_neg (by omega), inside, Nat.max_eq_right hcover.1,
      Nat.min_eq_right hcover.2, Nat.sub_eq_zero_of_le hcover.1, Nat.add_zero, Nat.mod_eq_of_lt hoff]
    rfl
  · have hheadp : (if entry.startp < startp then startp - entry.startp else 0) =
        startp - entry.startp := by
      split
      · rfl
      · omega
    have hrest := @remaining_eq startp endp entry hstart hend
    dsimp only
    rw [hrest, hheadp]
    rfl

/-- The part in the range goes with the parts outside of it. -/
theorem piecesOf_protect (offsetp : ℕ) (prot : BitVec 8) (hlt : startp < endp)
    (hover : overlaps startp endp entry = true) (hne : entry.startp < entry.endp) :
    PiecesOf Mapping.startp Mapping.endp entry
      (outside startp endp offsetp entry ++ [inside startp endp prot entry]) := by
  obtain ⟨hlo, hhi⟩ : startp < entry.endp ∧ entry.startp < endp := by
    simpa [overlaps] using hover
  have hout := piecesOf_outside offsetp hlt.le hover
  refine ⟨fun x hx => ?_, List.pairwise_append.mpr
    ⟨hout.apart, List.pairwise_singleton _ _, fun x hx y hy => ?_⟩⟩
  · rcases List.mem_append.mp hx with hx | hx
    · exact hout.within x hx
    · rw [List.mem_singleton] at hx
      subst hx
      simp only [inside]
      omega
  · rw [List.mem_singleton] at hy
    subst hy
    obtain ⟨h, rfl⟩ | ⟨h, rfl⟩ := mem_outside.mp hx
    · exact Or.inl (le_max_left _ _)
    · exact Or.inr (min_le_left _ _)

end Pieces

/-! ## The invariant -/

/-- The invariant of the tree: the mappings are nonempty, disjoint and sorted, and their fields are
those of 64-bit addresses. -/
structure TreeWf (tree : List Mapping) : Prop where
  separated : Separated Mapping.startp Mapping.endp tree
  bounded : ∀ m ∈ tree, m.endp < 2 ^ 52 ∧ m.offsetp < 2 ^ 64

/-- The calls that keep the invariant of the tree. -/
def SpaceOp.KeepsTree (tree : List Mapping) (op : SpaceOp) : Prop :=
  op.aligned = true →
    match op with
    | .map .. =>
        (op.startp < op.endp ∨ op.blocked tree = true) ∧
          ∀ e ∈ tree, e.untouchable = false → ¬ e.EndsInside op.startp op.endp
    | .unmap .. =>
        op.startp ≤ op.endp ∨
          ∀ e ∈ tree, e.untouchable = false → overlaps op.startp op.endp e = false
    | .unmapObj _ => True
    | .protect .. =>
        op.startp < op.endp ∨
          ∀ e ∈ tree, e.untouchable = false → overlaps op.startp op.endp e = false

instance (tree : List Mapping) (op : SpaceOp) : Decidable (op.KeepsTree tree) :=
  match op with
  | .map .. => inferInstanceAs (Decidable (_ = true → _ ∧ _))
  | .unmap .. => inferInstanceAs (Decidable (_ = true → _ ∨ _))
  | .unmapObj _ => inferInstanceAs (Decidable (_ = true → True))
  | .protect .. => inferInstanceAs (Decidable (_ = true → _ ∨ _))

section Invariant

variable {tree : List Mapping} {op : SpaceOp} {e : Mapping}

theorem SpaceOp.aligned_of_mem_entries (h : e ∈ op.entries tree) : op.aligned = true := by
  rw [SpaceOp.entries] at h
  split at h
  · assumption
  · cases h

/-- An entry that a call with a range replaces overlaps the range. -/
theorem SpaceOp.overlaps_of_mem_entries (hop : ∀ obj, op ≠ .unmapObj obj) (h : e ∈ op.entries tree) :
    overlaps op.startp op.endp e = true := by
  rw [SpaceOp.entries, if_pos (SpaceOp.aligned_of_mem_entries h)] at h
  cases op with
  | map => exact (List.mem_filter.mp ((List.takeWhile_sublist _).mem h)).2
  | unmap => exact (Bool.and_eq_true_iff.mp (List.mem_filter.mp h).2).1
  | unmapObj obj => exact absurd rfl (hop obj)
  | protect => exact (Bool.and_eq_true_iff.mp (List.mem_filter.mp h).2).1

theorem overlaps_iff {startp endp : ℕ} :
    overlaps startp endp e = true ↔ startp < e.endp ∧ e.startp < endp := by
  rw [overlaps, Bool.and_eq_true_iff, decide_eq_true_iff, decide_eq_true_iff]

/-- An entry that overlaps a range whose end is not above its start covers the start, so there is at
most one. -/
theorem TreeWf.eq_of_overlaps (htree : TreeWf tree) {a b : Mapping} {startp endp : ℕ}
    (hle : endp ≤ startp) (ha : a ∈ tree) (hb : b ∈ tree) (hao : overlaps startp endp a = true)
    (hbo : overlaps startp endp b = true) : a = b := by
  rw [overlaps_iff] at hao hbo
  exact htree.separated.eq_of_covers ha hb ⟨le_trans hao.2.le hle, hao.1⟩
    ⟨le_trans hbo.2.le hle, hbo.1⟩

/-- A `map` that keeps the tree and replaces an entry has a proper range: a wrapped range overlaps one
entry at most, and if that is untouchable, nothing is replaced. -/
theorem SpaceOp.KeepsTree.map_range {address length offset : UInt64} {prot flags : BitVec 8}
    {obj : ℕ} (htree : TreeWf tree)
    (h : SpaceOp.KeepsTree tree (.map address length prot flags obj offset))
    (he : e ∈ SpaceOp.entries tree (.map address length prot flags obj offset)) :
    startPage address.toNat < endPage address.toNat length.toNat := by
  have hover := SpaceOp.overlaps_of_mem_entries (fun _ => SpaceOp.noConfusion) he
  obtain ⟨hmem, hu⟩ := SpaceOp.mem_entries he
  obtain ⟨hlt | hblocked, -⟩ := h (SpaceOp.aligned_of_mem_entries he)
  · exact hlt
  · by_contra hle
    obtain ⟨u, hu', hun⟩ := List.any_eq_true.mp hblocked
    obtain ⟨hut, huo⟩ := List.mem_filter.mp hu'
    rw [htree.eq_of_overlaps (not_lt.mp hle) hmem hut hover huo, hun] at hu
    cases hu

/-- The pieces of an entry are nonempty disjoint parts of it. -/
theorem SpaceOp.KeepsTree.pieces (htree : TreeWf tree) (h : op.KeepsTree tree) (he : e ∈ op.entries tree) :
    PiecesOf Mapping.startp Mapping.endp e (op.pieces e) ∧ ∀ x ∈ op.pieces e, x.offsetp < 2 ^ 64 := by
  have hstart : op.startp < 2 ^ 64 := lt_trans op.startp_lt (by norm_num)
  have hend : op.endp < 2 ^ 64 := lt_trans op.endp_lt (by norm_num)
  obtain ⟨hmem, hu⟩ := SpaceOp.mem_entries he
  obtain ⟨-, hoff⟩ := htree.bounded e hmem
  have hkeep := h (SpaceOp.aligned_of_mem_entries he)
  have houtside : ∀ off < 2 ^ 64, ∀ x ∈ outside op.startp op.endp off e, x.offsetp < 2 ^ 64 := by
    intro off hlt x hx
    obtain ⟨-, rfl⟩ | ⟨-, rfl⟩ := mem_outside.mp hx
    · exact hoff
    · exact hlt
  cases op with
  | map address length prot flags obj offset =>
      have hover := SpaceOp.overlaps_of_mem_entries (fun _ => SpaceOp.noConfusion) he
      have hlt := SpaceOp.KeepsTree.map_range htree h he
      have hpieces := mapPieces_eq hlt hend hover (hkeep.2 e hmem hu)
      rw [SpaceOp.pieces]
      simp only [SpaceOp.startp, SpaceOp.endp] at houtside hover ⊢
      rw [hpieces]
      exact ⟨piecesOf_outside _ hlt.le hover, houtside _ (Nat.mod_lt _ (Nat.two_pow_pos 64))⟩
  | unmap address length =>
      have hover := SpaceOp.overlaps_of_mem_entries (fun _ => SpaceOp.noConfusion) he
      have hle := hkeep.resolve_right fun hnone => by
        rw [hnone e hmem hu] at hover
        cases hover
      rw [SpaceOp.pieces, unmapPieces_eq hstart hend]
      exact ⟨piecesOf_outside _ hle hover, houtside _ (Nat.mod_lt _ (Nat.two_pow_pos 64))⟩
  | unmapObj obj => exact ⟨PiecesOf.nil e, fun x hx => by cases hx⟩
  | protect address length prot =>
      have hover := SpaceOp.overlaps_of_mem_entries (fun _ => SpaceOp.noConfusion) he
      have hlt := hkeep.resolve_right fun hnone => by
        rw [hnone e hmem hu] at hover
        cases hover
      rw [SpaceOp.pieces, protectPieces_eq prot hstart hend hoff]
      refine ⟨piecesOf_protect _ prot hlt hover (htree.separated.nonempty e hmem), fun x hx => ?_⟩
      rcases List.mem_append.mp hx with hx | hx
      · exact houtside _ (Nat.mod_lt _ (Nat.two_pow_pos 64)) x hx
      · rw [List.mem_singleton] at hx
        subst hx
        exact Nat.mod_lt _ (Nat.two_pow_pos 64)

/-- The tree after the loop of a call. -/
theorem SpaceOp.KeepsTree.replaceEntries (htree : TreeWf tree) (h : op.KeepsTree tree) {n : ℕ} :
    TreeWf (replaceEntries Mapping.startp op.pieces ((op.entries tree).take n) tree) ∧
      ∀ x, x ∈ replaceEntries Mapping.startp op.pieces ((op.entries tree).take n) tree ↔
        (x ∈ tree ∧ x ∉ (op.entries tree).take n) ∨ ∃ e ∈ (op.entries tree).take n, x ∈ op.pieces e := by
  obtain ⟨hsep, hmem⟩ := htree.separated.mem_replaceEntries
    (fun e he => (SpaceOp.mem_entries (List.mem_of_mem_take he)).1)
    ((op.nodup_entries htree.separated.nodup).sublist (List.take_sublist n _))
    (fun e he => (h.pieces htree (List.mem_of_mem_take he)).1)
  refine ⟨⟨hsep, fun x hx => ?_⟩, hmem⟩
  rcases (hmem x).mp hx with ⟨hx, -⟩ | ⟨e, he, hx⟩
  · exact htree.bounded x hx
  · have he := List.mem_of_mem_take he
    obtain ⟨hpieces, hoff⟩ := h.pieces htree he
    exact ⟨lt_of_le_of_lt (hpieces.within x hx).2.2 (htree.bounded e (SpaceOp.mem_entries he).1).1,
      hoff x hx⟩

/-- The tree after the whole loop of a call. -/
theorem SpaceOp.KeepsTree.afterLoop (htree : TreeWf tree) (h : op.KeepsTree tree) :
    TreeWf (Intervals.replaceEntries Mapping.startp op.pieces (op.entries tree) tree) ∧
      ∀ x, x ∈ Intervals.replaceEntries Mapping.startp op.pieces (op.entries tree) tree ↔
        (x ∈ tree ∧ x ∉ op.entries tree) ∨ ∃ e ∈ op.entries tree, x ∈ op.pieces e := by
  have hall := h.replaceEntries htree (n := (op.entries tree).length)
  rwa [List.take_length] at hall

/-- A `map` that is not blocked replaces every entry that overlaps its range. -/
theorem SpaceOp.map_entries {address length offset : UInt64} {prot flags : BitVec 8} {obj : ℕ}
    (hal : SpaceOp.aligned (.map address length prot flags obj offset) = true)
    (hb : SpaceOp.blocked tree (.map address length prot flags obj offset) = false) :
    SpaceOp.entries tree (.map address length prot flags obj offset) =
      tree.filter (overlaps (startPage address.toNat) (endPage address.toNat length.toNat)) := by
  rw [SpaceOp.entries, if_pos hal]
  refine List.takeWhile_eq_self_iff.mpr fun x hx => ?_
  simpa using List.any_eq_false.mp hb x hx

/-- The range of a `map` is free after its loop. -/
theorem SpaceOp.KeepsTree.map_apart {address length offset : UInt64} {prot flags : BitVec 8}
    {obj : ℕ} (htree : TreeWf tree)
    (h : SpaceOp.KeepsTree tree (.map address length prot flags obj offset))
    (hal : SpaceOp.aligned (.map address length prot flags obj offset) = true)
    (hb : SpaceOp.blocked tree (.map address length prot flags obj offset) = false) {m x : Mapping}
    (hstart : m.startp = startPage address.toNat)
    (hend : m.endp = endPage address.toNat length.toNat)
    (hx : x ∈ Intervals.replaceEntries Mapping.startp
      (SpaceOp.pieces (.map address length prot flags obj offset))
      (SpaceOp.entries tree (.map address length prot flags obj offset)) tree) :
    Apart Mapping.startp Mapping.endp m x := by
  rcases ((h.afterLoop htree).2 x).mp hx with ⟨hx, hnot⟩ | ⟨e, he, hx⟩
  · rw [SpaceOp.map_entries hal hb, List.mem_filter, not_and, overlaps_iff] at hnot
    have hnot := hnot hx
    rw [Apart, hstart, hend]
    omega
  · obtain ⟨hmem, hu⟩ := SpaceOp.mem_entries he
    have hover := SpaceOp.overlaps_of_mem_entries (fun _ => SpaceOp.noConfusion) he
    have hlt := SpaceOp.KeepsTree.map_range htree h he
    rw [SpaceOp.pieces] at hx
    simp only [SpaceOp.startp, SpaceOp.endp] at hx hover
    rw [mapPieces_eq hlt (lt_trans (divRoundup_lt _) (by norm_num)) hover ((h hal).2 e hmem hu)] at hx
    exact apart_of_mem_outside hx hstart hend

/-- A call that meets the condition keeps the invariant of the tree. -/
theorem Space.treeWf_of_run {pm : Pagemap} {fuel : ℕ} {s s' : Space} {r : Except Error Unit}
    (htree : TreeWf s.tree) (hkeep : op.KeepsTree s.tree) (h : s.run pm fuel op = .ok (s', r)) :
    TreeWf s'.tree := by
  obtain ⟨hr, -, htree'⟩ := Space.eq_of_run h
  obtain ⟨hloop, hmem⟩ := hkeep.afterLoop htree
  rw [htree']
  cases hres : op.result s.tree with
  | error err => rwa [hr, hres, SpaceOp.emplaced_error]
  | ok =>
      rw [hr, hres]
      cases op with
      | map address length prot flags obj offset =>
          obtain ⟨hal, hb⟩ := SpaceOp.result_ok_iff.mp hres
          have hlt := (hkeep hal).1.resolve_right (by rw [hb]; exact Bool.false_ne_true)
          refine ⟨hloop.separated.emplace hlt
            fun x hx => hkeep.map_apart htree hal hb rfl rfl hx, fun x hx => ?_⟩
          rcases mem_emplace.mp hx with rfl | hx
          · have hend := divRoundup_lt ((address.toNat + length.toNat) % 2 ^ 64)
            have hoff := offset.toNat_lt
            exact ⟨hend, lt_of_le_of_lt (Nat.div_le_self _ _) hoff⟩
          · exact hloop.bounded x hx
      | unmap => exact hloop
      | unmapObj => exact hloop
      | protect => exact hloop

theorem Space.Call.treeWf {pm : Pagemap} {s s' : Space} {r : Except Error Unit}
    (htree : TreeWf s.tree) (hkeep : op.KeepsTree s.tree) (h : s.Call pm op r s') : TreeWf s'.tree := by
  obtain ⟨N, hN⟩ := h
  exact Space.treeWf_of_run htree hkeep (hN N le_rfl)

/-- A call that meets the condition keeps the untouchable mappings. -/
theorem Space.untouchable_of_run {pm : Pagemap} {fuel : ℕ} {s s' : Space} {r : Except Error Unit}
    (htree : TreeWf s.tree) (hkeep : op.KeepsTree s.tree) (h : s.run pm fuel op = .ok (s', r))
    {m : Mapping} (hm : m ∈ s.tree) (hu : m.untouchable = true) : m ∈ s'.tree := by
  obtain ⟨-, -, htree'⟩ := Space.eq_of_run h
  have hstays : m ∈ Intervals.replaceEntries Mapping.startp op.pieces (op.entries s.tree) s.tree := by
    refine ((hkeep.afterLoop htree).2 m).mpr (Or.inl ⟨hm, fun he => ?_⟩)
    rw [(SpaceOp.mem_entries he).2] at hu
    cases hu
  rw [htree']
  cases r with
  | error err => rwa [SpaceOp.emplaced_error]
  | ok =>
      cases op with
      | map => exact mem_emplace.mpr (Or.inr hstays)
      | unmap => exact hstays
      | unmapObj => exact hstays
      | protect => exact hstays

end Invariant

/-- In a run whose calls all meet the condition the tree is well formed. -/
theorem treeWf_of_reachable {pm : Pagemap} {s : Space}
    (h : ((Space.system pm).restrict fun s l => l.1.KeepsTree s.tree).Reachable s) : TreeWf s.tree := by
  refine h.invariant (I := fun s => TreeWf s.tree) (fun s hs => ?_) ?_
  · rw [show s.tree = [] from hs]
    exact ⟨Separated.nil, by simp⟩
  · rintro s ⟨op, r⟩ s' - htree ⟨hkeep, hcall⟩
    exact hcall.treeWf htree hkeep

/-- In a run whose calls all meet `KeepsTree` every mapping of the tree is nonempty and any two are
disjoint and have distinct `startp`. Whenever a call then erases an entry, the entry is in the tree at
that moment and `erase` removes this entry only. -/
theorem tree_disjoint (pm : Pagemap) {s : Space}
    (h : ((Space.system pm).restrict fun s l => l.1.KeepsTree s.tree).Reachable s) :
    (∀ m ∈ s.tree, m.startp < m.endp) ∧
    s.tree.Pairwise (fun a b => (a.endp ≤ b.startp ∨ b.endp ≤ a.startp) ∧ a.startp ≠ b.startp) ∧
    ∀ op : SpaceOp, op.KeepsTree s.tree → ∀ n e, (op.entries s.tree)[n]? = some e →
      let tree := replaceEntries Mapping.startp op.pieces ((op.entries s.tree).take n) s.tree
      e ∈ tree ∧ eraseKey Mapping.startp e tree = tree.erase e := by
  have htree := treeWf_of_reachable h
  refine ⟨htree.separated.nonempty, ?_, fun op hkeep n e he => ?_⟩
  · refine htree.separated.sorted.imp_of_mem fun {a b} ha _ hab => ⟨Or.inl hab, ?_⟩
    exact (lt_of_lt_of_le (htree.separated.nonempty a ha) hab).ne
  · obtain ⟨hwf, hmem⟩ := hkeep.replaceEntries htree (n := n)
    have hentry : e ∈ replaceEntries Mapping.startp op.pieces ((op.entries s.tree).take n) s.tree := by
      refine (hmem e).mpr (Or.inl ⟨(SpaceOp.mem_entries (List.mem_of_getElem? he)).1, fun htake => ?_⟩)
      obtain ⟨i, hi, hie⟩ := List.mem_take_iff_getElem.mp htake
      obtain ⟨hn, hne⟩ := List.getElem?_eq_some_iff.mp he
      have hin := (op.nodup_entries htree.separated.nodup).getElem_inj_iff.mp (hie.trans hne.symm)
      omega
    exact ⟨hentry, hwf.separated.eraseKey_eq_erase hentry⟩

/-- An address space without mappings and pages. -/
def Space.empty : Space := ⟨Tables.empty, [], fun _ _ => none⟩

theorem Space.empty_smallWf : exampleMachine.SmallWf Space.empty.pmap :=
  (Pagemap.SmallWf.of_empty fun _ _ => rfl).1

/-- Three pages are mapped and the one in the middle is unmapped. -/
theorem tree_disjoint_split : ∃ s : Space,
    s.tree = [⟨0x10, 0x11, 1, 0, 3, 0x22⟩, ⟨0x12, 0x13, 1, 2, 3, 0x22⟩] ∧
    (∀ m ∈ s.tree, m.startp < m.endp) ∧
    s.tree.Pairwise (fun a b => (a.endp ≤ b.startp ∨ b.endp ≤ a.startp) ∧ a.startp ≠ b.startp) := by
  have h₀ : ((Space.system exampleMachine).restrict fun s l => l.1.KeepsTree s.tree).Reachable
      Space.empty := .init rfl
  obtain ⟨s₁, hcall₁, hwf₁, htree₁⟩ := Space.exists_call (.map 0x10000 0x3000 3 0x22 1 0) (.ok ())
    [⟨0x10, 0x13, 1, 0, 3, 0x22⟩] rfl Space.empty_smallWf (fun _ => rfl)
    (by decide +kernel) rfl (by decide +kernel)
  obtain ⟨s₂, hcall₂, -, htree₂⟩ := Space.exists_call (.unmap 0x11000 0x1000) (.ok ())
    [⟨0x10, 0x11, 1, 0, 3, 0x22⟩, ⟨0x12, 0x13, 1, 2, 3, 0x22⟩] htree₁ hwf₁ (fun _ => rfl)
    (by decide +kernel) rfl (by decide +kernel)
  have h₁ := h₀.step (l := (_, _)) ⟨by decide +kernel, hcall₁⟩
  have h₂ := h₁.step (l := (_, _)) ⟨by dsimp only; rw [htree₁]; decide +kernel, hcall₂⟩
  obtain ⟨hne, hdisj, -⟩ := tree_disjoint exampleMachine h₂
  exact ⟨s₂, htree₂, hne, hdisj⟩

/-- A `map` up to the end of a mapping leaves an empty mapping there. A `map` of the page behind it
does not see that one and uses the same key. -/
theorem tree_not_disjoint : ∃ s : Space,
    (Space.system exampleMachine).Run
      [(.map 0x10000 0x2000 3 0x22 1 0, .ok ()), (.map 0x11000 0x1000 3 0x22 2 0, .ok ()),
        (.map 0x12000 0x1000 3 0x22 3 0, .ok ())] s ∧
    (∃ m ∈ s.tree, ¬ m.startp < m.endp) ∧
    ∃ m ∈ s.tree, eraseKey Mapping.startp m s.tree ≠ s.tree.erase m := by
  have h₀ : (Space.system exampleMachine).Run [] Space.empty := .init rfl
  obtain ⟨s₁, hcall₁, hwf₁, htree₁⟩ := Space.exists_call (.map 0x10000 0x2000 3 0x22 1 0) (.ok ())
    [⟨0x10, 0x12, 1, 0, 3, 0x22⟩] rfl Space.empty_smallWf (fun _ => rfl)
    (by decide +kernel) rfl (by decide +kernel)
  obtain ⟨s₂, hcall₂, hwf₂, htree₂⟩ := Space.exists_call (.map 0x11000 0x1000 3 0x22 2 0) (.ok ())
    [⟨0x10, 0x11, 1, 0, 3, 0x22⟩, ⟨0x11, 0x12, 2, 0, 3, 0x22⟩,
      ⟨0x12, 0x12, 1, 2, 3, 0x22⟩] htree₁ hwf₁ (fun _ => rfl) (by decide +kernel) rfl
    (by decide +kernel)
  obtain ⟨s₃, hcall₃, -, htree₃⟩ := Space.exists_call (.map 0x12000 0x1000 3 0x22 3 0) (.ok ())
    [⟨0x10, 0x11, 1, 0, 3, 0x22⟩, ⟨0x11, 0x12, 2, 0, 3, 0x22⟩,
      ⟨0x12, 0x12, 1, 2, 3, 0x22⟩, ⟨0x12, 0x13, 3, 0, 3, 0x22⟩] htree₂ hwf₂ (fun _ => rfl)
    (by decide +kernel) rfl (by decide +kernel)
  have hrun := ((h₀.step (l := (_, _)) hcall₁).step (l := (_, _)) hcall₂).step (l := (_, _)) hcall₃
  refine ⟨s₃, hrun, ?_⟩
  rw [htree₃]
  decide +kernel

end Ilobilix.Vmm
