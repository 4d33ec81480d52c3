import Ilobilix.Memory.Vmm.Tree

/-!
# An address space is a map from pages to pages of objects

`AddressSpace` is what a tree of mappings is for: the object, the index in the object, the protection
and the flags of every mapped page. The calls set, remove or re-protect the pages of a range; untouchable
pages stay, and a `map` that meets one fails after it has removed the pages in front of it.

`vmspace_refines`: a run of a `vmspace` is, with the same results, a run of the `AddressSpace` that its
tree stands for, as long as every call meets `SpaceOp.KeepsView`. Beyond `SpaceOp.KeepsTree` that
excludes a `map` over the first pages of a mapping, which gives the rest of it a wrong offset: the tail
is `endp - startp` pages further in the object where `endp - entry.startp` is meant.
-/

namespace Ilobilix.Vmm

open Lib Intervals

/-! ## The abstract address space -/

/-- What a page of an address space stands for. -/
structure Cell where
  obj : ℕ
  idx : ℕ
  prot : BitVec 8
  flags : BitVec 8
deriving DecidableEq

def Cell.untouchable (c : Cell) : Bool := c.flags.getLsbD 6

/-- The mapped pages. -/
def AddressSpace : Type := ℕ → Option Cell

/-- The pages of `[address, address + length)`. -/
def InRange (address length : UInt64) (p : ℕ) : Prop :=
  address.toNat / psize ≤ p ∧ p * psize < address.toNat + length.toNat

instance (address length : UInt64) (p : ℕ) : Decidable (InRange address length p) :=
  inferInstanceAs (Decidable (_ ∧ _))

namespace AddressSpace

/-- The page is mapped, and not untouchable. -/
def Touchable (a : AddressSpace) (p : ℕ) : Prop := ∀ c, a p = some c → c.untouchable = false

/-- A call on the abstract address space returns with this result. -/
def Call (a : AddressSpace) : SpaceOp → Except Error Unit → AddressSpace → Prop
  | .map address length prot flags obj offset, r, a' =>
      if address.toNat % psize = 0 ∧ offset.toNat % psize = 0 then
        (r = .ok () ∧ (∀ p, InRange address length p → a.Touchable p) ∧ ∀ p, a' p =
          if InRange address length p then
            some ⟨obj, offset.toNat / psize + (p - address.toNat / psize), prot, flags⟩
          else a p) ∨
        (r = .error .addrInUse ∧ (∃ p, InRange address length p ∧ ¬ a.Touchable p) ∧
          (∀ p, InRange address length p →
            (∀ q ≤ p, InRange address length q → a.Touchable q) → a' p = none) ∧
          ∀ p, (InRange address length p → ∃ q ≤ p, InRange address length q ∧ ¬ a.Touchable q) →
            a' p = a p)
      else r = .error .addrNotAligned ∧ a' = a
  | .unmap address length, r, a' =>
      if address.toNat % psize = 0 then
        r = .ok () ∧ ∀ p, a' p = (a p).filter fun c =>
          ¬ (InRange address length p ∧ c.untouchable = false)
      else r = .error .addrNotAligned ∧ a' = a
  | .unmapObj obj, r, a' =>
      r = .ok () ∧ ∀ p, a' p = (a p).filter fun c => ¬ (c.obj = obj ∧ c.untouchable = false)
  | .protect address length prot, r, a' =>
      if address.toNat % psize = 0 then
        r = .ok () ∧ ∀ p, a' p = (a p).map fun c =>
          if InRange address length p ∧ c.untouchable = false then { c with prot := prot } else c
      else r = .error .addrNotAligned ∧ a' = a

/-- The runs of an abstract address space. -/
def system : TransitionSystem AddressSpace (SpaceOp × Except Error Unit) where
  init a := ∀ p, a p = none
  step a l a' := a.Call l.1 l.2 a'

end AddressSpace

/-! ## The view of a tree -/

/-- What a page of a mapping stands for. -/
def Mapping.cell (m : Mapping) (p : ℕ) : Cell :=
  ⟨m.obj, (m.offsetp + (p - m.startp)) % 2 ^ 64, m.prot, m.flags⟩

@[simp] theorem Mapping.cell_untouchable (m : Mapping) (p : ℕ) :
    (m.cell p).untouchable = m.untouchable := rfl

/-- The address space that a tree stands for. -/
def view (tree : List Mapping) : AddressSpace := fun p =>
  (tree.find? fun m => m.startp ≤ p && p < m.endp).map fun m => m.cell p

section View

variable {tree : List Mapping} {p : ℕ}

theorem view_eq_some (htree : TreeWf tree) {c : Cell} : view tree p = some c ↔
    ∃ m ∈ tree, Covers Mapping.startp Mapping.endp m p ∧ m.cell p = c := by
  rw [view, Option.map_eq_some_iff]
  constructor
  · rintro ⟨m, hfind, hc⟩
    have hcov := List.find?_some hfind
    simp only [Bool.and_eq_true, decide_eq_true_eq] at hcov
    exact ⟨m, List.mem_of_find?_eq_some hfind, hcov, hc⟩
  · rintro ⟨m, hm, hcov, hc⟩
    cases hfind : tree.find? fun m => m.startp ≤ p && p < m.endp with
    | none =>
        have hnone := List.find?_eq_none.mp hfind m hm
        simp only [Bool.and_eq_true, decide_eq_true_eq] at hnone
        exact absurd hcov hnone
    | some m' =>
        have hcov' := List.find?_some hfind
        simp only [Bool.and_eq_true, decide_eq_true_eq] at hcov'
        have heq := htree.separated.eq_of_covers hm (List.mem_of_find?_eq_some hfind) hcov hcov'
        exact ⟨m', rfl, heq ▸ hc⟩

/-- The view of a page that a mapping covers. -/
theorem view_of_covers (htree : TreeWf tree) {m : Mapping} (hm : m ∈ tree)
    (hcov : Covers Mapping.startp Mapping.endp m p) : view tree p = some (m.cell p) :=
  (view_eq_some htree).mpr ⟨m, hm, hcov, rfl⟩

theorem view_eq_none (htree : TreeWf tree) : view tree p = none ↔
    ∀ m ∈ tree, ¬ Covers Mapping.startp Mapping.endp m p := by
  constructor
  · intro hnone m hm hcov
    rw [view_of_covers htree hm hcov] at hnone
    cases hnone
  · intro h
    rw [Option.eq_none_iff_forall_ne_some]
    intro c hc
    obtain ⟨m, hm, hcov, -⟩ := (view_eq_some htree).mp hc
    exact h m hm hcov

end View

/-! ## Pieces keep the pages of their entry -/

/-- What a call makes of a page of an entry that it replaces. -/
def SpaceOp.onCell (op : SpaceOp) (p : ℕ) (c : Cell) : Option Cell :=
  match op with
  | .map .. => if op.startp ≤ p ∧ p < op.endp then none else some c
  | .unmap .. => if op.startp ≤ p ∧ p < op.endp then none else some c
  | .unmapObj _ => none
  | .protect _ _ prot => some (if op.startp ≤ p ∧ p < op.endp then { c with prot := prot } else c)

section Pieces

variable {startp endp p : ℕ} {entry : Mapping} {c : Cell}

/-- The offset of the upper part is right if it is that of the page at the end of the range. -/
theorem outside_cells {offsetp : ℕ} (hover : overlaps startp endp entry = true)
    (hoff : endp < entry.endp → offsetp = (entry.offsetp + (endp - entry.startp)) % 2 ^ 64) :
    (∃ x ∈ outside startp endp offsetp entry,
      Covers Mapping.startp Mapping.endp x p ∧ x.cell p = c) ↔
      Covers Mapping.startp Mapping.endp entry p ∧ ¬ (startp ≤ p ∧ p < endp) ∧ entry.cell p = c := by
  obtain ⟨hlo, hhi⟩ := overlaps_iff.mp hover
  have htail : ∀ h : endp < entry.endp, endp ≤ p →
      Mapping.cell { entry with startp := endp, offsetp := offsetp } p = entry.cell p := by
    intro h hp
    simp only [Mapping.cell, hoff h, Nat.mod_add_mod]
    rw [show entry.offsetp + (endp - entry.startp) + (p - endp) = entry.offsetp + (p - entry.startp) by
      omega]
  constructor
  · rintro ⟨x, hx, ⟨hxlo, hxhi⟩, rfl⟩
    obtain ⟨h, rfl⟩ | ⟨h, rfl⟩ := mem_outside.mp hx
    · dsimp only at hxlo hxhi
      exact ⟨⟨hxlo, by omega⟩, by omega, rfl⟩
    · dsimp only at hxlo hxhi
      exact ⟨⟨by omega, hxhi⟩, by omega, (htail h hxlo).symm⟩
  · rintro ⟨⟨hplo, hphi⟩, hout, rfl⟩
    by_cases hp : p < startp
    · exact ⟨_, mem_outside.mpr (Or.inl ⟨by omega, rfl⟩), ⟨hplo, hp⟩, rfl⟩
    · have h : endp < entry.endp := by omega
      exact ⟨_, mem_outside.mpr (Or.inr ⟨h, rfl⟩), ⟨by dsimp only; omega, hphi⟩, htail h (by omega)⟩

/-- The offset that `unmap` and `protect` compute. -/
theorem tailOffset_eq (hend : entry.endp < 2 ^ 64) (hhi : entry.startp < endp)
    (h : endp < entry.endp) :
    tailOffset endp entry = (entry.offsetp + (endp - entry.startp)) % 2 ^ 64 := by
  rw [tailOffset, wsub_of_le (show entry.startp ≤ entry.endp by omega) (by omega), wsub,
    show entry.offsetp + (entry.endp - entry.startp) + 2 ^ 64 - (entry.endp - endp) =
      entry.offsetp + (endp - entry.startp) + 2 ^ 64 by omega, Nat.add_mod_right]

theorem covers_inside (prot : BitVec 8) :
    Covers Mapping.startp Mapping.endp (inside startp endp prot entry) p ↔
      Covers Mapping.startp Mapping.endp entry p ∧ startp ≤ p ∧ p < endp := by
  simp only [Covers, inside, max_le_iff, lt_min_iff]
  tauto

/-- The part in the range. -/
theorem inside_cell (prot : BitVec 8) (hcov : Covers Mapping.startp Mapping.endp entry p)
    (hp : startp ≤ p) :
    (inside startp endp prot entry).cell p = { entry.cell p with prot := prot } := by
  have hstart : entry.startp ≤ p := hcov.1
  simp only [inside, Mapping.cell, Nat.mod_add_mod]
  rw [show entry.offsetp + (startp - entry.startp) + (p - max startp entry.startp) =
    entry.offsetp + (p - entry.startp) by omega]

end Pieces

/-- The calls that do what the abstract address space does. -/
def SpaceOp.KeepsView (tree : List Mapping) (op : SpaceOp) : Prop :=
  op.KeepsTree tree ∧ (op.aligned = true →
    match op with
    | .map address length .. =>
        0 < length.toNat ∧ address.toNat + length.toNat + psize ≤ 2 ^ 64 ∧
          (op.blocked tree = true ∨
            ∀ e ∈ tree, e.untouchable = false → ¬ e.BeginsInside op.startp op.endp)
    | .unmap address length =>
        address.toNat + length.toNat < 2 ^ 64 ∧
          (address.toNat + length.toNat + psize ≤ 2 ^ 64 ∨
            ∀ e ∈ tree, e.untouchable = false → e.endp ≤ op.startp)
    | .unmapObj _ => True
    | .protect address length _ =>
        address.toNat + length.toNat < 2 ^ 64 ∧
          (length.toNat + psize ≤ 2 ^ 64 ∨
            ∀ e ∈ tree, e.untouchable = false → e.endp ≤ op.startp))

instance (tree : List Mapping) (op : SpaceOp) : Decidable (op.KeepsView tree) :=
  match op with
  | .map .. => inferInstanceAs (Decidable (_ ∧ (_ = true → _ ∧ _ ∧ _)))
  | .unmap .. => inferInstanceAs (Decidable (_ ∧ (_ = true → _ ∧ _)))
  | .unmapObj _ => inferInstanceAs (Decidable (_ ∧ (_ = true → True)))
  | .protect .. => inferInstanceAs (Decidable (_ ∧ (_ = true → _ ∧ _)))

section Refinement

variable {tree : List Mapping} {op : SpaceOp} {e : Mapping} {p : ℕ}

/-- An entry that `map` replaces does not begin inside the range: it would be the last one, and an
untouchable entry in front of it stops the loop. -/
theorem SpaceOp.KeepsView.not_beginsInside {address length offset : UInt64} {prot flags : BitVec 8}
    {obj : ℕ} (htree : TreeWf tree)
    (h : SpaceOp.KeepsView tree (.map address length prot flags obj offset))
    (he : e ∈ SpaceOp.entries tree (.map address length prot flags obj offset)) :
    ¬ e.BeginsInside (startPage address.toNat) (endPage address.toNat length.toNat) := by
  have hal := SpaceOp.aligned_of_mem_entries he
  obtain ⟨hmem, hu⟩ := SpaceOp.mem_entries he
  obtain ⟨-, -, hblocked | hnone⟩ := h.2 hal
  · rintro ⟨-, -, hend⟩
    obtain ⟨u, hu', hun⟩ := List.any_eq_true.mp hblocked
    obtain ⟨hut, hover⟩ := List.mem_filter.mp hu'
    rw [SpaceOp.entries, if_pos hal] at he
    have hbefore := ((htree.separated.filter _).mem_takeWhile.mp he).2 u hu'
    have hne : u ≠ e := fun heq => by
      rw [heq, hu] at hun
      cases hun
    have hapart := htree.separated.apart hut hmem hne
    have hnonempty := htree.separated.nonempty u hut
    have hle : u.startp ≤ e.startp := by
      rcases hapart with hue | heu
      · omega
      · have := (overlaps_iff.mp hover).2
        simp only [SpaceOp.endp] at this
        omega
    have hfalse := hbefore hle
    rw [hun] at hfalse
    cases hfalse
  · exact hnone e hmem hu

/-- The pieces of an entry have the pages that the call leaves of it. -/
theorem SpaceOp.KeepsView.pieces (htree : TreeWf tree) (h : op.KeepsView tree)
    (he : e ∈ op.entries tree) {c : Cell} :
    (∃ x ∈ op.pieces e, Covers Mapping.startp Mapping.endp x p ∧ x.cell p = c) ↔
      Covers Mapping.startp Mapping.endp e p ∧ op.onCell p (e.cell p) = some c := by
  have hstart : op.startp < 2 ^ 64 := lt_trans op.startp_lt (by norm_num)
  have hend : op.endp < 2 ^ 64 := lt_trans op.endp_lt (by norm_num)
  obtain ⟨hmem, hu⟩ := SpaceOp.mem_entries he
  obtain ⟨hbound, hoff⟩ := htree.bounded e hmem
  have hbound : e.endp < 2 ^ 64 := lt_trans hbound (by norm_num)
  have hal := SpaceOp.aligned_of_mem_entries he
  -- what the parts outside of the range stand for, in the form of `onCell`
  have hnone : ¬ (op.startp ≤ p ∧ p < op.endp) ∧ e.cell p = c ↔
      (if op.startp ≤ p ∧ p < op.endp then none else some (e.cell p)) = some c := by
    split
    · rename_i hin
      simp [hin]
    · rename_i hout
      simp [hout]
  cases op with
  | map address length prot flags obj offset =>
      have hover := SpaceOp.overlaps_of_mem_entries (fun _ => SpaceOp.noConfusion) he
      have hlt := SpaceOp.KeepsTree.map_range htree h.1 he
      have hinside := SpaceOp.KeepsView.not_beginsInside htree h he
      have hpieces := mapPieces_eq hlt hend hover ((h.1 hal).2 e hmem hu)
      simp only [SpaceOp.pieces, SpaceOp.onCell, SpaceOp.startp, SpaceOp.endp] at hover hnone ⊢
      rw [hpieces, outside_cells hover, hnone]
      intro htail
      have hhead : e.startp ≤ startPage address.toNat :=
        not_lt.mp fun hlo => hinside ⟨hlo, (overlaps_iff.mp hover).2, htail⟩
      have hend' : endPage address.toNat length.toNat < 2 ^ 64 := hend
      rw [wsub_of_le hlt.le (by omega)]
      congr 1
      omega
  | unmap address length =>
      have hover := SpaceOp.overlaps_of_mem_entries (fun _ => SpaceOp.noConfusion) he
      rw [SpaceOp.pieces, unmapPieces_eq hstart hend,
        outside_cells hover (tailOffset_eq hbound (overlaps_iff.mp hover).2), SpaceOp.onCell, hnone]
  | unmapObj obj => simp [SpaceOp.pieces, SpaceOp.onCell]
  | protect address length prot =>
      have hover := SpaceOp.overlaps_of_mem_entries (fun _ => SpaceOp.noConfusion) he
      have hcells := outside_cells (p := p) (c := c) hover
        (tailOffset_eq hbound (overlaps_iff.mp hover).2)
      rw [SpaceOp.pieces, protectPieces_eq prot hstart hend hoff]
      simp only [List.mem_append, or_and_right, exists_or, hcells, List.mem_singleton,
        exists_eq_left, covers_inside]
      rw [SpaceOp.onCell, Option.some.injEq]
      split
      · rename_i hin
        refine ⟨?_, fun h => Or.inr ⟨⟨h.1, hin⟩, (inside_cell prot h.1 hin.1).trans h.2⟩⟩
        rintro (⟨-, hout, -⟩ | ⟨⟨hcov, -⟩, hc⟩)
        · exact absurd hin hout
        · exact ⟨hcov, (inside_cell prot hcov hin.1).symm.trans hc⟩
      · rename_i hout
        refine ⟨?_, fun h => Or.inl ⟨h.1, hout, h.2⟩⟩
        rintro (⟨hcov, -, hc⟩ | ⟨⟨-, hin⟩, -⟩)
        · exact ⟨hcov, hc⟩
        · exact absurd hin hout

/-- The view after the loop of a call, at a page of an entry that it replaces. -/
theorem SpaceOp.KeepsView.view_entry (htree : TreeWf tree) (h : op.KeepsView tree)
    (he : e ∈ op.entries tree) (hcov : Covers Mapping.startp Mapping.endp e p) :
    view (replaceEntries Mapping.startp op.pieces (op.entries tree) tree) p =
      op.onCell p (e.cell p) := by
  obtain ⟨hwf, hmem⟩ := h.1.afterLoop htree
  refine Option.ext fun c => ?_
  rw [view_eq_some hwf]
  constructor
  · rintro ⟨x, hx, hxp, hc⟩
    rcases (hmem x).mp hx with ⟨hx, hnot⟩ | ⟨e', he', hx⟩
    · have heq := htree.separated.eq_of_covers hx (SpaceOp.mem_entries he).1 hxp hcov
      exact absurd (heq ▸ he) hnot
    · obtain ⟨hcov', hcell⟩ := (h.pieces htree he').mp ⟨x, hx, hxp, hc⟩
      have heq := htree.separated.eq_of_covers (SpaceOp.mem_entries he').1
        (SpaceOp.mem_entries he).1 hcov' hcov
      rwa [heq] at hcell
  · intro hc
    obtain ⟨x, hx, hxp, hcell⟩ := (h.pieces htree he).mpr ⟨hcov, hc⟩
    exact ⟨x, (hmem x).mpr (Or.inr ⟨e, he, hx⟩), hxp, hcell⟩

/-- At a page of another entry. -/
theorem SpaceOp.KeepsView.view_other (htree : TreeWf tree) (h : op.KeepsView tree) (hmem : e ∈ tree)
    (he : e ∉ op.entries tree) (hcov : Covers Mapping.startp Mapping.endp e p) :
    view (replaceEntries Mapping.startp op.pieces (op.entries tree) tree) p = some (e.cell p) := by
  obtain ⟨hwf, hmem'⟩ := h.1.afterLoop htree
  exact view_of_covers hwf ((hmem' e).mpr (Or.inl ⟨hmem, he⟩)) hcov

/-- At a page that is not mapped. -/
theorem SpaceOp.KeepsView.view_none (htree : TreeWf tree) (h : op.KeepsView tree)
    (hnone : view tree p = none) :
    view (replaceEntries Mapping.startp op.pieces (op.entries tree) tree) p = none := by
  obtain ⟨hwf, hmem⟩ := h.1.afterLoop htree
  rw [view_eq_none htree] at hnone
  rw [view_eq_none hwf]
  intro x hx hcov
  rcases (hmem x).mp hx with ⟨hx, -⟩ | ⟨e, he, hx⟩
  · exact hnone x hx hcov
  · exact hnone e (SpaceOp.mem_entries he).1 ((h.1.pieces htree he).1.covers hx hcov)

/-- The view after the loop of a call. -/
theorem SpaceOp.KeepsView.view_afterLoop (htree : TreeWf tree) (h : op.KeepsView tree)
    (f : Cell → Option Cell)
    (hin : ∀ e ∈ op.entries tree, Covers Mapping.startp Mapping.endp e p →
      op.onCell p (e.cell p) = f (e.cell p))
    (hout : ∀ e ∈ tree, e ∉ op.entries tree → Covers Mapping.startp Mapping.endp e p →
      f (e.cell p) = some (e.cell p)) :
    view (replaceEntries Mapping.startp op.pieces (op.entries tree) tree) p = (view tree p).bind f := by
  cases hview : view tree p with
  | none => exact h.view_none htree hview
  | some c =>
      obtain ⟨e, hmem, hcov, rfl⟩ := (view_eq_some htree).mp hview
      rw [Option.bind_some]
      by_cases he : e ∈ op.entries tree
      · exact (h.view_entry htree he hcov).trans (hin e he hcov)
      · exact (h.view_other htree hmem he hcov).trans (hout e hmem he hcov).symm

/-- The pages between the computed ends of a range that does not wrap. -/
theorem range_iff {address length : UInt64} (hal : address.toNat % psize = 0)
    (h : address.toNat + length.toNat + psize ≤ 2 ^ 64) :
    startPage address.toNat ≤ p ∧ p < endPage address.toNat length.toNat ↔
      InRange address length p := by
  rw [InRange, startPage, endPage, divRoundup_psize]
  simp only [psize] at hal h ⊢
  omega

/-- The same for the end that `protect` computes. -/
theorem protect_range_iff {address length : UInt64} (prot : BitVec 8)
    (hal : address.toNat % psize = 0) (hsum : address.toNat + length.toNat < 2 ^ 64)
    (h : length.toNat + psize ≤ 2 ^ 64) :
    startPage address.toNat ≤ p ∧ p < SpaceOp.endp (.protect address length prot) ↔
      InRange address length p := by
  rw [InRange, SpaceOp.endp, startPage, divRoundup_psize]
  simp only [psize] at hal h ⊢
  omega

/-- The page lies in the range of a mapping that overlaps it. -/
theorem overlaps_of_covers {startp endp : ℕ} (hcov : Covers Mapping.startp Mapping.endp e p)
    (hp : startp ≤ p ∧ p < endp) : overlaps startp endp e = true :=
  overlaps_iff.mpr ⟨lt_of_le_of_lt hp.1 hcov.2, lt_of_le_of_lt hcov.1 hp.2⟩

end Refinement

/-! ## Every call does what the abstract address space does -/

section Calls

variable {tree : List Mapping} {address length : UInt64} {p : ℕ}

/-- The pages that `unmap` and `protect` change. -/
theorem affected_iff (op : SpaceOp) (address length : UInt64) {e : Mapping}
    (hent : ∀ e, e ∈ op.entries tree ↔
      e ∈ tree ∧ overlaps op.startp op.endp e = true ∧ e.untouchable = false)
    (hstart : op.startp = address.toNat / psize)
    (hrange : (∀ p, op.startp ≤ p ∧ p < op.endp ↔ InRange address length p) ∨
      ∀ e ∈ tree, e.untouchable = false → e.endp ≤ op.startp)
    (hmem : e ∈ tree) (hcov : Covers Mapping.startp Mapping.endp e p) :
    (e ∈ op.entries tree ∧ op.startp ≤ p ∧ p < op.endp) ↔
      InRange address length p ∧ e.untouchable = false := by
  constructor
  · rintro ⟨he, hp⟩
    obtain ⟨-, hover, hu⟩ := (hent e).mp he
    rcases hrange with hrange | hnone
    · exact ⟨(hrange p).mp hp, hu⟩
    · exact absurd (overlaps_iff.mp hover).1 (not_lt.mpr (hnone e hmem hu))
  · rintro ⟨hp, hu⟩
    rcases hrange with hrange | hnone
    · have hp' := (hrange p).mpr hp
      exact ⟨(hent e).mpr ⟨hmem, overlaps_of_covers hcov hp', hu⟩, hp'⟩
    · have hle := hnone e hmem hu
      rw [hstart] at hle
      exact absurd (lt_of_lt_of_le hcov.2 (le_trans hle hp.1)) (lt_irrefl p)

private theorem bind_eq_filter (o : Option Cell) (P : Cell → Prop) [DecidablePred P] :
    (o.bind fun c => if P c then none else some c) = o.filter fun c => ¬ P c := by
  cases o with
  | none => rfl
  | some c =>
      rw [Option.bind_some, Option.filter_some]
      by_cases hP : P c
      · simp [hP]
      · simp [hP]

theorem view_unmap (htree : TreeWf tree) (h : SpaceOp.KeepsView tree (.unmap address length))
    (hal : address.toNat % psize = 0) :
    view (replaceEntries Mapping.startp (SpaceOp.pieces (.unmap address length))
      (SpaceOp.entries tree (.unmap address length)) tree) p =
      (view tree p).filter fun c => ¬ (InRange address length p ∧ c.untouchable = false) := by
  have hal' : SpaceOp.aligned (.unmap address length) = true := decide_eq_true hal
  have haffected : ∀ e ∈ tree, Covers Mapping.startp Mapping.endp e p → _ := fun e =>
    affected_iff (.unmap address length) address length (by
      intro e
      rw [SpaceOp.entries, if_pos hal', SpaceOp.overlapping, List.mem_filter, Bool.and_eq_true,
        Bool.not_eq_true']) rfl ((h.2 hal').2.imp_left fun hrange p => range_iff hal hrange)
  rw [h.view_afterLoop htree fun c =>
    if InRange address length p ∧ c.untouchable = false then none else some c]
  · exact bind_eq_filter _ _
  · intro e he hcov
    have hiff := haffected e (SpaceOp.mem_entries he).1 hcov
    rw [and_iff_right he] at hiff
    exact if_congr hiff rfl rfl
  · intro e hmem he hcov
    exact if_neg fun hin => he ((haffected e hmem hcov).mpr hin).1

theorem view_unmapObj {obj : ℕ} (htree : TreeWf tree)
    (h : SpaceOp.KeepsView tree (.unmapObj obj)) :
    view (replaceEntries Mapping.startp (SpaceOp.pieces (.unmapObj obj))
      (SpaceOp.entries tree (.unmapObj obj)) tree) p =
      (view tree p).filter fun c => ¬ (c.obj = obj ∧ c.untouchable = false) := by
  have hent : ∀ e, e ∈ SpaceOp.entries tree (.unmapObj obj) ↔
      e ∈ tree ∧ e.obj = obj ∧ e.untouchable = false := by
    intro e
    rw [SpaceOp.entries, if_pos (show SpaceOp.aligned (.unmapObj obj) = true from rfl),
      SpaceOp.overlapping, List.mem_filter, Bool.and_eq_true, Bool.not_eq_true', beq_iff_eq]
  rw [h.view_afterLoop htree fun c =>
    if c.obj = obj ∧ c.untouchable = false then none else some c]
  · exact bind_eq_filter _ _
  · intro e he _
    exact (if_pos ((hent e).mp he).2).symm
  · intro e hmem he _
    exact if_neg fun hin => he ((hent e).mpr ⟨hmem, hin⟩)

theorem view_protect {prot : BitVec 8} (htree : TreeWf tree)
    (h : SpaceOp.KeepsView tree (.protect address length prot)) (hal : address.toNat % psize = 0) :
    view (replaceEntries Mapping.startp (SpaceOp.pieces (.protect address length prot))
      (SpaceOp.entries tree (.protect address length prot)) tree) p =
      (view tree p).map fun c =>
        if InRange address length p ∧ c.untouchable = false then { c with prot := prot } else c := by
  have hal' : SpaceOp.aligned (.protect address length prot) = true := decide_eq_true hal
  obtain ⟨hsum, hrange⟩ := h.2 hal'
  have haffected : ∀ e ∈ tree, Covers Mapping.startp Mapping.endp e p → _ := fun e =>
    affected_iff (.protect address length prot) address length (by
      intro e
      rw [SpaceOp.entries, if_pos hal', SpaceOp.overlapping, List.mem_filter, Bool.and_eq_true,
        Bool.not_eq_true']) rfl
      (hrange.imp_left fun hrange p => protect_range_iff prot hal hsum hrange)
  rw [h.view_afterLoop htree fun c => some
    (if InRange address length p ∧ c.untouchable = false then { c with prot := prot } else c)]
  · exact Option.map_eq_bind.symm
  · intro e he hcov
    have hiff := haffected e (SpaceOp.mem_entries he).1 hcov
    rw [and_iff_right he] at hiff
    exact congrArg some (if_congr hiff rfl rfl)
  · intro e hmem he hcov
    exact congrArg some (if_neg fun hin => he ((haffected e hmem hcov).mpr hin).1)

section Map

variable {prot flags : BitVec 8} {obj : ℕ} {offset : UInt64}

/-- A page of an entry in the range of `map`: the entry is replaced if no page of the range up to
there is untouchable. -/
theorem mem_map_entries_iff {e : Mapping} (htree : TreeWf tree)
    (hal : SpaceOp.aligned (.map address length prot flags obj offset) = true)
    (hrange : ∀ q, startPage address.toNat ≤ q ∧ q < endPage address.toNat length.toNat ↔
      InRange address length q)
    (hmem : e ∈ tree) (hcov : Covers Mapping.startp Mapping.endp e p)
    (hp : InRange address length p) :
    e ∈ SpaceOp.entries tree (.map address length prot flags obj offset) ↔
      ∀ q ≤ p, InRange address length q → (view tree).Touchable q := by
  have hover := overlaps_of_covers hcov ((hrange p).mpr hp)
  rw [SpaceOp.entries, if_pos hal]
  refine Iff.trans (htree.separated.filter _).mem_takeWhile ?_
  constructor
  · rintro ⟨-, hbefore⟩ q hqp hq c hc
    -- the entry of `q` is not above `e`
    obtain ⟨y, hy, hycov, rfl⟩ := (view_eq_some htree).mp hc
    have hle : y.startp ≤ e.startp := by
      by_cases hye : y = e
      · exact hye ▸ le_rfl
      · rcases htree.separated.apart hy hmem hye with hlt | hlt
        · exact le_trans (htree.separated.nonempty y hy).le hlt
        · exact absurd (lt_of_lt_of_le hcov.2 (le_trans hlt (le_trans hycov.1 hqp))) (lt_irrefl p)
    have htouch := hbefore y (List.mem_filter.mpr
      ⟨hy, overlaps_of_covers hycov ((hrange q).mpr hq)⟩) hle
    simpa using htouch
  · intro htouch
    refine ⟨List.mem_filter.mpr ⟨hmem, hover⟩, fun y hy hle => ?_⟩
    obtain ⟨hy, hyover⟩ := List.mem_filter.mp hy
    obtain ⟨hlo, hhi⟩ := overlaps_iff.mp hyover
    simp only [SpaceOp.startp, SpaceOp.endp] at hlo hhi
    have hnonempty := htree.separated.nonempty y hy
    obtain ⟨hplo, hphi⟩ := (hrange p).mpr hp
    -- the first page of the range in `y`
    have hq : max (startPage address.toNat) y.startp ≤ p := max_le hplo (le_trans hle hcov.1)
    have hview := view_of_covers (p := max (startPage address.toNat) y.startp) htree hy
      ⟨le_max_right _ _, max_lt hlo hnonempty⟩
    have := htouch _ hq ((hrange _).mp ⟨le_max_left _ _, lt_of_le_of_lt hq hphi⟩) _ hview
    simpa using this

open Classical in
/-- The pages of the range in front of the first untouchable one are gone after the loop. -/
theorem view_map_loop (htree : TreeWf tree)
    (h : SpaceOp.KeepsView tree (.map address length prot flags obj offset))
    (hal : SpaceOp.aligned (.map address length prot flags obj offset) = true)
    (hrange : ∀ q, startPage address.toNat ≤ q ∧ q < endPage address.toNat length.toNat ↔
      InRange address length q) :
    view (replaceEntries Mapping.startp (SpaceOp.pieces (.map address length prot flags obj offset))
      (SpaceOp.entries tree (.map address length prot flags obj offset)) tree) p =
      if InRange address length p ∧ ∀ q ≤ p, InRange address length q → (view tree).Touchable q then
        none
      else view tree p := by
  rw [h.view_afterLoop htree fun c =>
    if InRange address length p ∧ ∀ q ≤ p, InRange address length q → (view tree).Touchable q then
      none
    else some c]
  · split
    · cases view tree p with
      | none => rfl
      | some c => rfl
    · cases view tree p with
      | none => rfl
      | some c => rfl
  · intro e he hcov
    refine if_congr ?_ rfl rfl
    refine (hrange p).trans ⟨fun hp => ⟨hp, ?_⟩, fun hp => hp.1⟩
    exact (mem_map_entries_iff htree hal hrange (SpaceOp.mem_entries he).1 hcov hp).mp he
  · intro e hmem he hcov
    exact if_neg fun hp => he ((mem_map_entries_iff htree hal hrange hmem hcov hp.1).mpr hp.2)

/-- `map` fails if there is an untouchable page in its range. -/
theorem blocked_iff (htree : TreeWf tree)
    (hlt : startPage address.toNat < endPage address.toNat length.toNat)
    (hrange : ∀ q, startPage address.toNat ≤ q ∧ q < endPage address.toNat length.toNat ↔
      InRange address length q) :
    SpaceOp.blocked tree (.map address length prot flags obj offset) = true ↔
      ∃ p, InRange address length p ∧ ¬ (view tree).Touchable p := by
  rw [SpaceOp.blocked, List.any_eq_true]
  constructor
  · rintro ⟨u, hu, hun⟩
    obtain ⟨hmem, hover⟩ := List.mem_filter.mp hu
    obtain ⟨hlo, hhi⟩ := overlaps_iff.mp hover
    simp only [SpaceOp.startp, SpaceOp.endp] at hlo hhi
    have hnonempty := htree.separated.nonempty u hmem
    refine ⟨max (startPage address.toNat) u.startp,
      (hrange _).mp ⟨le_max_left _ _, max_lt hlt hhi⟩, fun htouch => ?_⟩
    have hfalse := htouch _ (view_of_covers htree hmem ⟨le_max_right _ _, max_lt hlo hnonempty⟩)
    rw [Mapping.cell_untouchable, hun] at hfalse
    cases hfalse
  · rintro ⟨p, hp, htouch⟩
    rw [AddressSpace.Touchable, not_forall] at htouch
    obtain ⟨c, hc⟩ := htouch
    obtain ⟨hview, hun⟩ := Classical.not_imp.mp hc
    obtain ⟨u, hmem, hcov, rfl⟩ := (view_eq_some htree).mp hview
    exact ⟨u, List.mem_filter.mpr ⟨hmem, overlaps_of_covers hcov ((hrange p).mpr hp)⟩,
      by simpa using hun⟩

end Map

theorem view_emplace {m : Mapping} (htree : TreeWf tree) (hwf : TreeWf (emplace Mapping.startp m tree)) :
    view (emplace Mapping.startp m tree) p =
      if Covers Mapping.startp Mapping.endp m p then some (m.cell p) else view tree p := by
  split
  · rename_i hcov
    exact view_of_covers hwf (mem_emplace.mpr (Or.inl rfl)) hcov
  · rename_i hcov
    refine Option.ext fun c => ?_
    rw [view_eq_some hwf, view_eq_some htree]
    constructor
    · rintro ⟨x, hx, hxcov, hc⟩
      rcases mem_emplace.mp hx with rfl | hx
      · exact absurd hxcov hcov
      · exact ⟨x, hx, hxcov, hc⟩
    · rintro ⟨x, hx, hxcov, hc⟩
      exact ⟨x, mem_emplace.mpr (Or.inr hx), hxcov, hc⟩

/-- A call with a misaligned argument changes nothing. -/
theorem view_misaligned {op : SpaceOp} (tree : List Mapping) (hal : op.aligned = false) :
    op.result tree = .error .addrNotAligned ∧
      op.emplaced (op.result tree) (replaceEntries Mapping.startp op.pieces (op.entries tree) tree) =
        tree := by
  have hres : op.result tree = .error .addrNotAligned := by
    rw [SpaceOp.result, hal]
    rfl
  rw [hres, SpaceOp.emplaced_error, SpaceOp.entries, hal]
  exact ⟨rfl, rfl⟩

theorem view_map {prot flags : BitVec 8} {obj : ℕ} {offset : UInt64} {op : SpaceOp}
    {tree' : List Mapping} (hop : op = .map address length prot flags obj offset)
    (htree : TreeWf tree) (h : op.KeepsView tree) (hwf : TreeWf tree')
    (htree' : tree' = op.emplaced (op.result tree)
      (replaceEntries Mapping.startp op.pieces (op.entries tree) tree)) :
    (view tree).Call op (op.result tree) (view tree') := by
  cases hal : op.aligned with
  | false =>
      obtain ⟨hres, htree''⟩ := view_misaligned tree hal
      rw [htree', htree'', hres, hop, AddressSpace.Call, if_neg]
      · exact ⟨rfl, rfl⟩
      · simpa [hop, SpaceOp.aligned] using hal
  | true =>
      subst hop
      have hal' : address.toNat % psize = 0 ∧ offset.toNat % psize = 0 := by
        simpa [SpaceOp.aligned] using hal
      obtain ⟨hpos, hsum, -⟩ := h.2 hal
      have hrange : ∀ q, startPage address.toNat ≤ q ∧ q < endPage address.toNat length.toNat ↔
          InRange address length q := fun q => range_iff hal'.1 hsum
      have hfirst : InRange address length (startPage address.toNat) := by
        refine ⟨le_rfl, ?_⟩
        rw [startPage, Nat.div_mul_cancel (Nat.dvd_of_mod_eq_zero hal'.1)]
        omega
      have hlt := ((hrange _).mpr hfirst).2
      have hloop := fun p => view_map_loop (p := p) htree h hal hrange
      rw [AddressSpace.Call, if_pos hal']
      cases hb : SpaceOp.blocked tree (.map address length prot flags obj offset) with
      | false =>
          have hres := SpaceOp.result_ok_iff.mpr ⟨hal, hb⟩
          have htouch : ∀ p, InRange address length p → (view tree).Touchable p := by
            intro p hp
            by_contra hnot
            rw [(blocked_iff htree hlt hrange).mpr ⟨p, hp, hnot⟩] at hb
            cases hb
          refine Or.inl ⟨hres, htouch, fun p => ?_⟩
          rw [hres] at htree'
          subst htree'
          rw [SpaceOp.emplaced, view_emplace (h.1.afterLoop htree).1 hwf, hloop]
          refine if_ctx_congr (hrange p) (fun hp => ?_) (fun hp => if_neg fun hin => hp hin.1)
          -- the index does not wrap around
          have hstart := startPage_lt address
          have hoff := offset.toNat_lt
          have hple : p * psize < address.toNat + length.toNat := hp.2
          rw [Mapping.cell, Nat.mod_eq_of_lt]
          · rfl
          · simp only [psize, startPage] at hple hsum ⊢
            omega
      | true =>
          have hres : SpaceOp.result tree (.map address length prot flags obj offset) =
              .error .addrInUse := by
            rw [SpaceOp.result, if_pos hal, if_pos hb]
          rw [hres, SpaceOp.emplaced_error] at htree'
          subst htree'
          refine Or.inr ⟨hres, (blocked_iff htree hlt hrange).mp hb, fun p hp hfront => ?_,
            fun p hp => ?_⟩
          · rw [hloop, if_pos ⟨hp, hfront⟩]
          · rw [hloop, if_neg]
            rintro ⟨hin, hfront⟩
            obtain ⟨q, hqp, hq, htouch⟩ := hp hin
            exact htouch (hfront q hqp hq)

end Calls

/-- Every call that meets the condition does what the abstract address space does. -/
theorem Space.Call.view {pm : Pagemap} {s s' : Space} {op : SpaceOp} {r : Except Error Unit}
    (htree : TreeWf s.tree) (hkeep : op.KeepsView s.tree) (h : s.Call pm op r s') :
    (Vmm.view s.tree).Call op r (Vmm.view s'.tree) := by
  have hwf := h.treeWf htree hkeep.1
  obtain ⟨rfl, -, htree'⟩ := h.eq
  cases op with
  | map address length prot flags obj offset => exact view_map rfl htree hkeep hwf htree'
  | unmap address length =>
      cases hal : SpaceOp.aligned (.unmap address length) with
      | false =>
          obtain ⟨hres, htree''⟩ := view_misaligned s.tree hal
          rw [htree', htree'', hres, AddressSpace.Call, if_neg (of_decide_eq_false hal)]
          exact ⟨rfl, rfl⟩
      | true =>
          have hres := SpaceOp.result_ok_iff.mpr ⟨hal, show SpaceOp.blocked s.tree _ = false from rfl⟩
          rw [AddressSpace.Call, if_pos (of_decide_eq_true hal), htree', hres]
          exact ⟨rfl, fun p => view_unmap htree hkeep (of_decide_eq_true hal)⟩
  | unmapObj obj =>
      rw [htree']
      exact ⟨rfl, fun p => view_unmapObj htree hkeep⟩
  | protect address length prot =>
      cases hal : SpaceOp.aligned (.protect address length prot) with
      | false =>
          obtain ⟨hres, htree''⟩ := view_misaligned s.tree hal
          rw [htree', htree'', hres, AddressSpace.Call, if_neg (of_decide_eq_false hal)]
          exact ⟨rfl, rfl⟩
      | true =>
          have hres := SpaceOp.result_ok_iff.mpr ⟨hal, show SpaceOp.blocked s.tree _ = false from rfl⟩
          rw [AddressSpace.Call, if_pos (of_decide_eq_true hal), htree', hres]
          exact ⟨rfl, fun p => view_protect htree hkeep (of_decide_eq_true hal)⟩

/-- Every run of a `vmspace` whose calls meet the condition is, with the same results, a run of the
abstract address space that its tree stands for. -/
theorem vmspace_refines (pm : Pagemap) {tr : List (SpaceOp × Except Error Unit)} {s : Space}
    (h : ((Space.system pm).restrict fun s l => l.1.KeepsView s.tree).Run tr s) :
    AddressSpace.system.Run tr (view s.tree) := by
  have hinit : ∀ s, (Space.system pm).init s →
      ∃ a, AddressSpace.system.init a ∧ TreeWf s.tree ∧ a = view s.tree := by
    intro s hs
    have hnil : s.tree = [] := hs
    rw [hnil]
    exact ⟨_, fun p => rfl, ⟨Separated.nil, by simp⟩, rfl⟩
  have hstep : ∀ s a l s', (TreeWf s.tree ∧ a = view s.tree) →
      (l.1.KeepsView s.tree ∧ (Space.system pm).step s l s') →
      ∃ a', AddressSpace.system.step a l a' ∧ TreeWf s'.tree ∧ a' = view s'.tree := by
    rintro s a ⟨op, r⟩ s' ⟨htree, rfl⟩ ⟨hkeep, hcall⟩
    exact ⟨_, Space.Call.view htree hkeep hcall, Space.Call.treeWf htree hkeep.1 hcall, rfl⟩
  obtain ⟨a, hrun, -, rfl⟩ := TransitionSystem.Run.simulates
    (T := (Space.system pm).restrict fun s l => l.1.KeepsView s.tree) hinit hstep h
  exact hrun

/-- A mapping is split by an `unmap` in the middle and the page above keeps its index. -/
theorem vmspace_refines_split : ∃ s : Space,
    AddressSpace.system.Run [(.map 0x10000 0x3000 3 0x22 1 0x5000, .ok ()),
      (.unmap 0x11000 0x1000, .ok ())] (view s.tree) ∧
    view s.tree 0x11 = none ∧ view s.tree 0x12 = some ⟨1, 7, 3, 0x22⟩ := by
  have h₀ : ((Space.system exampleMachine).restrict fun s l => l.1.KeepsView s.tree).Run []
      Space.empty := .init rfl
  obtain ⟨s₁, hcall₁, hwf₁, htree₁⟩ := Space.exists_call (.map 0x10000 0x3000 3 0x22 1 0x5000)
    (.ok ()) [⟨0x10, 0x13, 1, 5, 3, 0x22⟩] rfl Space.empty_smallWf (fun _ => rfl)
    (by decide +kernel) rfl (by decide +kernel)
  obtain ⟨s₂, hcall₂, -, htree₂⟩ := Space.exists_call (.unmap 0x11000 0x1000) (.ok ())
    [⟨0x10, 0x11, 1, 5, 3, 0x22⟩, ⟨0x12, 0x13, 1, 7, 3, 0x22⟩] htree₁ hwf₁ (fun _ => rfl)
    (by decide +kernel) rfl (by decide +kernel)
  have h₁ := h₀.step (l := (_, _)) ⟨by decide +kernel, hcall₁⟩
  have h₂ := h₁.step (l := (_, _)) ⟨by dsimp only; rw [htree₁]; decide +kernel, hcall₂⟩
  refine ⟨s₂, vmspace_refines exampleMachine h₂, ?_⟩
  rw [htree₂]
  decide +kernel

/-- A `map` of the pages `0x11` and `0x12` over a mapping of `0x12` and `0x13` changes the index of
page `0x13`, which is not in its range. -/
theorem map_shifts_tail : ∃ s s' : Space,
    (Space.system exampleMachine).Run [(.map 0x12000 0x2000 3 0x22 1 0, .ok ())] s ∧
    s.Call exampleMachine (.map 0x11000 0x2000 3 0x22 2 0) (.ok ()) s' ∧
    ¬ InRange 0x11000 0x2000 0x13 ∧
    view s.tree 0x13 = some ⟨1, 1, 3, 0x22⟩ ∧ view s'.tree 0x13 = some ⟨1, 2, 3, 0x22⟩ := by
  have h₀ : (Space.system exampleMachine).Run [] Space.empty := .init rfl
  obtain ⟨s₁, hcall₁, hwf₁, htree₁⟩ := Space.exists_call (.map 0x12000 0x2000 3 0x22 1 0) (.ok ())
    [⟨0x12, 0x14, 1, 0, 3, 0x22⟩] rfl Space.empty_smallWf (fun _ => rfl)
    (by decide +kernel) rfl (by decide +kernel)
  obtain ⟨s₂, hcall₂, -, htree₂⟩ := Space.exists_call (.map 0x11000 0x2000 3 0x22 2 0) (.ok ())
    [⟨0x11, 0x13, 2, 0, 3, 0x22⟩, ⟨0x13, 0x14, 1, 2, 3, 0x22⟩] htree₁ hwf₁ (fun _ => rfl)
    (by decide +kernel) rfl (by decide +kernel)
  refine ⟨s₁, s₂, h₀.step (l := (_, _)) hcall₁, hcall₂, by decide +kernel, ?_⟩
  rw [htree₁, htree₂]
  decide +kernel

end Ilobilix.Vmm
