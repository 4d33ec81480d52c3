import Ilobilix.Memory.Vmm.View

/-!
# Page table and tree agree

Pages are populated by `handle_pfault`, so the page table holds a part of what the tree and the objects
say. `Coherent` is the invariant: a page with a frame is covered by a mapping whose object holds that
frame at the index of the page, and the entry grants no right beyond the protection of the mapping.

`protect` rewrites the entries of its whole range and makes an entry without a frame present. The
condition `SpaceOp.KeepsCoherent` asks that the pages of the range that have a table are populated. It
also keeps `map` in the lower half: page map addresses beyond it are taken modulo `2 ^ 48`.
-/

namespace Ilobilix.Vmm

open Lib Intervals

/-! ## What a call does to the entries -/

/-- The pages of a replaced entry that a call passes to the page map. -/
def SpaceOp.InPart (op : SpaceOp) (q : ℕ) : Prop :=
  match op with
  | .unmapObj _ => True
  | _ => op.startp ≤ q ∧ q < op.endp

instance (op : SpaceOp) (q : ℕ) : Decidable (op.InPart q) :=
  match op with
  | .map .. => inferInstanceAs (Decidable (_ ∧ _))
  | .unmap .. => inferInstanceAs (Decidable (_ ∧ _))
  | .unmapObj _ => inferInstanceAs (Decidable True)
  | .protect .. => inferInstanceAs (Decidable (_ ∧ _))

/-- What the page map does to the entries of these pages. -/
def SpaceOp.update (op : SpaceOp) (value : BitVec 64) : BitVec 64 :=
  match op with
  | .protect _ _ prot => protectEntry value (toArch (pflagsOf prot) .normal .small)
  | _ => 0#64

def SpaceOp.isProtect : SpaceOp → Bool
  | .protect .. => true
  | _ => false

/-- A call that keeps the tree and replaces an entry has a proper range. -/
theorem SpaceOp.KeepsTree.range_le {tree : List Mapping} {op : SpaceOp} {e : Mapping}
    (htree : TreeWf tree) (h : op.KeepsTree tree) (hop : ∀ obj, op ≠ .unmapObj obj)
    (he : e ∈ op.entries tree) : op.startp ≤ op.endp := by
  have hover := SpaceOp.overlaps_of_mem_entries hop he
  obtain ⟨hmem, hu⟩ := SpaceOp.mem_entries he
  cases op with
  | map address length prot flags obj offset =>
      exact (SpaceOp.KeepsTree.map_range htree h he).le
  | unmap address length =>
      refine (h (SpaceOp.aligned_of_mem_entries he)).resolve_right fun hnone => ?_
      rw [hnone e hmem hu] at hover
      cases hover
  | unmapObj obj => exact absurd rfl (hop obj)
  | protect address length prot =>
      refine ((h (SpaceOp.aligned_of_mem_entries he)).resolve_right fun hnone => ?_).le
      rw [hnone e hmem hu] at hover
      cases hover

section Entries

variable {pm : Pagemap} {op : SpaceOp} {tree : List Mapping} {e : Mapping}

/-- The call of the page map for one entry: it updates the entries of the part. `protect` may fail, and
succeeds only where there are tables. -/
theorem SpaceOp.KeepsTree.part (htree : TreeWf tree) (hlow : ∀ e ∈ tree, e.endp ≤ lowerPages)
    (h : op.KeepsTree tree) (he : e ∈ op.entries tree) {st : Tables} (hwf : pm.SmallWf st) :
    (∃ st', Returns (fun fuel => op.part pm fuel e st) (st', .ok ()) ∧ pm.SmallWf st' ∧
      (∀ q < lowerPages, pm.pte st' q =
        if Covers Mapping.startp Mapping.endp e q ∧ op.InPart q then op.update (pm.pte st q)
        else pm.pte st q) ∧
      (op.isProtect = true → (∀ q < lowerPages, pm.HasTable st' q ↔ pm.HasTable st q) ∧
        ∀ q, Covers Mapping.startp Mapping.endp e q ∧ op.InPart q → pm.HasTable st q)) ∨
    (True ∧ ∃ st' err, Returns (fun fuel => op.part pm fuel e st) (st', .error err)) := by
  obtain ⟨hmem, -⟩ := SpaceOp.mem_entries he
  have hlowe := hlow e hmem
  have hnonempty := htree.separated.nonempty e hmem
  have hparts : ∀ startp endp : ℕ, max startp e.startp ≤ min endp e.endp → ∀ q,
      (max startp e.startp ≤ q ∧
        q < max startp e.startp + (min endp e.endp - max startp e.startp)) ↔
      Covers Mapping.startp Mapping.endp e q ∧ startp ≤ q ∧ q < endp := by
    intro startp endp hle q
    rw [Nat.add_sub_cancel' hle, max_le_iff, lt_min_iff, Covers]
    tauto
  have hrange : (∀ obj, op ≠ .unmapObj obj) →
      max op.startp e.startp ≤ min op.endp e.endp ∧ min op.endp e.endp ≤ lowerPages := by
    intro hop
    have hle := h.range_le htree hop he
    obtain ⟨hlo, hhi⟩ := overlaps_iff.mp (SpaceOp.overlaps_of_mem_entries hop he)
    omega
  cases op with
  | map address length prot flags obj offset =>
      obtain ⟨hle, hlow'⟩ := hrange fun _ => SpaceOp.noConfusion
      obtain ⟨st', hret, hwf', hupd⟩ := hwf.unmapPart hle hlow'
      refine Or.inl ⟨st', hret, hwf', fun q hq => ?_, Bool.false_ne_true.elim⟩
      rw [hupd.pte q hq]
      exact if_congr (hparts _ _ hle q) rfl rfl
  | unmap address length =>
      obtain ⟨hle, hlow'⟩ := hrange fun _ => SpaceOp.noConfusion
      obtain ⟨st', hret, hwf', hupd⟩ := hwf.unmapPart hle hlow'
      refine Or.inl ⟨st', hret, hwf', fun q hq => ?_, Bool.false_ne_true.elim⟩
      rw [hupd.pte q hq]
      exact if_congr (hparts _ _ hle q) rfl rfl
  | unmapObj obj =>
      have hle : max e.startp e.startp ≤ min e.endp e.endp := by omega
      obtain ⟨st', hret, hwf', hupd⟩ := hwf.unmapPart hle (by omega)
      refine Or.inl ⟨st', hret, hwf', fun q hq => ?_, Bool.false_ne_true.elim⟩
      rw [hupd.pte q hq]
      refine if_congr ((hparts _ _ hle q).trans ?_) rfl rfl
      exact ⟨fun hq => ⟨hq.1, trivial⟩, fun hq => ⟨hq.1, hq.1.1, hq.1.2⟩⟩
  | protect address length prot =>
      obtain ⟨hle, hlow'⟩ := hrange fun _ => SpaceOp.noConfusion
      obtain ⟨st', hret, hwf', hupd, htables, hhas⟩ | ⟨st', err, hret, -⟩ :=
        hwf.protectPart prot hle hlow'
      · refine Or.inl ⟨st', hret, hwf', fun q hq => ?_, fun _ => ⟨htables, fun q hq => ?_⟩⟩
        · rw [hupd.pte q hq]
          exact if_congr (hparts _ _ hle q) rfl rfl
        · exact hhas q (max_le hq.2.1 hq.1.1) (lt_min hq.2.2 hq.1.2)
      · exact Or.inr ⟨trivial, st', err, hret⟩

/-- The pages that a call passes to the page map for the given entries. -/
def SpaceOp.Passed (op : SpaceOp) (entries : List Mapping) (q : ℕ) : Prop :=
  ∃ e ∈ entries, Covers Mapping.startp Mapping.endp e q ∧ op.InPart q

instance (op : SpaceOp) (entries : List Mapping) (q : ℕ) : Decidable (op.Passed entries q) :=
  inferInstanceAs (Decidable (∃ e ∈ entries, _))

/-- The loop has passed the parts of all entries but `es` to the page map. -/
def SpaceOp.PartsDone (pm : Pagemap) (op : SpaceOp) (s : Space) (es : List Mapping) (s₁ : Space) :
    Prop :=
  pm.SmallWf s₁.pmap ∧ ∃ done, op.entries s.tree = done ++ es ∧
    (∀ q < lowerPages, pm.pte s₁.pmap q =
      if op.Passed done q then op.update (pm.pte s.pmap q) else pm.pte s.pmap q) ∧
    (op.isProtect = true → (∀ q < lowerPages, pm.HasTable s₁.pmap q ↔ pm.HasTable s.pmap q) ∧
      ∀ q, op.Passed done q → pm.HasTable s.pmap q)

theorem SpaceOp.PartsDone.step {s s₁ : Space} {es : List Mapping} (htree : TreeWf s.tree)
    (hlow : ∀ e ∈ s.tree, e.endp ≤ lowerPages) (hkeep : op.KeepsTree s.tree)
    (h : op.PartsDone pm s (e :: es) s₁) :
    (∃ pmap, Returns (fun fuel => op.part pm fuel e s₁.pmap) (pmap, .ok ()) ∧
      op.PartsDone pm s es { s₁ with
        pmap := pmap
        tree := replaceEntry Mapping.startp e (op.pieces e) s₁.tree }) ∨
    (True ∧ ∃ pmap err, Returns (fun fuel => op.part pm fuel e s₁.pmap) (pmap, .error err)) := by
  obtain ⟨hwf, done, hdone, hpte, htab⟩ := h
  have he : e ∈ op.entries s.tree := by
    rw [hdone]
    exact List.mem_append_right done List.mem_cons_self
  -- no entry is passed twice
  have hnot : e ∉ done := by
    have hnodup := op.nodup_entries htree.separated.nodup
    rw [hdone] at hnodup
    exact fun hmem => (List.nodup_append.mp hnodup).2.2 e hmem e List.mem_cons_self rfl
  refine (hkeep.part htree hlow he hwf).imp_left ?_
  rintro ⟨pmap, hret, hwf', hpte', htab'⟩
  have hpassed : ∀ q, op.Passed (done ++ [e]) q ↔
      op.Passed done q ∨ (Covers Mapping.startp Mapping.endp e q ∧ op.InPart q) := by
    intro q
    simp only [SpaceOp.Passed, List.mem_append, List.mem_singleton, or_and_right, exists_or,
      exists_eq_left]
  refine ⟨pmap, hret, hwf', done ++ [e], by rw [hdone, List.append_assoc]; rfl, fun q hq => ?_,
    fun hop => ⟨fun q hq => ((htab' hop).1 q hq).trans ((htab hop).1 q hq), fun q hq => ?_⟩⟩
  · rw [hpte' q hq, hpte q hq]
    by_cases hpart : Covers Mapping.startp Mapping.endp e q ∧ op.InPart q
    · rw [if_pos hpart, if_neg, if_pos ((hpassed q).mpr (Or.inr hpart))]
      rintro ⟨e', he', hpart'⟩
      have hmem' : e' ∈ op.entries s.tree := by
        rw [hdone]
        exact List.mem_append_left _ he'
      have heq := htree.separated.eq_of_covers (SpaceOp.mem_entries hmem').1
        (SpaceOp.mem_entries he).1 hpart'.1 hpart.1
      exact hnot (heq ▸ he')
    · rw [if_neg hpart]
      exact if_congr ⟨fun h => (hpassed q).mpr (Or.inl h),
        fun h => ((hpassed q).mp h).resolve_right hpart⟩ rfl rfl
  · rcases (hpassed q).mp hq with hq | hpart
    · exact (htab hop).2 q hq
    · have hlt : q < lowerPages := lt_of_lt_of_le hpart.1.2 (hlow e (SpaceOp.mem_entries he).1)
      exact ((htab hop).1 q hlt).mp ((htab' hop).2 q hpart)

/-- A call whose loop panics does not return. -/
theorem Space.Call.not_stops {s s' : Space} {r : Except Error Unit} (h : s.Call pm op r s') :
    ¬ Stops (fun fuel => s.replaceAll op.pieces (op.part pm fuel) (op.entries s.tree)) .panic := by
  rintro ⟨N, hN⟩
  obtain ⟨M, hM⟩ := h
  have hrun := hM (max M N) (le_max_left M N)
  have hstop := hN (max M N) (le_max_right M N)
  dsimp only at hrun hstop
  rw [Space.run_eq, hstop] at hrun
  cases hrun

/-- The page table after a call. A `protect` that returns found tables at all its pages. -/
theorem Space.Call.ptes {s s' : Space} {r : Except Error Unit} (htree : TreeWf s.tree)
    (hlow : ∀ e ∈ s.tree, e.endp ≤ lowerPages) (hkeep : op.KeepsTree s.tree)
    (hwf : pm.SmallWf s.pmap) (h : s.Call pm op r s') :
    pm.SmallWf s'.pmap ∧
      (∀ q < lowerPages, pm.pte s'.pmap q =
        if op.Passed (op.entries s.tree) q then op.update (pm.pte s.pmap q) else pm.pte s.pmap q) ∧
      (op.isProtect = true → ∀ q, op.Passed (op.entries s.tree) q → pm.HasTable s.pmap q) := by
  have hnone : ∀ q, ¬ op.Passed [] q := by
    rintro q ⟨e, he, -⟩
    cases he
  have hrule := Space.replaceAll_rule (op.PartsDone pm s) True
    (fun _ _ _ hdone => SpaceOp.PartsDone.step htree hlow hkeep hdone)
    ⟨hwf, [], rfl, fun q _ => (if_neg (hnone q)).symm,
      fun _ => ⟨fun _ _ => Iff.rfl, fun q hq => absurd hq (hnone q)⟩⟩
  obtain ⟨s₁, hret, hwf₁, done, hdone, hpte, htab⟩ | ⟨-, hstops⟩ := hrule
  · have heq : s' = (op.finish s.tree s₁).1 :=
      congrArg Prod.fst (h.unique (Space.call_of_returns hret))
    rw [heq]
    rw [List.append_nil] at hdone
    rw [hdone]
    exact ⟨hwf₁, hpte, fun hop => (htab hop).2⟩
  · exact absurd hstops h.not_stops

end Entries

/-! ## Rights -/

/-- A present entry grants no right beyond the protection. -/
def RightsWithin (value : BitVec 64) (prot : BitVec 8) : Prop :=
  isPresent value = true → prot.getLsbD 0 = true ∧
    (value.getLsbD 1 = true → prot.getLsbD 1 = true) ∧
    (value.getLsbD 63 = false → prot.getLsbD 2 = true)

/-- An entry with the flags of a protection. -/
theorem rightsWithin_of_flags {value : BitVec 64} {prot : BitVec 8}
    (h : ∀ i, paMask.getLsbD i = false →
      value.getLsbD i = (toArch (pflagsOf prot) .normal .small).getLsbD i) :
    RightsWithin value prot := by
  intro hpresent
  rw [isPresent, h 0 rfl, toArch_present] at hpresent
  rw [h 1 rfl, h 63 rfl, toArch_write, toArch_noExec]
  refine ⟨hpresent, id, fun hexec => ?_⟩
  rwa [Bool.not_eq_false'] at hexec

theorem isPresent_protectEntry {value : BitVec 64} {prot : BitVec 8} :
    isPresent (protectEntry value (toArch (pflagsOf prot) .normal .small)) = prot.getLsbD 0 := by
  rw [isPresent, protectEntry, getLsbD_reflag _ _ rfl, toArch_present]
  rfl

/-! ## The invariant -/

/-- A physical page that an object may hold. -/
def IsFrame (frame : ℕ) : Prop := frame ≠ 0 ∧ psize ∣ frame ∧ frame < 2 ^ 52

structure Coherent (pm : Pagemap) (s : Space) : Prop where
  tree : TreeWf s.tree
  lower : ∀ e ∈ s.tree, e.endp ≤ lowerPages
  tables : pm.SmallWf s.pmap
  frames : ∀ obj idx frame, s.pages obj idx = some frame → IsFrame frame
  populated : ∀ q < lowerPages, getaddr (pm.pte s.pmap q) ≠ 0 → ∃ c, view s.tree q = some c ∧
    s.pages c.obj c.idx = some (getaddr (pm.pte s.pmap q)) ∧ RightsWithin (pm.pte s.pmap q) c.prot
  present : ∀ q < lowerPages, isPresent (pm.pte s.pmap q) = true → getaddr (pm.pte s.pmap q) ≠ 0

/-- The calls that keep the page table coherent. -/
def SpaceOp.KeepsCoherent (pm : Pagemap) (s : Space) (op : SpaceOp) : Prop :=
  op.KeepsView s.tree ∧ (op.aligned = true →
    match op with
    | .map address length .. => address.toNat + length.toNat ≤ 2 ^ 47
    | .protect address length prot => prot.getLsbD 0 = true → ∀ q, InRange address length q →
        ∀ c, view s.tree q = some c → c.untouchable = false → pm.HasTable s.pmap q →
        getaddr (pm.pte s.pmap q) ≠ 0
    | _ => True)

section Step

variable {pm : Pagemap} {op : SpaceOp} {s s' : Space} {r : Except Error Unit} {q : ℕ}

/-- A page that is not passed to the page map keeps its view. -/
theorem Space.Call.view_of_not_passed (htree : TreeWf s.tree) (hkeep : op.KeepsView s.tree)
    (h : s.Call pm op r s') {c : Cell} (hview : Vmm.view s.tree q = some c)
    (hpassed : ¬ op.Passed (op.entries s.tree) q) : Vmm.view s'.tree q = some c := by
  have hwf := h.treeWf htree hkeep.1
  obtain ⟨hr, -, htree'⟩ := h.eq
  obtain ⟨e, hmem, hcov, rfl⟩ := (view_eq_some htree).mp hview
  have hloop : Vmm.view (replaceEntries Mapping.startp op.pieces (op.entries s.tree) s.tree) q =
      some (e.cell q) := by
    by_cases he : e ∈ op.entries s.tree
    · have hpart : ¬ op.InPart q := fun hpart => hpassed ⟨e, he, hcov, hpart⟩
      rw [hkeep.view_entry htree he hcov]
      cases op with
      | map => exact if_neg hpart
      | unmap => exact if_neg hpart
      | unmapObj => exact absurd trivial hpart
      | protect => exact congrArg some (if_neg hpart)
    · exact hkeep.view_other htree hmem he hcov
  cases r with
  | error err => rwa [htree', SpaceOp.emplaced_error]
  | ok =>
      cases op with
      | map address length prot flags obj offset =>
          obtain ⟨hal, hb⟩ := SpaceOp.result_ok_iff.mp hr.symm
          rw [htree', SpaceOp.emplaced] at hwf ⊢
          rw [view_emplace (hkeep.1.afterLoop htree).1 hwf, if_neg]
          · exact hloop
          · intro hnew
            refine hpassed ⟨e, ?_, hcov, hnew⟩
            rw [SpaceOp.map_entries hal hb]
            exact List.mem_filter.mpr ⟨hmem, overlaps_of_covers hcov hnew⟩
      | unmap => rwa [htree']
      | unmapObj => rwa [htree']
      | protect => rwa [htree']

/-- The mappings stay in the lower half. -/
theorem Space.Call.lower (hs : Coherent pm s) (hkeep : op.KeepsCoherent pm s)
    (h : s.Call pm op r s') : ∀ e ∈ s'.tree, e.endp ≤ lowerPages := by
  obtain ⟨hr, -, htree'⟩ := h.eq
  have hloop : ∀ e ∈ replaceEntries Mapping.startp op.pieces (op.entries s.tree) s.tree,
      e.endp ≤ lowerPages := by
    intro x hx
    rcases ((hkeep.1.1.afterLoop hs.tree).2 x).mp hx with ⟨hx, -⟩ | ⟨e, he, hx⟩
    · exact hs.lower x hx
    · exact le_trans ((hkeep.1.1.pieces hs.tree he).1.within x hx).2.2
        (hs.lower e (SpaceOp.mem_entries he).1)
  rw [htree']
  cases r with
  | error err => rwa [SpaceOp.emplaced_error]
  | ok =>
      cases op with
      | map address length prot flags obj offset =>
          obtain ⟨hal, -⟩ := SpaceOp.result_ok_iff.mp hr.symm
          have hsum := hkeep.2 hal
          intro x hx
          rcases mem_emplace.mp hx with rfl | hx
          · change endPage address.toNat length.toNat ≤ lowerPages
            rw [endPage, divRoundup_psize, lowerPages]
            simp only [psize]
            omega
          · exact hloop x hx
      | unmap => exact hloop
      | unmapObj => exact hloop
      | protect => exact hloop

/-- A call that meets the condition keeps the page table coherent. -/
theorem Coherent.call (hs : Coherent pm s) (hkeep : op.KeepsCoherent pm s) (h : s.Call pm op r s') :
    Coherent pm s' := by
  obtain ⟨htables, hpte, hhas⟩ := h.ptes hs.tree hs.lower hkeep.1.1 hs.tables
  have hpages := h.eq.2.1
  have hwf := h.treeWf hs.tree hkeep.1.1
  refine ⟨hwf, h.lower hs hkeep, htables, by rw [hpages]; exact hs.frames, fun q hq hframe => ?_,
    fun q hq hpresent => ?_⟩
  · rw [hpte q hq] at hframe ⊢
    rw [hpages]
    by_cases hpassed : op.Passed (op.entries s.tree) q
    · rw [if_pos hpassed] at hframe ⊢
      cases op with
      | map => exact absurd getaddr_zero hframe
      | unmap => exact absurd getaddr_zero hframe
      | unmapObj => exact absurd getaddr_zero hframe
      | protect address length prot =>
          -- the frame stays and the protection is that of the new mapping
          obtain ⟨e, he, hcov, hpart⟩ := hpassed
          have haddr : getaddr (SpaceOp.update (.protect address length prot) (pm.pte s.pmap q)) =
              getaddr (pm.pte s.pmap q) := getaddr_protectEntry (toArch_small_paMask _ _)
          rw [haddr] at hframe ⊢
          obtain ⟨c, hview, hframe, -⟩ := hs.populated q hq hframe
          rw [view_of_covers hs.tree (SpaceOp.mem_entries he).1 hcov] at hview
          cases hview
          have hview' := hkeep.1.view_entry hs.tree he hcov
          rw [SpaceOp.onCell, if_pos (show _ ∧ _ from hpart)] at hview'
          refine ⟨{ e.cell q with prot := prot }, ?_, hframe, rightsWithin_of_flags fun i hi => ?_⟩
          · rw [h.eq.2.2]
            cases r with
            | error => exact hview'
            | ok => exact hview'
          · exact getLsbD_reflag _ _ hi
    · rw [if_neg hpassed] at hframe ⊢
      obtain ⟨c, hview, hc⟩ := hs.populated q hq hframe
      exact ⟨c, h.view_of_not_passed hs.tree hkeep.1 hview hpassed, hc⟩
  · rw [hpte q hq] at hpresent ⊢
    by_cases hpassed : op.Passed (op.entries s.tree) q
    · rw [if_pos hpassed] at hpresent ⊢
      cases op with
      | map => exact absurd (show isPresent 0#64 = true from hpresent) (by decide)
      | unmap => exact absurd (show isPresent 0#64 = true from hpresent) (by decide)
      | unmapObj => exact absurd (show isPresent 0#64 = true from hpresent) (by decide)
      | protect address length prot =>
          have htable := hhas rfl q hpassed
          obtain ⟨e, he, hcov, hpart⟩ := hpassed
          have hread : prot.getLsbD 0 = true := isPresent_protectEntry.symm.trans hpresent
          have hal := SpaceOp.aligned_of_mem_entries he
          obtain ⟨hmem, hu⟩ := SpaceOp.mem_entries he
          have hrange : InRange address length q := by
            obtain ⟨hsum, hrange⟩ := hkeep.1.2 hal
            rcases hrange with hrange | hnone
            · exact (protect_range_iff prot (of_decide_eq_true hal) hsum hrange).mp hpart
            · have hover := SpaceOp.overlaps_of_mem_entries (fun _ => SpaceOp.noConfusion) he
              exact absurd (overlaps_iff.mp hover).1 (not_lt.mpr (hnone e hmem hu))
          have haddr : getaddr (SpaceOp.update (.protect address length prot) (pm.pte s.pmap q)) =
              getaddr (pm.pte s.pmap q) := getaddr_protectEntry (toArch_small_paMask _ _)
          rw [haddr]
          exact hkeep.2 hal hread q hrange _ (view_of_covers hs.tree hmem hcov) hu htable
    · rw [if_neg hpassed] at hpresent ⊢
      exact hs.present q hq hpresent

end Step

/-! ## Page faults -/

section Fault

variable {pm : Pagemap} {s s' : Space}

/-- The page that `get_page` returns is held by the object afterwards, and no other page changes. -/
theorem Space.getPage_spec {obj idx requested pg : ℕ} {s₁ : Space}
    (h : s.getPage obj idx requested = (s₁, pg)) :
    s₁.tree = s.tree ∧ s₁.pmap = s.pmap ∧ (pg ≠ 0 → s₁.pages obj idx = some pg) ∧
      (∀ o i f, s.pages o i = some f → s₁.pages o i = some f) ∧
      ∀ o i f, s₁.pages o i = some f → s.pages o i = some f ∨ (f = requested ∧ f ≠ 0) := by
  rw [Space.getPage] at h
  split at h
  · rename_i page hpage
    cases h
    exact ⟨rfl, rfl, fun _ => hpage, fun _ _ _ => id, fun _ _ _ => Or.inl⟩
  · rename_i hnone
    split at h
    · rename_i hne
      cases h
      refine ⟨rfl, rfl, fun _ => by simp, fun o i f hf => ?_, fun o i f hf => ?_⟩
      · by_cases ho : o = obj
        · subst ho
          by_cases hi : i = idx
          · subst hi
            rw [hnone] at hf
            cases hf
          · simpa [Function.update_of_ne hi] using hf
        · simpa [Function.update_of_ne ho] using hf
      · by_cases ho : o = obj
        · subst ho
          by_cases hi : i = idx
          · subst hi
            simp only [Function.update_self, Option.some.injEq] at hf
            exact Or.inr ⟨hf.symm, hf ▸ hne⟩
          · simp only [Function.update_self, Function.update_of_ne hi] at hf
            exact Or.inl hf
        · simp only [Function.update_of_ne ho] at hf
          exact Or.inl hf
    · cases h
      exact ⟨rfl, rfl, fun hne => absurd rfl hne, fun _ _ _ => id, fun _ _ _ => Or.inl⟩

/-- `get_page` keeps the page table coherent. -/
theorem Coherent.getPage (hs : Coherent pm s) {obj idx requested pg : ℕ} {s₁ : Space}
    (hreq : requested = 0 ∨ IsFrame requested) (h : s.getPage obj idx requested = (s₁, pg)) :
    Coherent pm s₁ := by
  obtain ⟨htree, hpmap, -, hold, hnew⟩ := Space.getPage_spec h
  refine ⟨htree ▸ hs.tree, htree ▸ hs.lower, hpmap ▸ hs.tables, fun o i f hf => ?_, ?_, ?_⟩
  · rcases hnew o i f hf with hf | ⟨rfl, hne⟩
    · exact hs.frames o i f hf
    · exact hreq.resolve_left hne
  · rw [htree, hpmap]
    intro q hq hframe
    obtain ⟨c, hview, hc, hrights⟩ := hs.populated q hq hframe
    exact ⟨c, hview, hold _ _ _ hc, hrights⟩
  · rw [hpmap]
    exact hs.present

/-- The entries of the lower half are the same. -/
theorem Coherent.of_pte (hs : Coherent pm s) {pmap : Tables} (hwf : pm.SmallWf pmap)
    (hpte : ∀ q < lowerPages, pm.pte pmap q = pm.pte s.pmap q) :
    Coherent pm { s with pmap := pmap } := by
  refine ⟨hs.tree, hs.lower, hwf, hs.frames, fun q hq => ?_, fun q hq => ?_⟩
  · dsimp only
    rw [hpte q hq]
    exact hs.populated q hq
  · dsimp only
    rw [hpte q hq]
    exact hs.present q hq

/-- Mapping the page of an object at its place. -/
theorem Coherent.mapPage (hs : Coherent pm s) {entry : Mapping} {page pg : ℕ} {pmap : Tables}
    (hmem : entry ∈ s.tree) (hcov : Covers Mapping.startp Mapping.endp entry page)
    (hpg : s.pages entry.obj ((entry.offsetp + (page - entry.startp)) % 2 ^ 64) = some pg)
    (hwf : pm.SmallWf pmap)
    (hupd : pm.Updates page 1 (fun q _ => mapEntry ((pg + (q - page) * psize) % 2 ^ 64)
      (toArch (pflagsOf entry.prot) .normal .small)) s.pmap pmap) :
    Coherent pm { s with pmap := pmap } := by
  obtain ⟨hne, halign, hlt⟩ := hs.frames _ _ _ hpg
  have hpte : ∀ q < lowerPages, pm.pte pmap q = if q = page then
      mapEntry pg (toArch (pflagsOf entry.prot) .normal .small) else pm.pte s.pmap q := by
    intro q hq
    rw [hupd.pte q hq]
    refine if_ctx_congr (by omega) (fun heq => ?_) fun _ => rfl
    rw [heq, Nat.sub_self, Nat.zero_mul, Nat.add_zero, Nat.mod_eq_of_lt (by omega)]
  have haddr : getaddr (mapEntry pg (toArch (pflagsOf entry.prot) .normal .small)) = pg :=
    getaddr_mk halign hlt (toArch_small_paMask _ _)
  refine ⟨hs.tree, hs.lower, hwf, hs.frames, fun q hq hframe => ?_, fun q hq hpresent => ?_⟩
  · dsimp only at hframe ⊢
    rw [hpte q hq] at hframe ⊢
    by_cases heq : q = page
    · subst heq
      rw [if_pos rfl, haddr]
      exact ⟨entry.cell q, view_of_covers hs.tree hmem hcov, hpg,
        rightsWithin_of_flags fun i hi => getLsbD_mk _ _ hi⟩
    · rw [if_neg heq] at hframe ⊢
      exact hs.populated q hq hframe
  · dsimp only at hpresent ⊢
    rw [hpte q hq] at hpresent ⊢
    by_cases heq : q = page
    · rwa [if_pos heq, haddr]
    · rw [if_neg heq] at hpresent ⊢
      exact hs.present q hq hpresent

/-- A page fault in the lower half changes nothing, or asks the object of an entry that covers the page
for its frame, and then may map that frame at the page. -/
theorem Space.handlePfault_lower (hpm : pm.FreshTables) (hwf : pm.SmallWf s.pmap)
    (hlower : ∀ e ∈ s.tree, e.endp ≤ lowerPages) {addr : UInt64} {useCount requested : ℕ}
    {onWrite ret : Bool}
    (h : Returns (fun fuel => s.handlePfault pm fuel addr.toNat onWrite useCount requested)
      (s', ret)) :
    s' = s ∨ ∃ entry ∈ s.tree, Covers Mapping.startp Mapping.endp entry (addr.toNat / psize) ∧
      ∃ s₁ pg, s.getPage entry.obj ((addr.toNat / psize - entry.startp + entry.offsetp) % 2 ^ 64)
          requested = (s₁, pg) ∧
        (s' = s₁ ∨ ∃ pmap, pm.Extends (· < 256) s₁.pmap pmap ∧
          (s' = { s₁ with pmap := pmap } ∨
          (pg ≠ 0 ∧ ∃ pmap', pm.SmallWf pmap' ∧
            pm.Updates (addr.toNat / psize) 1 (fun q _ =>
              mapEntry ((pg + (q - addr.toNat / psize) * psize) % 2 ^ 64)
                (toArch (pflagsOf entry.prot) .normal .small)) pmap pmap' ∧
            s' = { s₁ with pmap := pmap' }))) := by
  obtain ⟨N, hN⟩ := h
  obtain ⟨-, rfl⟩ | ⟨entry, hfind, s₁, pg, hget, hcases⟩ :=
    Space.handlePfault_cases (hN N le_rfl)
  · exact Or.inl rfl
  · have hmem := List.mem_of_find?_eq_some hfind
    have hcov : Covers Mapping.startp Mapping.endp entry (addr.toNat / psize) := by
      have hsome := List.find?_some hfind
      simp only [Bool.and_eq_true, decide_eq_true_eq] at hsome
      exact hsome
    refine Or.inr ⟨entry, hmem, hcov, s₁, pg, hget, ?_⟩
    have hwf₁ : pm.SmallWf s₁.pmap := (Space.getPage_spec hget).2.1 ▸ hwf
    have hlow : addr.toNat / psize < lowerPages := lt_of_lt_of_le hcov.2 (hlower entry hmem)
    have haddr : addr.toNat / psize * psize % 2 ^ 64 = addr.toNat / psize * psize := by
      refine Nat.mod_eq_of_lt ?_
      simp only [lowerPages, psize] at hlow ⊢
      omega
    obtain ⟨-, rfl⟩ | ⟨hpg, pmap, tr, htr, hcases⟩ := hcases
    · exact Or.inl rfl
    · rw [haddr] at htr hcases
      have hext := hwf₁.translate_extends hlow htr
      refine Or.inr ⟨pmap, hext, ?_⟩
      obtain ⟨-, rfl⟩ | ⟨hne, -⟩ := hcases
      · exact Or.inl rfl
      · -- the page map returns the same for every fuel from `N` on
        have hmap : ∀ fuel, N ≤ fuel → ∃ res, pm.map fuel (addr.toNat / psize * psize) pg psize
            (pflagsOf entry.prot) .small .normal pmap = .ok (s'.pmap, res) ∧
            s' = { s₁ with pmap := s'.pmap } := by
          intro fuel hfuel
          obtain ⟨hfind', -⟩ | ⟨entry', hfind', s₁', pg', hget', hcases'⟩ :=
            Space.handlePfault_cases (hN fuel hfuel)
          · rw [hfind] at hfind'
            cases hfind'
          · cases hfind.symm.trans hfind'
            cases hget.symm.trans hget'
            obtain ⟨hzero, -⟩ | ⟨-, pmap₂, tr', htr', hcases'⟩ := hcases'
            · exact absurd hzero hpg
            · rw [haddr] at htr' hcases'
              cases htr.symm.trans htr'
              obtain ⟨heq, -⟩ | ⟨-, pmap', res, hmap, rfl⟩ := hcases'
              · exact absurd heq hne
              · exact ⟨res, hmap, rfl⟩
        have hrange : addr.toNat / psize * psize + psize ≤ 2 ^ 47 := by
          simp only [lowerPages, psize] at hlow ⊢
          omega
        obtain ⟨st', ⟨M, hM⟩, hwf', -, hupd, -⟩ | ⟨M, hM⟩ := @Pagemap.SmallWf.map pm pmap hpm
          (hext.small hwf₁) (addr.toNat / psize) pg psize hrange (pflagsOf entry.prot) .normal
        · obtain ⟨res, hres, heq⟩ := hmap (max N M) (le_max_left N M)
          have hM := hM (max N M) (le_max_right N M)
          dsimp only at hM
          rw [hM] at hres
          cases hres
          have hturns : turns psize psize = 1 := rfl
          rw [hturns] at hupd
          exact Or.inr ⟨hpg, _, hwf', hupd, heq⟩
        · obtain ⟨res, hres, -⟩ := hmap (max N M) (le_max_left N M)
          have hM := hM (max N M) (le_max_right N M)
          dsimp only at hM
          rw [hM] at hres
          cases hres

/-- A page fault keeps the page table coherent. -/
theorem Coherent.fault (hpm : pm.FreshTables) (hs : Coherent pm s) {addr : UInt64}
    {useCount requested : ℕ} {onWrite ret : Bool} (hreq : requested = 0 ∨ IsFrame requested)
    (h : Returns (fun fuel => s.handlePfault pm fuel addr.toNat onWrite useCount requested)
      (s', ret)) : Coherent pm s' := by
  obtain rfl | ⟨entry, hmem, hcov, s₁, pg, hget, hcases⟩ :=
    Space.handlePfault_lower hpm hs.tables hs.lower h
  · exact hs
  · have hs₁ := hs.getPage hreq hget
    obtain ⟨htree, -, hpages, -⟩ := Space.getPage_spec hget
    obtain rfl | ⟨pmap, hext, hcases⟩ := hcases
    · exact hs₁
    · have hs₂ := hs₁.of_pte (hext.small hs₁.tables) fun q hq => hext.pte hq
      obtain rfl | ⟨hpg, pmap', hwf', hupd, rfl⟩ := hcases
      · exact hs₂
      · refine hs₂.mapPage (htree ▸ hmem) hcov ?_ hwf' hupd
        have hheld := hpages hpg
        rw [Nat.add_comm] at hheld
        exact hheld

end Fault

/-! ## Runs -/

/-- What happens to an address space and its objects. A page fault has what the environment
contributes: the use count of the object and the page that `request_page` returns. `object::read`,
`write`, `clear` and `copy_to` call `get_page`. -/
inductive CoherenceOp
  | call (op : SpaceOp)
  | fault (addr : UInt64) (onWrite : Bool) (useCount requested : ℕ)
  | getPage (obj idx requested : ℕ)

/-- The runs of an address space whose lower half starts empty. The physical allocator returns zero or
a page. -/
def Space.coherenceSystem (pm : Pagemap) : TransitionSystem Space CoherenceOp where
  init s := s.tree = [] ∧ (∀ j < 256, s.pmap.mem pm.table j = 0#64) ∧
    ∀ obj idx frame, s.pages obj idx = some frame → IsFrame frame
  step s l s' :=
    match l with
    | .call op => ∃ r, s.Call pm op r s'
    | .fault addr onWrite useCount requested => (requested = 0 ∨ IsFrame requested) ∧ ∃ r,
        Returns (fun fuel => s.handlePfault pm fuel addr.toNat onWrite useCount requested) (s', r)
    | .getPage obj idx requested => (requested = 0 ∨ IsFrame requested) ∧
        s' = (s.getPage obj idx requested).1

/-- The condition on the calls. -/
def CoherenceOp.KeepsCoherent (pm : Pagemap) (s : Space) : CoherenceOp → Prop
  | .call op => op.KeepsCoherent pm s
  | _ => True

/-- In a run whose calls all meet the condition, every present entry of the lower half lies on a page
that a mapping covers, holds the frame of the object of the mapping at the index of the page, and
grants no right beyond the protection of the mapping. -/
theorem page_table_coherent {pm : Pagemap} (hpm : pm.FreshTables) {s : Space}
    (h : ((Space.coherenceSystem pm).restrict fun s l => l.KeepsCoherent pm s).Reachable s) :
    ∀ q < lowerPages, isPresent (pm.pte s.pmap q) = true →
      ∃ m ∈ s.tree, (m.startp ≤ q ∧ q < m.endp) ∧
        s.pages m.obj ((m.offsetp + (q - m.startp)) % 2 ^ 64) = some (getaddr (pm.pte s.pmap q)) ∧
        RightsWithin (pm.pte s.pmap q) m.prot := by
  have hs : Coherent pm s := by
    refine h.invariant (fun s hs => ?_) ?_
    · obtain ⟨htree, hempty, hframes⟩ := hs
      obtain ⟨hwf, hpte⟩ := Pagemap.SmallWf.of_empty hempty
      refine ⟨?_, ?_, hwf, hframes, fun q hq hframe => ?_, fun q hq hpresent => ?_⟩
      · rw [htree]
        exact ⟨Separated.nil, by simp⟩
      · rw [htree]
        simp
      · rw [hpte q hq] at hframe
        exact absurd getaddr_zero hframe
      · rw [hpte q hq] at hpresent
        exact absurd hpresent (by decide)
    · rintro s (op | ⟨addr, onWrite, useCount, requested⟩ | ⟨obj, idx, requested⟩) s' - hs
        ⟨hkeep, hstep⟩
      · obtain ⟨r, hcall⟩ := hstep
        exact hs.call hkeep hcall
      · obtain ⟨hreq, r, hret⟩ := hstep
        exact hs.fault hpm hreq hret
      · obtain ⟨hreq, rfl⟩ := hstep
        exact hs.getPage hreq rfl
  intro q hq hpresent
  obtain ⟨c, hview, hframe, hrights⟩ := hs.populated q hq (hs.present q hq hpresent)
  obtain ⟨m, hm, hcov, rfl⟩ := (view_eq_some hs.tree).mp hview
  exact ⟨m, hm, hcov, hframe, hrights⟩

/-- Two pages are mapped and none is populated. -/
def exampleMapped : Space := ⟨Tables.empty, [⟨0x10, 0x12, 1, 0, 3, 0x22⟩], fun _ _ => none⟩

/-- The state that a computation returns. -/
def stateOf {α : Type} (x : Except Stop (Space × α)) : Space :=
  match x with
  | .ok (s, _) => s
  | .error _ => Space.empty

/-- The first of the two pages is populated. -/
def exampleFaulted : Space :=
  stateOf (exampleMapped.handlePfault exampleMachine 5 0x10000 false 1 0x5000)

/-- The second page is made read only. -/
def exampleProtected : Space := stateOf (exampleFaulted.protect exampleMachine 5 0x11000 0x1000 1)

theorem exampleMapped_call :
    Space.empty.Call exampleMachine (.map 0x10000 0x2000 3 0x22 1 0) (.ok ()) exampleMapped :=
  ⟨0, fun _ _ => rfl⟩

set_option maxRecDepth 10000 in
theorem exampleFaulted_returns : Returns (fun fuel => exampleMapped.handlePfault
    exampleMachine fuel (0x10000 : UInt64).toNat false 1 0x5000) (exampleFaulted, true) := by
  refine ⟨5, fun fuel hfuel => ?_⟩
  obtain ⟨n, rfl⟩ := Nat.exists_eq_add_of_le' hfuel
  rfl

private theorem exampleProtected_call :
    exampleFaulted.Call exampleMachine (.protect 0x11000 0x1000 1) (.ok ()) exampleProtected := by
  refine ⟨5, fun fuel hfuel => ?_⟩
  obtain ⟨n, rfl⟩ := Nat.exists_eq_add_of_le' hfuel
  rfl

theorem isFrame_example : IsFrame 0x5000 := ⟨by decide, ⟨5, rfl⟩, by decide⟩

theorem page_table_coherent_fault : isPresent (exampleMachine.pte exampleFaulted.pmap 0x10) = true ∧
    ∃ m ∈ exampleFaulted.tree, (m.startp ≤ 0x10 ∧ 0x10 < m.endp) ∧
      exampleFaulted.pages m.obj ((m.offsetp + (0x10 - m.startp)) % 2 ^ 64) =
        some (getaddr (exampleMachine.pte exampleFaulted.pmap 0x10)) ∧
      RightsWithin (exampleMachine.pte exampleFaulted.pmap 0x10) m.prot := by
  have h₀ : ((Space.coherenceSystem exampleMachine).restrict fun s l =>
      l.KeepsCoherent exampleMachine s).Reachable Space.empty :=
    .init ⟨rfl, fun _ _ => rfl, nofun⟩
  have hview : SpaceOp.KeepsView Space.empty.tree (.map 0x10000 0x2000 3 0x22 1 0) := by
    decide +kernel
  have h₁ := h₀.step (l := CoherenceOp.call (.map 0x10000 0x2000 3 0x22 1 0))
    ⟨⟨hview, fun _ => by decide⟩, _, exampleMapped_call⟩
  have h₂ := h₁.step (l := CoherenceOp.fault 0x10000 false 1 0x5000)
    ⟨trivial, Or.inr isFrame_example, _, exampleFaulted_returns⟩
  have hpresent : isPresent (exampleMachine.pte exampleFaulted.pmap 0x10) = true := by
    decide +kernel
  exact ⟨hpresent, page_table_coherent exampleMachine_freshTables h₂ 0x10 (by decide) hpresent⟩

/-- The `protect` of a page that was never populated, next to one that was, makes an entry present
that leads to the physical page at zero. -/
theorem protect_exposes_page_zero :
    (Space.coherenceSystem exampleMachine).Reachable exampleProtected ∧
    isPresent (exampleMachine.pte exampleProtected.pmap 0x11) = true ∧
    getaddr (exampleMachine.pte exampleProtected.pmap 0x11) = 0 ∧
    ∀ m ∈ exampleProtected.tree, m.startp ≤ 0x11 ∧ 0x11 < m.endp →
      exampleProtected.pages m.obj ((m.offsetp + (0x11 - m.startp)) % 2 ^ 64) = none := by
  have h₀ : (Space.coherenceSystem exampleMachine).Reachable Space.empty :=
    .init ⟨rfl, fun _ _ => rfl, nofun⟩
  have h₁ := h₀.step (l := CoherenceOp.call (.map 0x10000 0x2000 3 0x22 1 0))
    ⟨_, exampleMapped_call⟩
  have h₂ := h₁.step (l := CoherenceOp.fault 0x10000 false 1 0x5000)
    ⟨Or.inr isFrame_example, _, exampleFaulted_returns⟩
  have h₃ := h₂.step (l := CoherenceOp.call (.protect 0x11000 0x1000 1)) ⟨_, exampleProtected_call⟩
  refine ⟨h₃, ?_⟩
  decide +kernel

end Ilobilix.Vmm
