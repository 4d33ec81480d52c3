import Ilobilix.Memory.Vmm.Coherence
import Ilobilix.Memory.Vmm.Failure
import Ilobilix.Memory.Vmm.Fault

/-!
# Which memory calls panic

`map`, `unmap` and `protect` of an address space panic if the page map reports an error. `pagemap::unmap`
passes over pages without a table, so `mmap` and `munmap` never panic, whatever the tree and the tables
are: `run_ne_panic`. `pagemap::protect` reports such a page. Tables are made by page faults only, so a
`mprotect` of a mapping panics where no page around was touched before: `user_call_panics_iff`.

The tables are followed through runs that stay in the lower half (`CoherenceOp.InLower`): beyond it the
page map has the pages of the kernel, among them larger ones, and a range whose end wraps around goes
through all of the address space.
-/

namespace Ilobilix.Vmm

open Lib Intervals

/-! ## `unmap` never fails -/

section Unmap

variable {pm : Pagemap} {fuel : ℕ} {s : Space}

/-- A loop whose body succeeds succeeds or is cut off. -/
theorem forPages_of_ok {npsize length : ℕ}
    {body : ℕ → Tables → Except Stop (Tables × Except Error Unit)}
    (h : ∀ i st, ∃ st', body i st = .ok (st', .ok ())) (fuel i : ℕ) (st : Tables) :
    forPages npsize length body fuel i st = .error .fuel ∨
      ∃ st', forPages npsize length body fuel i st = .ok (st', .ok ()) := by
  induction fuel generalizing i st with
  | zero => exact Or.inl rfl
  | succ fuel ih =>
      rw [forPages]
      split
      · obtain ⟨st', hbody⟩ := h i st
        rw [hbody]
        exact ih _ st'
      · exact Or.inr ⟨st, rfl⟩

theorem Pagemap.unmapPage_ok (pm : Pagemap) (vaddr i : ℕ) (st : Tables) :
    ∃ st', pm.unmapPage vaddr .small i st = .ok (st', .ok ()) := by
  rw [Pagemap.unmapPage, Pagemap.getpte]
  obtain ⟨⟨st', r⟩, hpte⟩ | ⟨hfalse, -⟩ := pm.getpteFrom_total ((vaddr + i) % 2 ^ 64)
    (levels - PageSize.small.toNat - 1) false levels pm.table 0 (12 + (levels - 1) * 9) st
  · rw [hpte]
    cases r with
    | error err => exact ⟨st', rfl⟩
    | ok tj => exact ⟨st'.write tj.1 tj.2 0#64, rfl⟩
  · cases hfalse

theorem unmapPart_of_ok (pm : Pagemap) (fuel startp endp : ℕ) (entry : Mapping) (st : Tables) :
    unmapPart pm fuel startp endp entry st = .error .fuel ∨
      ∃ st', unmapPart pm fuel startp endp entry st = .ok (st', .ok ()) := by
  have haligned : ¬ max startp entry.startp * psize % 2 ^ 64 % fromPageSize .small ≠ 0 :=
    not_not.mpr (Faulting.mul_psize_mod _)
  simp only [unmapPart, partOf, Pagemap.unmap, Pagemap.fixpsize_small, if_neg haligned]
  exact forPages_of_ok (pm.unmapPage_ok _) fuel 0 st

/-- The loop over the entries does not panic if the calls of the page map do not fail. -/
theorem Space.replaceAll_ne_panic {pieces : Mapping → List Mapping}
    {part : Mapping → Tables → Except Stop (Tables × Except Error Unit)}
    (h : ∀ e st, part e st = .error .fuel ∨ ∃ st', part e st = .ok (st', .ok ()))
    (entries : List Mapping) : s.replaceAll pieces part entries ≠ .error .panic := by
  induction entries generalizing s with
  | nil =>
      intro hpanic
      cases hpanic
  | cons e entries ih =>
      rw [Space.replaceAll, Space.replace]
      rcases h e s.pmap with hpart | ⟨pmap, hpart⟩
      · rw [hpart]
        intro hpanic
        cases hpanic
      · rw [hpart]
        exact ih

/-- `map` and `unmap` do not panic, from any state. -/
theorem run_ne_panic (op : SpaceOp) (hop : op.isProtect = false) :
    s.run pm fuel op ≠ .error .panic := by
  have hloop : s.replaceAll op.pieces (op.part pm fuel) (op.entries s.tree) ≠ .error .panic := by
    refine Space.replaceAll_ne_panic (fun e st => ?_) _
    cases op with
    | map => exact unmapPart_of_ok pm fuel _ _ e st
    | unmap => exact unmapPart_of_ok pm fuel _ _ e st
    | unmapObj => exact unmapPart_of_ok pm fuel _ _ e st
    | protect => cases hop
  rw [Space.run_eq]
  cases hall : s.replaceAll op.pieces (op.part pm fuel) (op.entries s.tree) with
  | error stop =>
      rintro ⟨⟩
      exact hloop hall
  | ok s₁ => exact nofun

end Unmap

/-! ## Address spaces in the lower half -/

/-- The calls that stay in the lower half: the end of a range does not wrap around, and `map` stays
below the end of the half. -/
def SpaceOp.InLower : SpaceOp → Prop
  | .map address length .. => address.toNat + length.toNat ≤ 2 ^ 47
  | .unmap address length => startPage address.toNat ≤ endPage address.toNat length.toNat
  | _ => True

/-- The mappings and the page tables of the lower half, whatever the mappings have in common. -/
structure Lower (pm : Pagemap) (s : Space) : Prop where
  tables : pm.SmallWf s.pmap
  mappings : ∀ e ∈ s.tree, e.startp ≤ e.endp ∧ e.endp ≤ lowerPages

section Steps

variable {pm : Pagemap} {fuel : ℕ} {s s' : Space} {op : SpaceOp} {e x : Mapping}

theorem endPage_map {address length : UInt64} (h : address.toNat + length.toNat ≤ 2 ^ 47) :
    startPage address.toNat ≤ endPage address.toNat length.toNat ∧
      endPage address.toNat length.toNat ≤ lowerPages := by
  rw [startPage, endPage, divRoundup_psize]
  simp only [psize, lowerPages] at h ⊢
  omega

theorem SpaceOp.InLower.range (h : op.InLower) : op.startp ≤ op.endp := by
  cases op with
  | map address length => exact (endPage_map h).1
  | unmap => exact h
  | unmapObj => exact le_rfl
  | protect address length prot =>
      have hstart := startPage_lt address
      have hpages := divRoundup_lt length.toNat
      simp only [SpaceOp.startp, SpaceOp.endp]
      omega

/-- The part of an entry that a call passes to the page map. -/
theorem Lower.part_range (hs : Lower pm s) (hop : op.InLower) (hobj : ∀ obj, op ≠ .unmapObj obj)
    (he : e ∈ op.entries s.tree) :
    max op.startp e.startp ≤ min op.endp e.endp ∧ min op.endp e.endp ≤ lowerPages := by
  obtain ⟨hle, hlow⟩ := hs.mappings e (SpaceOp.mem_entries he).1
  obtain ⟨hlo, hhi⟩ := overlaps_iff.mp (SpaceOp.overlaps_of_mem_entries hobj he)
  have hrange := hop.range
  omega

/-- What is left of an entry lies in the entry. -/
theorem Lower.pieces (hs : Lower pm s) (hop : op.InLower) (he : e ∈ op.entries s.tree)
    (hx : x ∈ op.pieces e) : x.startp ≤ x.endp ∧ x.endp ≤ lowerPages := by
  obtain ⟨hle, hlow⟩ := hs.mappings e (SpaceOp.mem_entries he).1
  have hstart : op.startp < 2 ^ 64 := lt_trans op.startp_lt (by norm_num)
  have hend : op.endp < 2 ^ 64 := lt_trans op.endp_lt (by norm_num)
  have hlow64 : e.endp < 2 ^ 64 := lt_of_le_of_lt hlow (by rw [lowerPages]; norm_num)
  have hover : (∀ obj, op ≠ .unmapObj obj) → op.startp < e.endp ∧ e.startp < op.endp := fun hobj =>
    overlaps_iff.mp (SpaceOp.overlaps_of_mem_entries hobj he)
  have houtside : ∀ off, (∀ obj, op ≠ .unmapObj obj) → x ∈ outside op.startp op.endp off e →
      x.startp ≤ x.endp ∧ x.endp ≤ lowerPages := by
    intro off hobj hx
    obtain ⟨hlo, -⟩ := hover hobj
    obtain ⟨hhead, rfl⟩ | ⟨htail, rfl⟩ := mem_outside.mp hx
    · exact ⟨hhead.le, hlo.le.trans hlow⟩
    · exact ⟨htail.le, hlow⟩
  cases op with
  | map address length prot flags obj offset =>
      obtain ⟨hlo, -⟩ := hover fun _ => SpaceOp.noConfusion
      rw [SpaceOp.pieces] at hx
      rcases mem_mapPieces hstart hlow64 hx with ⟨hhead, h₁, h₂⟩ | ⟨htail, h₁, h₂⟩ | ⟨-, -, h₁, h₂⟩
      · rw [h₁, h₂]
        exact ⟨hhead.le, hlo.le.trans hlow⟩
      · rw [h₁, h₂]
        exact ⟨htail.le, hlow⟩
      · rw [h₁, h₂]
        exact ⟨le_rfl, hlow⟩
  | unmap address length =>
      rw [SpaceOp.pieces, unmapPieces_eq hstart hend] at hx
      exact houtside _ (fun _ => SpaceOp.noConfusion) hx
  | unmapObj obj => cases hx
  | protect address length prot =>
      obtain ⟨hpart, hparts⟩ := hs.part_range hop (fun _ => SpaceOp.noConfusion) he
      rw [SpaceOp.pieces, protectPieces] at hx
      split at hx
      · rw [List.mem_singleton] at hx
        subst hx
        exact ⟨hle, hlow⟩
      · dsimp only at hx
        rw [remaining_eq hstart hend] at hx
        rcases List.mem_append.mp hx with hx | hx
        · exact houtside _ (fun _ => SpaceOp.noConfusion) hx
        · rw [List.mem_singleton] at hx
          subst hx
          exact ⟨hpart, hparts⟩

/-- The pages of the mappings that `protect` takes in its range. -/
def Protects (s : Space) (op : SpaceOp) (q : ℕ) : Prop :=
  ∃ e ∈ op.entries s.tree, max op.startp e.startp ≤ q ∧ q < min op.endp e.endp

/-- The loop has all entries but `es` behind it. If it protects, they had a table at every page, and no
table has come or gone. -/
def TablesDone (pm : Pagemap) (s : Space) (op : SpaceOp) (es : List Mapping) (s₁ : Space) : Prop :=
  pm.SmallWf s₁.pmap ∧ ∃ done, op.entries s.tree = done ++ es ∧
    (op.isProtect = true → (∀ q < lowerPages, pm.HasTable s₁.pmap q ↔ pm.HasTable s.pmap q) ∧
      ∀ e ∈ done, ∀ q, max op.startp e.startp ≤ q → q < min op.endp e.endp →
        pm.HasTable s.pmap q)

theorem TablesDone.step {es : List Mapping} {s₁ : Space} (hs : Lower pm s) (hop : op.InLower)
    (h : TablesDone pm s op (e :: es) s₁) :
    (∃ pmap, Returns (fun fuel => op.part pm fuel e s₁.pmap) (pmap, .ok ()) ∧
      TablesDone pm s op es { s₁ with
        pmap := pmap
        tree := replaceEntry Mapping.startp e (op.pieces e) s₁.tree }) ∨
    ((op.isProtect = true ∧ ∃ q, Protects s op q ∧ ¬ pm.HasTable s.pmap q) ∧
      ∃ pmap err, Returns (fun fuel => op.part pm fuel e s₁.pmap) (pmap, .error err)) := by
  obtain ⟨hwf, done, hdone, htab⟩ := h
  have he : e ∈ op.entries s.tree := by
    rw [hdone]
    exact List.mem_append_right done List.mem_cons_self
  have hdone' : op.entries s.tree = (done ++ [e]) ++ es := by
    rw [hdone, List.append_assoc]
    rfl
  obtain ⟨hle, hlow⟩ := hs.mappings e (SpaceOp.mem_entries he).1
  cases op with
  | map address length prot flags obj offset =>
      obtain ⟨hpart, hparts⟩ := hs.part_range hop (fun _ => SpaceOp.noConfusion) he
      obtain ⟨st', hret, hwf', -⟩ := hwf.unmapPart hpart hparts
      exact Or.inl ⟨st', hret, hwf', done ++ [e], hdone', nofun⟩
  | unmap address length =>
      obtain ⟨hpart, hparts⟩ := hs.part_range hop (fun _ => SpaceOp.noConfusion) he
      obtain ⟨st', hret, hwf', -⟩ := hwf.unmapPart hpart hparts
      exact Or.inl ⟨st', hret, hwf', done ++ [e], hdone', nofun⟩
  | unmapObj obj =>
      have hpart : max e.startp e.startp ≤ min e.endp e.endp := by omega
      obtain ⟨st', hret, hwf', -⟩ := hwf.unmapPart hpart (by omega)
      exact Or.inl ⟨st', hret, hwf', done ++ [e], hdone', nofun⟩
  | protect address length prot =>
      obtain ⟨hpart, hparts⟩ := hs.part_range hop (fun _ => SpaceOp.noConfusion) he
      obtain ⟨hsame, hall⟩ := htab rfl
      obtain ⟨st', hret, hwf', -, htables, hhas⟩ | ⟨st', err, hret, q, hlo, hhi, hnone⟩ :=
        hwf.protectPart prot hpart hparts
      · refine Or.inl ⟨st', hret, hwf', done ++ [e], hdone', fun _ => ⟨fun q hq => ?_, ?_⟩⟩
        · exact (htables q hq).trans (hsame q hq)
        · intro e' he' q hlo hhi
          rcases List.mem_append.mp he' with he' | he'
          · exact hall e' he' q hlo hhi
          · rw [List.mem_singleton] at he'
            subst he'
            exact (hsame q (lt_of_lt_of_le hhi hparts)).mp (hhas q hlo hhi)
      · refine Or.inr ⟨⟨rfl, q, ⟨e, he, hlo, hhi⟩, fun htable => hnone ?_⟩, st', err, hret⟩
        exact (hsame q (lt_of_lt_of_le hhi hparts)).mpr htable

/-- A call in the lower half leaves its tables well formed, or it is a `protect`, panics, and one of its
pages has no table. -/
theorem Lower.loop (hs : Lower pm s) (hop : op.InLower) :
    (∃ s₁, Returns (fun fuel => s.replaceAll op.pieces (op.part pm fuel) (op.entries s.tree)) s₁ ∧
      pm.SmallWf s₁.pmap ∧
      (op.isProtect = true → ∀ q, Protects s op q → pm.HasTable s.pmap q)) ∨
    ((op.isProtect = true ∧ ∃ q, Protects s op q ∧ ¬ pm.HasTable s.pmap q) ∧
      Stops (fun fuel => s.replaceAll op.pieces (op.part pm fuel) (op.entries s.tree)) .panic) := by
  refine (Space.replaceAll_rule (TablesDone pm s op) _ (fun _ _ _ hdone => hdone.step hs hop)
    ⟨hs.tables, [], rfl, fun _ => ⟨fun _ _ => Iff.rfl, fun _ he => by cases he⟩⟩).imp_left ?_
  rintro ⟨s₁, hret, hwf, done, hdone, htab⟩
  refine ⟨s₁, hret, hwf, fun hprotect q ⟨e, he, hlo, hhi⟩ => ?_⟩
  rw [hdone, List.append_nil] at he
  exact (htab hprotect).2 e he q hlo hhi

/-- A call in the lower half that returns stays there. -/
theorem Lower.call {r : Except Error Unit} (hs : Lower pm s) (hop : op.InLower)
    (h : s.Call pm op r s') : Lower pm s' := by
  obtain ⟨s₁, hret, hwf, -⟩ | ⟨-, hstops⟩ := hs.loop hop
  · have heq : s' = (op.finish s.tree s₁).1 :=
      congrArg Prod.fst (Returns.unique h (Space.call_of_returns hret))
    refine ⟨by rw [heq]; exact hwf, ?_⟩
    obtain ⟨hr, -, htree⟩ := h.eq
    have hloop : ∀ e ∈ replaceEntries Mapping.startp op.pieces (op.entries s.tree) s.tree,
        e.startp ≤ e.endp ∧ e.endp ≤ lowerPages := by
      intro x hx
      rcases mem_of_mem_replaceEntries hx with hx | ⟨e, he, hx⟩
      · exact hs.mappings x hx
      · exact hs.pieces hop he hx
    rw [htree]
    cases r with
    | error err => rwa [SpaceOp.emplaced_error]
    | ok =>
        cases op with
        | map address length prot flags obj offset =>
            intro x hx
            rcases mem_emplace.mp hx with rfl | hx
            · exact endPage_map hop
            · exact hloop x hx
        | unmap => exact hloop
        | unmapObj => exact hloop
        | protect => exact hloop
  · exact absurd hstops h.not_stops

theorem Lower.getPage (hs : Lower pm s) (obj idx requested : ℕ) :
    Lower pm (s.getPage obj idx requested).1 := by
  obtain ⟨htree, hpmap⟩ := Space.getPage_snd obj idx requested s
  exact ⟨hpmap ▸ hs.tables, htree ▸ hs.mappings⟩

theorem Lower.fault (hpm : pm.FreshTables) (hs : Lower pm s) {addr : UInt64}
    {useCount requested : ℕ} {onWrite ret : Bool}
    (h : Returns (fun fuel => s.handlePfault pm fuel addr.toNat onWrite useCount requested)
      (s', ret)) : Lower pm s' := by
  obtain rfl | ⟨entry, -, -, s₁, pg, hget, hcases⟩ :=
    Space.handlePfault_lower hpm hs.tables (fun e he => (hs.mappings e he).2) h
  · exact hs
  · have hs₁ : Lower pm s₁ := by
      have hfst := hs.getPage entry.obj
        ((addr.toNat / psize - entry.startp + entry.offsetp) % 2 ^ 64) requested
      rwa [hget] at hfst
    obtain rfl | ⟨pmap, hext, rfl | ⟨-, pmap', hwf', -, rfl⟩⟩ := hcases
    · exact hs₁
    · exact ⟨hext.small hs₁.tables, hs₁.mappings⟩
    · exact ⟨hwf', hs₁.mappings⟩

end Steps

/-! ## The system calls -/

section Calls

variable {pm : Pagemap} {fuel : ℕ} {s : Space}

private theorem mmapAt_ne_panic {address length offset : UInt64} {prot flags fd : BitVec 32}
    {file : Option (Option ℕ)} {memobject : ℕ} :
    s.mmapAt pm fuel address.toNat length.toNat prot flags fd offset.toNat file memobject ≠
      .error .panic := by
  intro h
  unfold Space.mmapAt at h
  dsimp only at h
  split at h
  · cases h
  · split at h
    · cases h
    · rename_i obj hobj
      split at h
      · rename_i stop hmap
        cases h
        exact run_ne_panic (.map address length (prot.setWidth 8) (flags.setWidth 8) obj offset) rfl
          hmap
      · cases h
      · cases h

/-- `mmap` does not panic, from any state and with any arguments. -/
theorem mmap_ne_panic {addr length offset : UInt64} {prot flags fd : BitVec 32}
    {file : Option (Option ℕ)} {memobject : ℕ} :
    s.mmap pm fuel addr.toNat length.toNat prot flags fd offset.toNat file memobject ≠
      .error .panic := by
  intro h
  unfold Space.mmap at h
  dsimp only at h
  split at h
  · cases h
  · split at h
    · cases h
    · split at h
      · cases h
      · split at h
        · cases h
        · split at h
          · split at h
            · cases h
            · split at h
              · split at h
                · rename_i stop hunmap
                  cases h
                  exact run_ne_panic (.unmap addr length) rfl hunmap
                · cases h
                · exact mmapAt_ne_panic h
              · exact mmapAt_ne_panic h
          · split at h
            · cases h
            · have haddress : s.findFreeRegion length.toNat =
                  (UInt64.ofNat (s.findFreeRegion length.toNat)).toNat :=
                (UInt64.toNat_ofNat_of_lt' (findFreeLoop_lt _ _ _)).symm
              rw [haddress] at h
              exact mmapAt_ne_panic h

/-- `munmap` does not panic, from any state and with any arguments. -/
theorem munmap_ne_panic {addr length : UInt64} :
    s.munmap pm fuel addr.toNat length.toNat ≠ .error .panic := by
  intro h
  rw [Space.munmap] at h
  split at h
  · rename_i stop hunmap
    cases h
    exact run_ne_panic (.unmap addr length) rfl hunmap
  · cases h
  · cases h

/-- A `mprotect` stops where its `protect` does. -/
theorem mprotect_stops_iff {addr len : UInt64} {prot : BitVec 32} :
    Stops (fun fuel => s.mprotect pm fuel addr.toNat len.toNat prot) .panic ↔
      Stops (fun fuel => s.run pm fuel (.protect addr len (prot.setWidth 8))) .panic := by
  refine exists_congr fun N => forall_congr' fun fuel => imp_congr_right fun _ => ?_
  simp only [Space.mprotect, Space.run]
  generalize s.protect pm fuel addr.toNat len.toNat (prot.setWidth 8) = x
  rcases x with stop | ⟨s', err | ⟨⟩⟩
  · dsimp only
    rw [Except.error.injEq, Except.error.injEq]
  · constructor <;> rintro ⟨⟩
  · constructor <;> rintro ⟨⟩

end Calls

/-- The pages of the mappings in the range of a `mprotect` have a page table of the last level. -/
def UserOp.HasTables (pm : Pagemap) (s : Space) : UserOp → Prop
  | .mprotect addr len prot =>
      ∀ q, Protects s (.protect addr len (prot.setWidth 8)) q → pm.HasTable s.pmap q
  | _ => True

/-- The condition on the runs. -/
def CoherenceOp.InLower : CoherenceOp → Prop
  | .call op => op.InLower
  | _ => True

theorem lower_of_reachable {pm : Pagemap} (hpm : pm.FreshTables) {s : Space}
    (h : ((Space.coherenceSystem pm).restrict fun _ l => l.InLower).Reachable s) : Lower pm s := by
  refine h.invariant (fun s hs => ?_) ?_
  · obtain ⟨htree, hempty, -⟩ := hs
    refine ⟨(Pagemap.SmallWf.of_empty hempty).1, ?_⟩
    rw [htree]
    exact nofun
  · rintro s (op | ⟨addr, onWrite, useCount, requested⟩ | ⟨obj, idx, requested⟩) s' - hs
      ⟨hlower, hstep⟩
    · obtain ⟨r, hcall⟩ := hstep
      exact hs.call hlower hcall
    · obtain ⟨-, r, hret⟩ := hstep
      exact hs.fault hpm hret
    · obtain ⟨-, rfl⟩ := hstep
      exact hs.getPage obj idx requested

/-- In a state that a run in the lower half reaches, a call of a user program does not panic if and only
if the pages that it protects have a page table. -/
theorem user_call_panics_iff {pm : Pagemap} (hpm : pm.FreshTables) {s : Space}
    (h : ((Space.coherenceSystem pm).restrict fun _ l => l.InLower).Reachable s) (op : UserOp) :
    ¬ Stops (fun fuel => s.runUser pm fuel op) .panic ↔ op.HasTables pm s := by
  have hs := lower_of_reachable hpm h
  cases op with
  | mmap addr length prot flags fd offset file memobject =>
      refine iff_of_true ?_ trivial
      rintro ⟨N, hN⟩
      exact mmap_ne_panic (hN N le_rfl)
  | munmap addr length =>
      refine iff_of_true ?_ trivial
      rintro ⟨N, hN⟩
      exact munmap_ne_panic (hN N le_rfl)
  | mprotect addr len prot =>
      simp only [Space.runUser, UserOp.HasTables]
      rw [mprotect_stops_iff]
      have hop : SpaceOp.InLower (.protect addr len (prot.setWidth 8)) := trivial
      obtain ⟨s₁, hret, -, hall⟩ | ⟨⟨-, q, hq, hnone⟩, N, hN⟩ := hs.loop hop
      · exact iff_of_true (Returns.not_stops (Space.call_of_returns hret)) (hall rfl)
      · refine iff_of_false (not_not.mpr ⟨N, fun fuel hfuel => ?_⟩) fun hall => hnone (hall q hq)
        have hstop := hN fuel hfuel
        dsimp only at hstop ⊢
        rw [Space.run_eq, hstop]
        rfl

/-- Two pages are mapped and the first is touched, so that both have a table. -/
theorem user_call_panics_iff_touched :
    ¬ Stops (fun fuel => exampleFaulted.runUser exampleMachine fuel (.mprotect 0x10000 0x2000 1))
      .panic := by
  have h₀ : ((Space.coherenceSystem exampleMachine).restrict fun _ l => l.InLower).Reachable
      Space.empty := .init ⟨rfl, fun _ _ => rfl, nofun⟩
  have h₁ := h₀.step (l := CoherenceOp.call (.map 0x10000 0x2000 3 0x22 1 0))
    ⟨(by decide : (0x10000 : UInt64).toNat + (0x2000 : UInt64).toNat ≤ 2 ^ 47), _,
      exampleMapped_call⟩
  have h₂ := h₁.step (l := CoherenceOp.fault 0x10000 false 1 0x5000)
    ⟨trivial, Or.inr isFrame_example, _, exampleFaulted_returns⟩
  refine (user_call_panics_iff exampleMachine_freshTables h₂ _).mpr fun q ⟨e, he, hlo, hhi⟩ => ?_
  have htree : exampleFaulted.tree = [⟨0x10, 0x12, 1, 0, 3, 0x22⟩] := by decide +kernel
  have hmem := (SpaceOp.mem_entries he).1
  rw [htree, List.mem_singleton] at hmem
  subst hmem
  obtain rfl | rfl : q = 0x10 ∨ q = 0x11 := by
    have hlo := (le_max_right _ _).trans hlo
    have hhi := hhi.trans_le (min_le_right _ _)
    dsimp only at hlo hhi
    omega
  · show (exampleMachine.walk exampleFaulted.pmap (pathTo (0x10 * psize) 3)).isSome = true
    decide +kernel
  · show (exampleMachine.walk exampleFaulted.pmap (pathTo (0x11 * psize) 3)).isSome = true
    decide +kernel

/-- Two pages are mapped, none is touched, and a `mprotect` of them panics. -/
theorem mprotect_panics : ∃ s : Space,
    Returns (fun fuel => Space.empty.runUser exampleMachine fuel
      (.mmap 0x10000 0x2000 3 0x32 (-1) 0 none 1)) (s, .ok 0x10000) ∧
    Stops (fun fuel => s.runUser exampleMachine fuel (.mprotect 0x10000 0x2000 1)) .panic := by
  have hcall : Space.empty.Call exampleMachine (.map 0x10000 0x2000 3 0x32 1 0) (.ok ())
      ⟨Tables.empty, [⟨0x10, 0x12, 1, 0, 3, 0x32⟩], fun _ _ => none⟩ := ⟨0, fun _ _ => rfl⟩
  refine ⟨_, mmap_of_call (by decide) (by decide) (by decide) (by decide) (by decide) ?_ hcall, 5,
    fun fuel hfuel => ?_⟩
  · decide +kernel
  · obtain ⟨n, rfl⟩ := Nat.exists_eq_add_of_le' hfuel
    rfl

end Ilobilix.Vmm
