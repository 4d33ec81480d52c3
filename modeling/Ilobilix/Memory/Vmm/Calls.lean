import Ilobilix.Memory.Pagemap.Refinement
import Ilobilix.Memory.Vmm.Model
import Mathlib.Data.List.TakeWhile

/-!
# Calls on an address space

Every call replaces some entries of the tree by pieces of them and may emplace one new mapping:
`Space.Call.eq`. The page map is called for the parts of these entries that lie in the range.
-/

namespace Ilobilix.Vmm

open Lib Intervals

/-! ## Calls -/

/-- The calls on an address space. -/
inductive SpaceOp
  | map (address length : UInt64) (prot flags : BitVec 8) (obj : ℕ) (offset : UInt64)
  | unmap (address length : UInt64)
  | unmapObj (obj : ℕ)
  | protect (address length : UInt64) (prot : BitVec 8)

def Space.run (pm : Pagemap) (fuel : ℕ) (s : Space) :
    SpaceOp → Except Stop (Space × Except Error Unit)
  | .map address length prot flags obj offset =>
      s.map pm fuel address.toNat length.toNat prot flags obj offset.toNat
  | .unmap address length => s.unmap pm fuel address.toNat length.toNat
  | .unmapObj obj => s.unmapObj pm fuel obj
  | .protect address length prot => s.protect pm fuel address.toNat length.toNat prot

/-- A call returns with this result. -/
def Space.Call (pm : Pagemap) (s : Space) (op : SpaceOp) (r : Except Error Unit) (s' : Space) :
    Prop :=
  Returns (fun fuel => s.run pm fuel op) (s', r)

/-- The runs of an address space that starts without mappings. -/
def Space.system (pm : Pagemap) : TransitionSystem Space (SpaceOp × Except Error Unit) where
  init s := s.tree = []
  step s l s' := s.Call pm l.1 l.2 s'

/-! ## What a call does -/

/-- The first page of the range of a call. -/
def SpaceOp.startp : SpaceOp → ℕ
  | .map address .. => startPage address.toNat
  | .unmap address _ => startPage address.toNat
  | .unmapObj _ => 0
  | .protect address .. => startPage address.toNat

/-- The end of the range of a call. -/
def SpaceOp.endp : SpaceOp → ℕ
  | .map address length .. => endPage address.toNat length.toNat
  | .unmap address length => endPage address.toNat length.toNat
  | .unmapObj _ => 0
  | .protect address length _ => (startPage address.toNat + divRoundup length.toNat psize) % 2 ^ 64

/-- The arguments that have to be page aligned are. -/
def SpaceOp.aligned : SpaceOp → Bool
  | .map address _ _ _ _ offset => address.toNat % psize = 0 && offset.toNat % psize = 0
  | .unmap address _ => address.toNat % psize = 0
  | .unmapObj _ => true
  | .protect address .. => address.toNat % psize = 0

/-- The entries that a call takes, in this order, if its arguments are aligned. -/
def SpaceOp.overlapping (tree : List Mapping) (op : SpaceOp) : List Mapping :=
  match op with
  | .map .. =>
      (tree.filter (overlaps op.startp op.endp)).takeWhile fun entry => !entry.untouchable
  | .unmap .. => tree.filter fun entry => overlaps op.startp op.endp entry && !entry.untouchable
  | .unmapObj obj => tree.filter fun entry => entry.obj == obj && !entry.untouchable
  | .protect .. => tree.filter fun entry => overlaps op.startp op.endp entry && !entry.untouchable

/-- The entries that a call replaces. -/
def SpaceOp.entries (tree : List Mapping) (op : SpaceOp) : List Mapping :=
  if op.aligned then op.overlapping tree else []

/-- What a call emplaces for an entry. -/
def SpaceOp.pieces (op : SpaceOp) : Mapping → List Mapping :=
  match op with
  | .map .. => mapPieces op.startp op.endp
  | .unmap .. => unmapPieces op.startp op.endp
  | .unmapObj _ => fun _ => []
  | .protect _ _ prot => protectPieces op.startp op.endp prot

/-- The call of the page map for an entry. -/
def SpaceOp.part (pm : Pagemap) (fuel : ℕ) (op : SpaceOp) :
    Mapping → Tables → Except Stop (Tables × Except Error Unit) :=
  match op with
  | .unmapObj _ => fun entry => unmapPart pm fuel entry.startp entry.endp entry
  | .protect _ _ prot => protectPart pm fuel op.startp op.endp prot
  | _ => unmapPart pm fuel op.startp op.endp

/-- `map` fails if an untouchable mapping overlaps its range. -/
def SpaceOp.blocked (tree : List Mapping) (op : SpaceOp) : Bool :=
  match op with
  | .map .. => (tree.filter (overlaps op.startp op.endp)).any Mapping.untouchable
  | .unmap .. => false
  | .unmapObj _ => false
  | .protect .. => false

/-- What a call returns. -/
def SpaceOp.result (tree : List Mapping) (op : SpaceOp) : Except Error Unit :=
  if op.aligned then if op.blocked tree then .error .addrInUse else .ok ()
  else .error .addrNotAligned

/-- The mapping that `map` emplaces last. -/
def SpaceOp.emplaced : SpaceOp → Except Error Unit → List Mapping → List Mapping
  | .map address length prot flags obj offset, .ok (), tree =>
      emplace Mapping.startp ⟨startPage address.toNat, endPage address.toNat length.toNat, obj,
        offset.toNat / psize, prot, flags⟩ tree
  | _, _, tree => tree

/-- What a call leaves behind after its loop. -/
def SpaceOp.finish (op : SpaceOp) (tree : List Mapping) (s₁ : Space) : Space × Except Error Unit :=
  ({ s₁ with tree := op.emplaced (op.result tree) s₁.tree }, op.result tree)

section Loops

variable {s s' : Space} {pieces : Mapping → List Mapping}
  {part : Mapping → Tables → Except Stop (Tables × Except Error Unit)}

theorem Space.replace_ok {entry : Mapping} (h : s.replace pieces part entry = .ok s') :
    ∃ pmap, part entry s.pmap = .ok (pmap, .ok ()) ∧
      s' = { s with
        pmap := pmap
        tree := replaceEntry Mapping.startp entry (pieces entry) s.tree } := by
  rw [Space.replace] at h
  split at h
  · cases h
  · cases h
  · rename_i pmap hpart
    exact ⟨pmap, hpart, (Except.ok.inj h).symm⟩

theorem Space.replaceAll_ok {entries : List Mapping}
    (h : s.replaceAll pieces part entries = .ok s') :
    s'.tree = replaceEntries Mapping.startp pieces entries s.tree ∧ s'.pages = s.pages := by
  induction entries generalizing s with
  | nil =>
      cases h
      exact ⟨rfl, rfl⟩
  | cons entry entries ih =>
      rw [Space.replaceAll] at h
      split at h
      · cases h
      · rename_i s₁ hreplace
        obtain ⟨pmap, -, rfl⟩ := Space.replace_ok hreplace
        exact ih h

/-- The rule for the loop: `J` is an invariant that knows the entries that are left. A call of the page
map that fails stops the loop with a panic. -/
theorem Space.replaceAll_rule (J : List Mapping → Space → Prop) (fails : Prop)
    {parts : ℕ → Mapping → Tables → Except Stop (Tables × Except Error Unit)}
    (hstep : ∀ e es s, J (e :: es) s →
      (∃ pmap, Returns (fun fuel => parts fuel e s.pmap) (pmap, .ok ()) ∧
        J es { s with
          pmap := pmap
          tree := replaceEntry Mapping.startp e (pieces e) s.tree }) ∨
      (fails ∧ ∃ pmap err, Returns (fun fuel => parts fuel e s.pmap) (pmap, .error err)))
    {entries : List Mapping} (h : J entries s) :
    (∃ s', Returns (fun fuel => s.replaceAll pieces (parts fuel) entries) s' ∧ J [] s') ∨
      (fails ∧ Stops (fun fuel => s.replaceAll pieces (parts fuel) entries) .panic) := by
  induction entries generalizing s with
  | nil => exact Or.inl ⟨s, Returns.of_eq fun _ => rfl, h⟩
  | cons e es ih =>
      obtain ⟨pmap, ⟨M, hM⟩, hJ⟩ | ⟨hfails, pmap, err, M, hM⟩ := hstep e es s h
      · have hone : ∀ fuel, M ≤ fuel → s.replaceAll pieces (parts fuel) (e :: es) =
            Space.replaceAll pieces (parts fuel) es { s with
              pmap := pmap
              tree := replaceEntry Mapping.startp e (pieces e) s.tree } := by
          intro fuel hfuel
          have hpart := hM fuel hfuel
          dsimp only at hpart
          rw [Space.replaceAll, Space.replace, hpart]
        obtain ⟨s', hret, hJ'⟩ | ⟨hfails, N, hN⟩ := ih hJ
        · exact Or.inl ⟨s', hret.congr hone, hJ'⟩
        · refine Or.inr ⟨hfails, max M N, fun fuel hfuel => ?_⟩
          dsimp only
          rw [hone fuel (le_trans (le_max_left M N) hfuel)]
          exact hN fuel (le_trans (le_max_right M N) hfuel)
      · refine Or.inr ⟨hfails, M, fun fuel hfuel => ?_⟩
        have hpart := hM fuel hfuel
        dsimp only at hpart ⊢
        rw [Space.replaceAll, Space.replace, hpart]

/-- The loop of `map` replaces the entries in front of the first untouchable one. -/
theorem Space.mapLoop_eq (pm : Pagemap) (fuel startp endp : ℕ) (entries : List Mapping) (s : Space) :
    s.mapLoop pm fuel startp endp entries =
      (s.replaceAll (mapPieces startp endp) (unmapPart pm fuel startp endp)
        (entries.takeWhile fun entry => !entry.untouchable)).map fun s₁ =>
          (s₁, if entries.any Mapping.untouchable then .error .addrInUse else .ok ()) := by
  induction entries generalizing s with
  | nil => rfl
  | cons entry entries ih =>
      rw [Space.mapLoop]
      split
      · rename_i hu
        rw [List.takeWhile_cons_of_neg (by simp [hu]), List.any_cons, hu]
        rfl
      · rename_i hu
        rw [List.takeWhile_cons_of_pos (by simpa using hu), Space.replaceAll, List.any_cons,
          Bool.eq_false_iff.mpr hu, Bool.false_or]
        split
        · rfl
        · rename_i s₁ _
          exact ih s₁

end Loops

@[simp] theorem SpaceOp.emplaced_error (op : SpaceOp) (err : Error) (tree : List Mapping) :
    op.emplaced (.error err) tree = tree := by
  cases op with
  | map => rfl
  | unmap => rfl
  | unmapObj => rfl
  | protect => rfl

section Run

variable {pm : Pagemap} {fuel : ℕ} {s : Space} {op : SpaceOp} {tree : List Mapping}

private theorem run_misaligned (h : op.aligned = false) :
    (s.replaceAll op.pieces (op.part pm fuel) (op.entries s.tree)).map (op.finish s.tree) =
      .ok (s, .error .addrNotAligned) := by
  have hfin : op.finish s.tree s = (s, .error .addrNotAligned) := by
    simp only [SpaceOp.finish, SpaceOp.result, h, Bool.false_eq_true, if_false,
      SpaceOp.emplaced_error]
  rw [SpaceOp.entries, h, ← hfin]
  rfl

private theorem run_aligned (h : op.aligned = true) (hb : op.blocked s.tree = false)
    (hemp : ∀ tree, op.emplaced (.ok ()) tree = tree) :
    (s.replaceAll op.pieces (op.part pm fuel) (op.entries s.tree)).map (op.finish s.tree) =
      match s.replaceAll op.pieces (op.part pm fuel) (op.overlapping s.tree) with
      | .error stop => .error stop
      | .ok s₁ => .ok (s₁, .ok ()) := by
  have hfin : op.finish s.tree = fun s₁ => (s₁, .ok ()) := by
    funext s₁
    simp only [SpaceOp.finish, SpaceOp.result, h, hb, Bool.false_eq_true, if_true, if_false, hemp]
  rw [SpaceOp.entries, h, if_pos rfl, hfin]
  cases s.replaceAll op.pieces (op.part pm fuel) (op.overlapping s.tree) with
  | error stop => rfl
  | ok s₁ => rfl

/-- A call is its loop over the entries and what it does in the end. -/
theorem Space.run_eq (pm : Pagemap) (fuel : ℕ) (s : Space) (op : SpaceOp) :
    s.run pm fuel op =
      (s.replaceAll op.pieces (op.part pm fuel) (op.entries s.tree)).map (op.finish s.tree) := by
  cases hal : op.aligned with
  | false =>
      rw [run_misaligned hal]
      cases op with
      | map address length prot flags obj offset =>
          rw [Space.run, Space.map]
          split
          · rfl
          · rename_i haddr
            rw [if_pos]
            simpa [SpaceOp.aligned, not_not.mp haddr] using hal
      | unmap address length =>
          rw [Space.run, Space.unmap, if_pos]
          simpa [SpaceOp.aligned] using hal
      | unmapObj obj => cases hal
      | protect address length prot =>
          rw [Space.run, Space.protect, if_pos]
          simpa [SpaceOp.aligned] using hal
  | true =>
      cases op with
      | map address length prot flags obj offset =>
          obtain ⟨haddr, hoff⟩ : address.toNat % psize = 0 ∧ offset.toNat % psize = 0 := by
            simpa [SpaceOp.aligned] using hal
          have hres : SpaceOp.result s.tree (.map address length prot flags obj offset) =
              if (s.tree.filter (overlaps (startPage address.toNat)
                (endPage address.toNat length.toNat))).any Mapping.untouchable then
                .error .addrInUse else .ok () := by
            rw [SpaceOp.result, if_pos hal]
            rfl
          rw [Space.run, Space.map, if_neg (not_not.mpr haddr), if_neg (not_not.mpr hoff),
            SpaceOp.entries, if_pos hal]
          dsimp only
          rw [Space.mapLoop_eq]
          simp only [SpaceOp.pieces, SpaceOp.part, SpaceOp.overlapping, SpaceOp.startp,
            SpaceOp.endp]
          generalize s.replaceAll _ _ _ = x
          cases x with
          | error stop => rfl
          | ok s₁ =>
              simp only [Except.map, SpaceOp.finish, hres]
              cases hb : (s.tree.filter (overlaps (startPage address.toNat)
                  (endPage address.toNat length.toNat))).any Mapping.untouchable with
              | true => simp only [if_true, SpaceOp.emplaced_error]
              | false =>
                  simp only [Bool.false_eq_true, if_false]
                  rfl
      | unmap address length =>
          rw [run_aligned hal rfl fun _ => rfl, Space.run, Space.unmap, if_neg]
          · rfl
          · simpa [SpaceOp.aligned] using hal
      | unmapObj obj => exact (run_aligned hal rfl fun _ => rfl).symm
      | protect address length prot =>
          rw [run_aligned hal rfl fun _ => rfl, Space.run, Space.protect, if_neg]
          · rfl
          · simpa [SpaceOp.aligned] using hal

theorem SpaceOp.result_ok_iff :
    op.result tree = .ok () ↔ op.aligned = true ∧ op.blocked tree = false := by
  rw [SpaceOp.result]
  cases op.aligned with
  | false => simp
  | true =>
      cases op.blocked tree with
      | false => simp
      | true => simp

/-- A call that returns ran its loop. -/
theorem Space.exists_replaceAll {s' : Space} {r : Except Error Unit}
    (h : s.run pm fuel op = .ok (s', r)) :
    ∃ s₁, s.replaceAll op.pieces (op.part pm fuel) (op.entries s.tree) = .ok s₁ ∧
      (s', r) = op.finish s.tree s₁ := by
  rw [Space.run_eq] at h
  cases hall : s.replaceAll op.pieces (op.part pm fuel) (op.entries s.tree) with
  | error stop =>
      rw [hall] at h
      cases h
  | ok s₁ =>
      rw [hall] at h
      exact ⟨s₁, rfl, (Except.ok.inj h).symm⟩

/-- A call returns if its loop does. -/
theorem Space.call_of_returns {s₁ : Space}
    (h : Returns (fun fuel => s.replaceAll op.pieces (op.part pm fuel) (op.entries s.tree)) s₁) :
    s.Call pm op (op.result s.tree) (op.finish s.tree s₁).1 := by
  obtain ⟨N, hN⟩ := h
  refine ⟨N, fun fuel hfuel => ?_⟩
  have hall := hN fuel hfuel
  dsimp only at hall ⊢
  rw [Space.run_eq, hall]
  rfl

/-- What a call returns and what it does to the tree; the objects stay. -/
theorem Space.eq_of_run {s' : Space} {r : Except Error Unit} (h : s.run pm fuel op = .ok (s', r)) :
    r = op.result s.tree ∧ s'.pages = s.pages ∧
      s'.tree = op.emplaced r (replaceEntries Mapping.startp op.pieces (op.entries s.tree) s.tree) := by
  obtain ⟨s₁, hall, hfin⟩ := Space.exists_replaceAll h
  obtain ⟨htree, hpages⟩ := Space.replaceAll_ok hall
  rw [SpaceOp.finish, Prod.mk.injEq] at hfin
  obtain ⟨rfl, rfl⟩ := hfin
  exact ⟨rfl, hpages, by rw [← htree]⟩

theorem Space.Call.eq {s' : Space} {r : Except Error Unit} (h : s.Call pm op r s') :
    r = op.result s.tree ∧ s'.pages = s.pages ∧
      s'.tree = op.emplaced r (replaceEntries Mapping.startp op.pieces (op.entries s.tree) s.tree) := by
  obtain ⟨N, hN⟩ := h
  exact Space.eq_of_run (hN N le_rfl)

/-- A call replaces entries of the tree that are not untouchable. -/
theorem SpaceOp.mem_entries {e : Mapping} (h : e ∈ op.entries tree) :
    e ∈ tree ∧ e.untouchable = false := by
  rw [SpaceOp.entries] at h
  split at h
  · cases op with
    | map address length prot flags obj offset =>
        have hu := List.mem_takeWhile_imp h
        exact ⟨(List.mem_filter.mp ((List.takeWhile_sublist _).mem h)).1, by simpa using hu⟩
    | unmap address length =>
        obtain ⟨he, hu⟩ := List.mem_filter.mp h
        exact ⟨he, by simpa using (Bool.and_eq_true_iff.mp hu).2⟩
    | unmapObj obj =>
        obtain ⟨he, hu⟩ := List.mem_filter.mp h
        exact ⟨he, by simpa using (Bool.and_eq_true_iff.mp hu).2⟩
    | protect address length prot =>
        obtain ⟨he, hu⟩ := List.mem_filter.mp h
        exact ⟨he, by simpa using (Bool.and_eq_true_iff.mp hu).2⟩
  · cases h

/-- Pieces have the object and the flags of their entry. -/
theorem SpaceOp.mem_pieces {e x : Mapping} (h : x ∈ op.pieces e) : x.obj = e.obj ∧ x.flags = e.flags := by
  cases op with
  | map =>
      rw [SpaceOp.pieces, mapPieces] at h
      split at h
      · cases h
      · dsimp only at h
        rw [List.mem_append, List.mem_ite_nil_right, List.mem_ite_nil_right, List.mem_singleton,
          List.mem_singleton] at h
        rcases h with ⟨-, rfl⟩ | ⟨-, rfl⟩
        · exact ⟨rfl, rfl⟩
        · exact ⟨rfl, rfl⟩
  | unmap =>
      rw [SpaceOp.pieces, unmapPieces] at h
      split at h
      · cases h
      · dsimp only at h
        rw [List.mem_append, List.mem_ite_nil_right, List.mem_ite_nil_right, List.mem_singleton,
          List.mem_singleton] at h
        rcases h with ⟨-, rfl⟩ | ⟨-, rfl⟩
        · exact ⟨rfl, rfl⟩
        · exact ⟨rfl, rfl⟩
  | unmapObj => cases h
  | protect =>
      rw [SpaceOp.pieces, protectPieces] at h
      split at h
      · rw [List.mem_singleton] at h
        subst h
        exact ⟨rfl, rfl⟩
      · dsimp only at h
        rw [List.mem_append, List.mem_append, List.mem_ite_nil_right, List.mem_ite_nil_right,
          List.mem_singleton, List.mem_singleton, List.mem_singleton] at h
        rcases h with (⟨-, rfl⟩ | ⟨-, rfl⟩) | rfl
        · exact ⟨rfl, rfl⟩
        · exact ⟨rfl, rfl⟩
        · exact ⟨rfl, rfl⟩

/-- What holds of the object and the flags of every mapping holds after a call, if it holds of the new
mapping. -/
theorem Space.forall_of_run {s' : Space} {r : Except Error Unit} {Q : ℕ → BitVec 8 → Prop}
    (hs : ∀ e ∈ s.tree, Q e.obj e.flags)
    (hnew : ∀ address length prot flags obj offset,
      op = .map address length prot flags obj offset → Q obj flags)
    (h : s.run pm fuel op = .ok (s', r)) : ∀ e ∈ s'.tree, Q e.obj e.flags := by
  obtain ⟨-, -, htree⟩ := Space.eq_of_run h
  have hloop : ∀ e ∈ replaceEntries Mapping.startp op.pieces (op.entries s.tree) s.tree,
      Q e.obj e.flags := by
    intro x hx
    rcases mem_of_mem_replaceEntries hx with hx | ⟨e, he, hx⟩
    · exact hs x hx
    · obtain ⟨hobj, hflags⟩ := SpaceOp.mem_pieces hx
      rw [hobj, hflags]
      exact hs e (SpaceOp.mem_entries he).1
  rw [htree]
  cases r with
  | error err => rwa [SpaceOp.emplaced_error]
  | ok =>
      cases op with
      | map address length prot flags obj offset =>
          intro x hx
          rcases mem_emplace.mp hx with rfl | hx
          · exact hnew _ _ _ _ _ _ rfl
          · exact hloop x hx
      | unmap => exact hloop
      | unmapObj => exact hloop
      | protect => exact hloop

theorem SpaceOp.nodup_entries (op : SpaceOp) (h : tree.Nodup) : (op.entries tree).Nodup := by
  rw [SpaceOp.entries]
  split
  · cases op with
    | map => exact (h.filter _).sublist (List.takeWhile_sublist _)
    | unmap => exact h.filter _
    | unmapObj => exact h.filter _
    | protect => exact h.filter _
  · exact List.nodup_nil

end Run

/-! ## Page faults -/

section Faults

variable {pm : Pagemap} {s s' : Space} {fuel : ℕ}

theorem Space.getPage_snd (obj idx requested : ℕ) (s : Space) :
    (s.getPage obj idx requested).1.tree = s.tree ∧
      (s.getPage obj idx requested).1.pmap = s.pmap := by
  rw [Space.getPage]
  split
  · exact ⟨rfl, rfl⟩
  · split
    · exact ⟨rfl, rfl⟩
    · exact ⟨rfl, rfl⟩

/-- A fault on a page without a mapping changes nothing. Else the object is asked for the page and, if
it has one and the page map does not translate to it already, the page is mapped. -/
theorem Space.handlePfault_cases {addr useCount requested : ℕ} {onWrite ret : Bool}
    (h : s.handlePfault pm fuel addr onWrite useCount requested = .ok (s', ret)) :
    (s.tree.find? (fun e => e.startp ≤ addr / psize && addr / psize < e.endp) = none ∧ s' = s) ∨
    ∃ entry, s.tree.find? (fun e => e.startp ≤ addr / psize && addr / psize < e.endp) = some entry ∧
      ∃ s₁ pg, s.getPage entry.obj ((addr / psize - entry.startp + entry.offsetp) % 2 ^ 64)
          requested = (s₁, pg) ∧
        ((pg = 0 ∧ s' = s₁) ∨
        (pg ≠ 0 ∧ ∃ pmap tr,
          pm.translate (addr / psize * psize % 2 ^ 64) .small s₁.pmap = .ok (pmap, tr) ∧
          ((tr = .ok pg ∧ s' = { s₁ with pmap := pmap }) ∨
          (tr ≠ .ok pg ∧ ∃ pmap' res,
            pm.map fuel (addr / psize * psize % 2 ^ 64) pg psize (pflagsOf entry.prot) .small .normal
              pmap = .ok (pmap', res) ∧ s' = { s₁ with pmap := pmap' })))) := by
  rw [Space.handlePfault] at h
  dsimp only at h
  split at h
  · rename_i hfind
    cases h
    exact Or.inl ⟨hfind, rfl⟩
  · rename_i entry hfind
    refine Or.inr ⟨entry, hfind, ?_⟩
    split at h
    · cases h
    · rcases hget : s.getPage entry.obj ((addr / psize - entry.startp + entry.offsetp) % 2 ^ 64)
        requested with ⟨s₁, pg⟩
      rw [hget] at h
      refine ⟨s₁, pg, rfl, ?_⟩
      split at h
      · rename_i hpg
        cases h
        exact Or.inl ⟨hpg, rfl⟩
      · rename_i hpg
        refine Or.inr ⟨hpg, ?_⟩
        split at h
        · cases h
        · rename_i pmap tr htr
          refine ⟨pmap, tr, htr, ?_⟩
          split at h
          · rename_i heq
            cases h
            exact Or.inl ⟨heq, rfl⟩
          · rename_i hne
            refine Or.inr ⟨hne, ?_⟩
            split at h
            · cases h
            · rename_i pmap' err hmap
              cases h
              exact ⟨pmap', .error err, hmap, rfl⟩
            · rename_i pmap' hmap
              cases h
              exact ⟨pmap', .ok (), hmap, rfl⟩

theorem Space.handlePfault_tree {addr useCount requested : ℕ} {onWrite ret : Bool}
    (h : s.handlePfault pm fuel addr onWrite useCount requested = .ok (s', ret)) :
    s'.tree = s.tree := by
  obtain ⟨-, rfl⟩ | ⟨entry, -, s₁, pg, hget, hcases⟩ := Space.handlePfault_cases h
  · rfl
  · have htree : s₁.tree = s.tree := by
      have hfst := (Space.getPage_snd entry.obj
        ((addr / psize - entry.startp + entry.offsetp) % 2 ^ 64) requested s).1
      rwa [hget] at hfst
    obtain ⟨-, rfl⟩ | ⟨-, pmap, tr, -, ⟨-, rfl⟩ | ⟨-, pmap', res, -, rfl⟩⟩ := hcases
    · exact htree
    · exact htree
    · exact htree

end Faults

/-! ## The parts of the entries in the page map -/

section Parts

variable {pm : Pagemap} {st : Tables} {startp endp : ℕ} {entry : Mapping}

/-- The part of an entry in a range of the lower half. -/
theorem partOf_eq (hle : max startp entry.startp ≤ min endp entry.endp)
    (hlow : min endp entry.endp ≤ lowerPages) :
    partOf startp endp entry = (max startp entry.startp * psize,
      (min endp entry.endp - max startp entry.startp) * psize) := by
  rw [partOf, Prod.mk.injEq]
  generalize max startp entry.startp = lo at hle ⊢
  generalize min endp entry.endp = hi at hle hlow ⊢
  simp only [psize, lowerPages, wsub] at hlow ⊢
  omega

theorem turns_mul (n : ℕ) : turns psize (n * psize) = n := by
  simp only [turns, psize]
  omega

private theorem part_range {lo hi : ℕ} (hle : lo ≤ hi) (hlow : hi ≤ lowerPages) :
    lo * psize + (hi - lo) * psize ≤ 2 ^ 47 := by
  simp only [psize, lowerPages] at hlow ⊢
  omega

/-- `unmap` of a part clears its entries. -/
theorem Pagemap.SmallWf.unmapPart (h : pm.SmallWf st)
    (hle : max startp entry.startp ≤ min endp entry.endp)
    (hlow : min endp entry.endp ≤ lowerPages) :
    ∃ st', Returns (fun fuel => unmapPart pm fuel startp endp entry st) (st', .ok ()) ∧
      pm.SmallWf st' ∧ pm.Updates (max startp entry.startp)
        (min endp entry.endp - max startp entry.startp) (fun _ _ => 0#64) st st' := by
  obtain ⟨st', hret, hwf, -, hupd⟩ := h.unmap (part_range hle hlow)
  rw [turns_mul] at hupd
  refine ⟨st', ?_, hwf, hupd⟩
  simp only [Vmm.unmapPart, partOf_eq hle hlow]
  exact hret

/-- `protect` of a part changes the flags of its entries, all of which have a table, or it fails and one
of them has none. -/
theorem Pagemap.SmallWf.protectPart (h : pm.SmallWf st) (prot : BitVec 8)
    (hle : max startp entry.startp ≤ min endp entry.endp)
    (hlow : min endp entry.endp ≤ lowerPages) :
    (∃ st', Returns (fun fuel => protectPart pm fuel startp endp prot entry st) (st', .ok ()) ∧
      pm.SmallWf st' ∧ pm.Updates (max startp entry.startp)
        (min endp entry.endp - max startp entry.startp)
        (fun _ e => protectEntry e (toArch (pflagsOf prot) .normal .small)) st st' ∧
      (∀ q < lowerPages, pm.HasTable st' q ↔ pm.HasTable st q) ∧
      ∀ q, max startp entry.startp ≤ q → q < min endp entry.endp → pm.HasTable st q) ∨
    ∃ st' err, Returns (fun fuel => protectPart pm fuel startp endp prot entry st)
        (st', .error err) ∧
      ∃ q, max startp entry.startp ≤ q ∧ q < min endp entry.endp ∧ ¬ pm.HasTable st q := by
  simp only [Vmm.protectPart, partOf_eq hle hlow]
  obtain ⟨st', r, k, hret, hwf, -, hupd, hres⟩ :=
    h.protect (part_range hle hlow) (pflagsOf prot) .normal
  obtain ⟨st₁, hret₁, htables, hhas⟩ | ⟨st₁, err, hret₁, i, hi, hnone⟩ :=
    h.protect_tables (part_range hle hlow) (pflagsOf prot) .normal
  · cases (Returns.unique hret hret₁)
    obtain ⟨-, rfl⟩ | ⟨herr, -, -⟩ := hres
    · rw [turns_mul] at hupd hhas
      refine Or.inl ⟨st', hret, hwf, hupd, htables, fun q hlo hhi => ?_⟩
      have hq := hhas (q - max startp entry.startp) (by omega)
      rwa [Nat.add_sub_cancel' hlo] at hq
    · cases herr
  · rw [turns_mul] at hi
    exact Or.inr ⟨st₁, err, hret₁, _, Nat.le_add_right _ i, by omega, hnone⟩

/-- A call that only unmaps parts of entries of the lower half returns. -/
theorem Space.exists_call {s : Space} {tree : List Mapping} (op : SpaceOp) (r : Except Error Unit)
    (tree' : List Mapping) (htree : s.tree = tree) (hwf : pm.SmallWf s.pmap)
    (hpart : ∀ fuel, op.part pm fuel = Vmm.unmapPart pm fuel op.startp op.endp)
    (hrange : ∀ e ∈ op.entries tree, max op.startp e.startp ≤ min op.endp e.endp ∧
      min op.endp e.endp ≤ lowerPages)
    (hr : op.result tree = r)
    (htree' : op.emplaced r (replaceEntries Mapping.startp op.pieces (op.entries tree) tree) = tree') :
    ∃ s', s.Call pm op r s' ∧ pm.SmallWf s'.pmap ∧ s'.tree = tree' := by
  subst htree hr
  have hstep : ∀ e es (s : Space), (pm.SmallWf s.pmap ∧ ∀ e' ∈ e :: es,
      max op.startp e'.startp ≤ min op.endp e'.endp ∧ min op.endp e'.endp ≤ lowerPages) →
      ∃ pmap, Returns (fun fuel => op.part pm fuel e s.pmap) (pmap, .ok ()) ∧ pm.SmallWf pmap := by
    rintro e es s ⟨hwf, hrange⟩
    obtain ⟨hle, hlow⟩ := hrange e List.mem_cons_self
    obtain ⟨st', hret, hwf', -⟩ := hwf.unmapPart hle hlow
    refine ⟨st', ?_, hwf'⟩
    simp only [hpart]
    exact hret
  obtain ⟨s₁, hret, hwf₁, -⟩ | ⟨hfalse, -⟩ := Space.replaceAll_rule
    (fun es s => pm.SmallWf s.pmap ∧ ∀ e ∈ es, max op.startp e.startp ≤ min op.endp e.endp ∧
      min op.endp e.endp ≤ lowerPages) False
    (fun e es s hJ => by
      obtain ⟨pmap, hret, hwf'⟩ := hstep e es s hJ
      exact Or.inl ⟨pmap, hret, hwf', fun x hx => hJ.2 x (List.mem_cons_of_mem e hx)⟩)
    ⟨hwf, hrange⟩
  · have hcall := Space.call_of_returns hret
    exact ⟨_, hcall, hwf₁, hcall.eq.2.2.trans htree'⟩
  · exact hfalse.elim

end Parts

end Ilobilix.Vmm
