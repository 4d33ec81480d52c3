import Ilobilix.Memory.Vmm.Syscalls

/-!
# Failed calls on an address space

`map` goes through the overlapping entries and gives up at the first untouchable one; by then it has
erased and unmapped the entries in front of it and does not put them back. `failed_call_iff` says when
a call that returns an error has changed nothing, in any state that a run reaches.

The reason needs the order of the tree. The first entry that `map` takes is a piece of no entry: the
pieces below the range end where the range starts and those above it start where it ends, and the empty
ones, which are at the end of an entry, lie behind the first entry.
-/

namespace Ilobilix.Vmm

open Lib Intervals

/-! ## What holds of the tree in every run -/

/-- The order of the tree. No call breaks it, whatever the ranges are. -/
structure TreeSorted (tree : List Mapping) : Prop where
  sorted : tree.Pairwise fun a b => a.startp ≤ b.startp
  bounded : ∀ m ∈ tree, m.startp < 2 ^ 64 ∧ m.endp < 2 ^ 64

section Sorted

variable {pm : Pagemap} {fuel : ℕ} {s s' : Space} {op : SpaceOp} {e x : Mapping} {startp endp : ℕ}

theorem wsub_lt (a b : ℕ) : wsub a b < 2 ^ 64 := Nat.mod_lt _ (Nat.two_pow_pos 64)

private theorem bounded_of_mem_outside {offsetp : ℕ} (hstart : startp < 2 ^ 64) (hend : endp < 2 ^ 64)
    (he : e.startp < 2 ^ 64 ∧ e.endp < 2 ^ 64) (hx : x ∈ outside startp endp offsetp e) :
    x.startp < 2 ^ 64 ∧ x.endp < 2 ^ 64 := by
  obtain ⟨-, rfl⟩ | ⟨-, rfl⟩ := mem_outside.mp hx
  · exact ⟨he.1, hstart⟩
  · exact ⟨hend, he.2⟩

/-- The pieces of an entry that `map` takes: a part below the range or a part up to the end of the
entry, which is empty if the entry ends in the range. -/
theorem mem_mapPieces (hstart : startp < 2 ^ 64) (he : e.endp < 2 ^ 64)
    (hx : x ∈ mapPieces startp endp e) :
    (e.startp < startp ∧ x.startp = e.startp ∧ x.endp = startp) ∨
    (endp < e.endp ∧ x.startp = endp ∧ x.endp = e.endp) ∨
    (e.startp < startp ∧ e.endp ≤ endp ∧ x.startp = e.endp ∧ x.endp = e.endp) := by
  rw [mapPieces] at hx
  split at hx
  · cases hx
  · rename_i hcover
    have hheadp : (if startp < e.startp then 0 else startp - e.startp) = startp - e.startp := by
      split
      · omega
      · rfl
    simp only [hheadp] at hx
    rcases List.mem_append.mp hx with hx | hx
    · split at hx
      · rename_i hhead
        rw [List.mem_singleton] at hx
        subst hx
        left
        dsimp only
        rw [show e.startp + (startp - e.startp) = startp by omega, Nat.mod_eq_of_lt hstart]
        exact ⟨by omega, rfl, rfl⟩
      · cases hx
    · split at hx
      · rw [List.mem_singleton] at hx
        subst hx
        right
        dsimp only
        split
        · rename_i hle
          rw [wsub_of_le (Nat.zero_le _) he]
          exact Or.inr ⟨by omega, hle, rfl, rfl⟩
        · rename_i hlt
          rw [wsub_of_le (Nat.sub_le _ _) (by omega)]
          exact Or.inl ⟨by omega, by omega, rfl⟩
      · cases hx

private theorem SpaceOp.bounded_pieces (he : e.startp < 2 ^ 64 ∧ e.endp < 2 ^ 64)
    (hx : x ∈ op.pieces e) : x.startp < 2 ^ 64 ∧ x.endp < 2 ^ 64 := by
  have hstart : op.startp < 2 ^ 64 := lt_trans op.startp_lt (by norm_num)
  have hend : op.endp < 2 ^ 64 := lt_trans op.endp_lt (by norm_num)
  cases op with
  | map address length prot flags obj offset =>
      rw [SpaceOp.pieces] at hx
      rcases mem_mapPieces hstart he.2 hx with ⟨-, h₁, h₂⟩ | ⟨-, h₁, h₂⟩ | ⟨-, -, h₁, h₂⟩
      · exact ⟨h₁ ▸ he.1, h₂ ▸ hstart⟩
      · exact ⟨h₁ ▸ hend, h₂ ▸ he.2⟩
      · exact ⟨h₁ ▸ he.2, h₂ ▸ he.2⟩
  | unmap address length =>
      rw [SpaceOp.pieces, unmapPieces_eq hstart hend] at hx
      exact bounded_of_mem_outside hstart hend he hx
  | unmapObj obj => cases hx
  | protect address length prot =>
      rw [SpaceOp.pieces, protectPieces] at hx
      split at hx
      · rw [List.mem_singleton] at hx
        subst hx
        exact he
      · dsimp only at hx
        rw [remaining_eq hstart hend] at hx
        rcases List.mem_append.mp hx with hx | hx
        · exact bounded_of_mem_outside hstart hend he hx
        · rw [List.mem_singleton] at hx
          subst hx
          exact ⟨max_lt hstart he.1, min_lt_of_left_lt hend⟩

/-- Every call keeps the order. -/
theorem TreeSorted.run {r : Except Error Unit} (hs : TreeSorted s.tree)
    (h : s.run pm fuel op = .ok (s', r)) : TreeSorted s'.tree := by
  obtain ⟨-, -, htree⟩ := Space.eq_of_run h
  have hloop : TreeSorted (replaceEntries Mapping.startp op.pieces (op.entries s.tree) s.tree) := by
    refine ⟨pairwise_replaceEntries hs.sorted, fun x hx => ?_⟩
    rcases mem_of_mem_replaceEntries hx with hx | ⟨e, he, hx⟩
    · exact hs.bounded x hx
    · exact SpaceOp.bounded_pieces (hs.bounded e (SpaceOp.mem_entries he).1) hx
  rw [htree]
  cases r with
  | error err => rwa [SpaceOp.emplaced_error]
  | ok =>
      cases op with
      | map address length prot flags obj offset =>
          refine ⟨pairwise_emplace hloop.sorted, fun x hx => ?_⟩
          rcases mem_emplace.mp hx with rfl | hx
          · exact ⟨lt_trans (startPage_lt address) (by norm_num),
              lt_trans (divRoundup_lt _) (by norm_num)⟩
          · exact hloop.bounded x hx
      | unmap => exact hloop
      | unmapObj => exact hloop
      | protect => exact hloop

theorem treeSorted_of_reachable (h : (Space.memorySystem pm).Reachable s) : TreeSorted s.tree :=
  tree_invariant (P := TreeSorted) ⟨List.Pairwise.nil, by simp⟩ (fun _ _ _ _ _ hs h => hs.run h) h

end Sorted

/-! ## Failed calls -/

/-- The call fails before it takes an entry: an argument is not aligned, or the first entry in the range
of a `map` is untouchable. -/
def SpaceOp.FailsFirst (tree : List Mapping) (op : SpaceOp) : Prop :=
  op.aligned = false ∨
    ∃ e, (tree.filter (overlaps op.startp op.endp)).head? = some e ∧ e.untouchable = true

section Failed

variable {pm : Pagemap} {s s' : Space} {op : SpaceOp} {tree : List Mapping}

/-- Only `map` fails on aligned arguments. -/
theorem SpaceOp.eq_map_of_error {err : Error} (h : op.result tree = .error err)
    (hal : op.aligned = true) : ∃ address length prot flags obj offset,
      op = .map address length prot flags obj offset ∧ op.blocked tree = true := by
  rw [SpaceOp.result, if_pos hal] at h
  have hb : op.blocked tree = true := by
    by_contra hb
    rw [if_neg hb] at h
    cases h
  cases op with
  | map address length prot flags obj offset => exact ⟨_, _, _, _, _, _, rfl, hb⟩
  | unmap => cases hb
  | unmapObj => cases hb
  | protect => cases hb

/-- A call that fails first takes no entry. -/
theorem SpaceOp.FailsFirst.entries {err : Error} (h : op.FailsFirst tree)
    (hres : op.result tree = .error err) : op.entries tree = [] := by
  rw [SpaceOp.entries]
  cases hal : op.aligned with
  | false => rfl
  | true =>
      obtain ⟨e, hhead, hu⟩ := h.resolve_left (by rw [hal]; exact Bool.noConfusion)
      obtain ⟨address, length, prot, flags, obj, offset, rfl, -⟩ := SpaceOp.eq_map_of_error hres hal
      obtain ⟨rest, hrest⟩ : ∃ rest, tree.filter (overlaps
          (SpaceOp.startp (.map address length prot flags obj offset))
          (SpaceOp.endp (.map address length prot flags obj offset))) = e :: rest :=
        List.head?_eq_some_iff.mp hhead
      rw [if_pos rfl, SpaceOp.overlapping, hrest, List.takeWhile_cons_of_neg]
      rw [hu]
      exact Bool.false_ne_true

/-- A `map` that does not fail first takes the first entry in its range, and that is a piece of none of
the entries it takes. -/
theorem SpaceOp.exists_taken {err : Error} (hs : TreeSorted tree) (h : ¬ op.FailsFirst tree)
    (hres : op.result tree = .error err) :
    ∃ e ∈ op.entries tree, ∀ e' ∈ op.entries tree, e ∉ op.pieces e' := by
  have hal : op.aligned = true := by
    by_contra hal
    exact h (Or.inl (Bool.eq_false_iff.mpr hal))
  have hentries : op.entries tree = op.overlapping tree := if_pos hal
  obtain ⟨address, length, prot, flags, obj, offset, hop, hb⟩ := SpaceOp.eq_map_of_error hres hal
  have hover : op.overlapping tree =
      (tree.filter (overlaps op.startp op.endp)).takeWhile fun entry => !entry.untouchable := by
    rw [hop]
    rfl
  cases hfilter : tree.filter (overlaps op.startp op.endp) with
  | nil =>
      rw [hop, SpaceOp.blocked, ← hop, hfilter] at hb
      cases hb
  | cons e rest =>
      have hu : e.untouchable = false := by
        by_contra hu
        exact h (Or.inr ⟨e, by rw [hfilter, List.head?_cons], Bool.not_eq_false _ ▸ hu⟩)
      have he : e ∈ tree ∧ overlaps op.startp op.endp e = true :=
        List.mem_filter.mp (hfilter ▸ List.mem_cons_self)
      refine ⟨e, ?_, fun e' he' hpiece => ?_⟩
      · rw [hentries, hover, hfilter, List.takeWhile_cons_of_pos (by rw [hu]; rfl)]
        exact List.mem_cons_self
      · have hmem := (SpaceOp.mem_entries he').1
        -- `e` comes first among the entries in the range
        have hle : e.startp ≤ e'.startp := by
          rw [hentries, hover, hfilter] at he'
          have hsorted := hs.sorted.filter (overlaps op.startp op.endp)
          rw [hfilter] at hsorted
          rcases List.mem_cons.mp ((List.takeWhile_sublist _).mem he') with rfl | he'
          · exact le_rfl
          · exact (List.pairwise_cons.mp hsorted).1 e' he'
        have hover' := SpaceOp.overlaps_of_mem_entries (by rw [hop]; exact fun _ => nofun) he'
        have hpieces : op.pieces e' = mapPieces op.startp op.endp e' := by
          rw [hop]
          rfl
        rw [hpieces] at hpiece
        rw [overlaps_iff] at he hover'
        rcases mem_mapPieces (lt_trans op.startp_lt (by norm_num)) (hs.bounded e' hmem).2 hpiece with
          ⟨-, -, hend⟩ | ⟨-, hstart, -⟩ | ⟨hbelow, -, hstart, -⟩
        · omega
        · omega
        · omega

/-- In any state that a run reaches, a call that returns an error leaves the tree and the page map
alone if and only if it fails before it takes an entry. -/
theorem failed_call_iff {err : Error} (hs : (Space.memorySystem pm).Reachable s)
    (h : s.Call pm op (.error err) s') :
    (s'.tree = s.tree ∧ s'.pmap = s.pmap) ↔ op.FailsFirst s.tree := by
  obtain ⟨N, hN⟩ := h
  have hrun : s.run pm N op = .ok (s', .error err) := hN N le_rfl
  obtain ⟨hres, -, htree⟩ := Space.eq_of_run hrun
  constructor
  · rintro ⟨hsame, -⟩
    by_contra hnot
    obtain ⟨e, he, hpieces⟩ := SpaceOp.exists_taken (treeSorted_of_reachable hs) hnot hres.symm
    refine not_mem_replaceEntries he hpieces (?_ : e ∈ replaceEntries Mapping.startp op.pieces
      (op.entries s.tree) s.tree)
    rw [SpaceOp.emplaced_error, hsame] at htree
    rw [← htree]
    exact (SpaceOp.mem_entries he).1
  · intro hfirst
    obtain ⟨s₁, hall, hfin⟩ := Space.exists_replaceAll hrun
    rw [hfirst.entries hres.symm, Space.replaceAll] at hall
    cases hall
    rw [SpaceOp.finish, Prod.mk.injEq, ← hres, SpaceOp.emplaced_error] at hfin
    rw [hfin.1]
    exact ⟨rfl, rfl⟩

end Failed

/-- A `map` onto the stack only fails first. -/
theorem failed_call_iff_stack : ∃ s s' : Space,
    s.Call exampleMachine (.map 0x14000 0x1000 3 0x22 3 0) (.error .addrInUse) s' ∧
    s'.tree = s.tree ∧ s'.pmap = s.pmap := by
  obtain ⟨s₁, hcall₁, hwf₁, htree₁⟩ := Space.exists_call (.map 0x14000 0x2000 3 0x42 2 0) (.ok ())
    [⟨0x14, 0x16, 2, 0, 3, 0x42⟩] rfl Space.empty_smallWf (fun _ => rfl) (by decide +kernel) rfl
    (by decide +kernel)
  obtain ⟨s₂, hcall₂, -, -⟩ := Space.exists_call (.map 0x14000 0x1000 3 0x22 3 0)
    (.error .addrInUse) [⟨0x14, 0x16, 2, 0, 3, 0x42⟩] htree₁ hwf₁ (fun _ => rfl)
    (by decide +kernel) rfl (by decide +kernel)
  have h₀ : (Space.memorySystem exampleMachine).Reachable Space.empty := .init rfl
  have h₁ := h₀.step (l := MemoryOp.kernel (.map 0x14000 0x2000 3 0x42 2 0)) ⟨_, hcall₁⟩
  have hfirst : SpaceOp.FailsFirst s₁.tree (.map 0x14000 0x1000 3 0x22 3 0) := by
    rw [htree₁]
    exact Or.inr ⟨⟨0x14, 0x16, 2, 0, 3, 0x42⟩, by decide +kernel, rfl⟩
  exact ⟨s₁, s₂, hcall₂, (failed_call_iff h₁ hcall₂).mpr hfirst⟩

/-- The `map` gives up at the stack and the two pages in front of it are gone. -/
theorem failed_map_unmaps : ∃ s s' : Space, (Space.memorySystem exampleMachine).Reachable s ∧
    s.Call exampleMachine (.map 0x10000 0x6000 3 0x22 3 0) (.error .addrInUse) s' ∧
    ⟨0x10, 0x12, 1, 0, 3, 0x22⟩ ∈ s.tree ∧ ⟨0x10, 0x12, 1, 0, 3, 0x22⟩ ∉ s'.tree := by
  obtain ⟨s₁, hcall₁, hwf₁, htree₁⟩ := Space.exists_call (.map 0x10000 0x2000 3 0x22 1 0) (.ok ())
    [⟨0x10, 0x12, 1, 0, 3, 0x22⟩] rfl Space.empty_smallWf (fun _ => rfl) (by decide +kernel) rfl
    (by decide +kernel)
  obtain ⟨s₂, hcall₂, hwf₂, htree₂⟩ := Space.exists_call (.map 0x14000 0x2000 3 0x42 2 0) (.ok ())
    [⟨0x10, 0x12, 1, 0, 3, 0x22⟩, ⟨0x14, 0x16, 2, 0, 3, 0x42⟩] htree₁ hwf₁ (fun _ => rfl)
    (by decide +kernel) rfl (by decide +kernel)
  obtain ⟨s₃, hcall₃, -, htree₃⟩ := Space.exists_call (.map 0x10000 0x6000 3 0x22 3 0)
    (.error .addrInUse) [⟨0x14, 0x16, 2, 0, 3, 0x42⟩] htree₂ hwf₂ (fun _ => rfl)
    (by decide +kernel) rfl (by decide +kernel)
  have h₀ : (Space.memorySystem exampleMachine).Reachable Space.empty := .init rfl
  have h₁ := h₀.step (l := MemoryOp.kernel (.map 0x10000 0x2000 3 0x22 1 0)) ⟨_, hcall₁⟩
  have h₂ := h₁.step (l := MemoryOp.kernel (.map 0x14000 0x2000 3 0x42 2 0)) ⟨_, hcall₂⟩
  refine ⟨s₂, s₃, h₂, hcall₃, ?_, ?_⟩
  · rw [htree₂]
    decide
  · rw [htree₃]
    decide

/-! ## Failed `mmap` -/

/-- The arguments make `mmap` unmap something first: they pass the checks, the address is fixed, the
range counts as mapped and a mapping that may be touched overlaps it. -/
structure UnmapsFirst (s : Space) (addr length : ℕ) (flags fd : BitVec 32) (offset : ℕ) : Prop where
  passes : PassesChecks addr length flags fd offset
  fixed : flags.getLsbD 4 = true
  mapped : s.isMapped addr length = true
  overlapped : ∃ e ∈ s.tree, e.untouchable = false ∧
    overlaps (startPage addr) (endPage addr length) e = true

section FailedMmap

variable {pm : Pagemap} {fuel : ℕ} {s s' : Space} {addr length offset : UInt64}
  {prot flags fd : BitVec 32} {file : Option (Option ℕ)} {memobject : ℕ} {errno : Errno}

/-- After the address is chosen, a failure for another reason than memory comes before `map`. -/
theorem mmapAt_failed {address len off : ℕ} (hne : errno ≠ .enomem)
    (h : s.mmapAt pm fuel address len prot flags fd off file memobject = .ok (s', .error errno)) :
    s' = s := by
  unfold Space.mmapAt at h
  dsimp only at h
  split at h
  · cases h
    rfl
  · split at h
    · cases h
      rfl
    · split at h
      · cases h
      · cases h
        exact absurd rfl hne
      · cases h

/-- An `unmap` whose range a touchable mapping overlaps changes the tree, any other leaves it alone. -/
theorem unmap_tree_iff {r : Except Error Unit} (hal : addr.toNat % psize = 0)
    (h : s.run pm fuel (.unmap addr length) = .ok (s', r)) :
    s'.tree = s.tree ↔ ¬ ∃ e ∈ s.tree, e.untouchable = false ∧
      overlaps (startPage addr.toNat) (endPage addr.toNat length.toNat) e = true := by
  obtain ⟨-, -, htree⟩ := Space.eq_of_run h
  have hal' : SpaceOp.aligned (.unmap addr length) = true := decide_eq_true hal
  have hentries : ∀ e, e ∈ SpaceOp.entries s.tree (.unmap addr length) ↔ e ∈ s.tree ∧
      e.untouchable = false ∧
      overlaps (startPage addr.toNat) (endPage addr.toNat length.toNat) e = true := by
    intro e
    rw [SpaceOp.entries, if_pos hal', SpaceOp.overlapping, List.mem_filter,
      Bool.and_eq_true_iff, Bool.not_eq_true', and_comm (a := e.untouchable = false)]
    rfl
  have hemplaced : s'.tree = replaceEntries Mapping.startp (SpaceOp.pieces (.unmap addr length))
      (SpaceOp.entries s.tree (.unmap addr length)) s.tree := by
    rw [htree]
    cases r with
    | error => rfl
    | ok => rfl
  constructor
  · rintro hsame ⟨e, he⟩
    have hin := (hentries e).mpr he
    refine not_mem_replaceEntries hin (fun e' he' hpiece => ?_) (hemplaced ▸ hsame ▸ he.1)
    -- a piece lies outside of the range
    rw [SpaceOp.pieces, unmapPieces_eq (lt_trans (SpaceOp.startp_lt _) (by norm_num))
      (lt_trans (SpaceOp.endp_lt _) (by norm_num))] at hpiece
    obtain ⟨hlo, hhi⟩ := overlaps_iff.mp he.2.2
    obtain ⟨-, rfl⟩ | ⟨-, rfl⟩ := mem_outside.mp hpiece
    · exact lt_irrefl _ hlo
    · exact lt_irrefl _ hhi
  · intro hnone
    have hnil : SpaceOp.entries s.tree (.unmap addr length) = [] :=
      List.eq_nil_iff_forall_not_mem.mpr fun e he => hnone ⟨e, (hentries e).mp he⟩
    rw [hemplaced, hnil]
    rfl

/-- A `mmap` that fails because of its arguments or its file descriptor leaves the mappings of the
process alone if and only if it did not unmap the range of a fixed address before. -/
theorem failed_mmap_iff (hne : errno ≠ .enomem)
    (h : Returns (fun fuel => s.runUser pm fuel
      (.mmap addr length prot flags fd offset file memobject)) (s', .error errno)) :
    s'.tree = s.tree ↔ ¬ UnmapsFirst s addr.toNat length.toNat flags fd offset.toNat := by
  obtain ⟨N, hN⟩ := h
  have hmmap : s.mmap pm N addr.toNat length.toNat prot flags fd offset.toNat file memobject =
      .ok (s', .error errno) := hN N le_rfl
  by_cases hpass : PassesChecks addr.toNat length.toNat flags fd offset.toNat
  · rw [mmap_of_passes hpass] at hmmap
    split at hmmap
    · rename_i hfixed
      have hal := (hpass.fixed hfixed).2
      split at hmmap
      · rename_i hmapped
        have hiff : UnmapsFirst s addr.toNat length.toNat flags fd offset.toNat ↔
            ∃ e ∈ s.tree, e.untouchable = false ∧
              overlaps (startPage addr.toNat) (endPage addr.toNat length.toNat) e = true :=
          ⟨fun h => h.overlapped, fun h => ⟨hpass, hfixed, hmapped, h⟩⟩
        rw [hiff]
        split at hmmap
        · cases hmmap
        · rename_i s₁ err hunmap
          cases hmmap
          exact unmap_tree_iff hal hunmap
        · rename_i s₁ hunmap
          rw [mmapAt_failed hne hmmap]
          exact unmap_tree_iff hal hunmap
      · rename_i hmapped
        exact iff_of_true (by rw [mmapAt_failed hne hmmap]) fun h => hmapped h.mapped
    · rename_i hfixed
      refine iff_of_true ?_ fun h => hfixed h.fixed
      split at hmmap
      · cases hmmap
        rfl
      · rw [mmapAt_failed hne hmmap]
  · exact iff_of_true (by rw [(mmap_of_not_passes hpass hmmap).1]) fun h => hpass h.passes

/-- An anonymous `mmap` at a fixed address with an offset fails after the range was unmapped. -/
private theorem mmap_with_offset {s₁ : Space} (haddr : addr.toNat ≠ 0)
    (hal : addr.toNat % psize = 0) (hpos : length.toNat ≠ 0) (hlen : length.toNat % psize = 0)
    (hsum : addr.toNat + length.toNat < 2 ^ 64) (hoff : offset.toNat % psize = 0)
    (hoff' : offset.toNat ≠ 0)
    (h : if s.isMapped addr.toNat length.toNat then s.Call pm (.unmap addr length) (.ok ()) s₁
      else s₁ = s) :
    Returns (fun fuel => s.runUser pm fuel (.mmap addr length 3 0x32 (-1) offset none memobject))
      (s₁, .error .einval) := by
  have hpass : PassesChecks addr.toNat length.toNat 0x32 (-1) offset.toNat :=
    ⟨by decide, hpos, hlen, hoff, fun _ => by decide, fun h => (by cases h), fun _ => ⟨haddr, hal⟩⟩
  have hat : ∀ fuel, s₁.mmapAt pm fuel addr.toNat length.toNat 3 0x32 (-1) offset.toNat none
      memobject = .ok (s₁, .error .einval) := by
    intro fuel
    unfold Space.mmapAt
    dsimp only
    rw [if_neg (by rw [Nat.mod_eq_of_lt hsum]; omega), if_neg (by decide), if_pos hoff']
  split at h
  · rename_i hmapped
    obtain ⟨N, hN⟩ := h
    refine ⟨N, fun fuel hfuel => ?_⟩
    have hunmap : s.unmap pm fuel addr.toNat length.toNat = .ok (s₁, .ok ()) := hN fuel hfuel
    simp only [Space.runUser]
    rw [mmap_of_passes hpass, if_pos (by decide), if_pos hmapped, hunmap]
    exact hat fuel
  · rename_i hmapped
    subst h
    refine ⟨0, fun fuel _ => ?_⟩
    simp only [Space.runUser]
    rw [mmap_of_passes hpass, if_pos (by decide), if_neg hmapped]
    exact hat fuel

end FailedMmap

/-- The segment of an interpreter that is loaded at address zero. -/
private theorem exists_interpreter : ∃ s : Space,
    Space.empty.Call exampleMachine (.map 0 0x10000 5 2 1 0) (.ok ()) s ∧
    exampleMachine.SmallWf s.pmap ∧ s.tree = [⟨0, 0x10, 1, 0, 5, 2⟩] :=
  Space.exists_call (.map 0 0x10000 5 2 1 0) (.ok ()) [⟨0, 0x10, 1, 0, 5, 2⟩] rfl
    Space.empty_smallWf (fun _ => rfl) (by decide +kernel) rfl (by decide +kernel)

/-- A failing `mmap` behind the interpreter leaves it alone. -/
theorem failed_mmap_iff_unmapped : ∃ s s' : Space, s.tree = [⟨0, 0x10, 1, 0, 5, 2⟩] ∧
    Returns (fun fuel => s.runUser exampleMachine fuel
      (.mmap 0x20000 0x1000 3 0x32 (-1) 0x1000 none 2)) (s', .error .einval) ∧
    s'.tree = s.tree := by
  obtain ⟨s, -, -, htree⟩ := exists_interpreter
  have hmapped : s.isMapped 0x20000 0x1000 = false := by
    rw [Space.isMapped, htree]
    decide +kernel
  have hmmap : Returns (fun fuel => s.runUser exampleMachine fuel
      (.mmap 0x20000 0x1000 3 0x32 (-1) 0x1000 none 2)) (s, .error .einval) := by
    refine mmap_with_offset (by decide) (by decide) (by decide) (by decide) (by decide) (by decide)
      (by decide) ?_
    rw [if_neg]
    exact Bool.not_eq_true _ ▸ hmapped
  refine ⟨s, s, htree, hmmap, (failed_mmap_iff (by decide) hmmap).mpr fun h => ?_⟩
  exact Bool.false_ne_true (hmapped.symm.trans h.mapped)

/-- A failing `mmap` of the second page of the interpreter unmaps that page. -/
theorem failed_mmap_unmaps : ∃ s s' : Space, (Space.memorySystem exampleMachine).Reachable s ∧
    Returns (fun fuel => s.runUser exampleMachine fuel
      (.mmap 0x1000 0x1000 3 0x32 (-1) 0x1000 none 2)) (s', .error .einval) ∧
    s.tree = [⟨0, 0x10, 1, 0, 5, 2⟩] ∧
    s'.tree = [⟨0, 1, 1, 0, 5, 2⟩, ⟨2, 0x10, 1, 2, 5, 2⟩] := by
  obtain ⟨s₁, hcall₁, hwf₁, htree₁⟩ := exists_interpreter
  obtain ⟨s₂, hcall₂, -, htree₂⟩ := Space.exists_call (.unmap 0x1000 0x1000) (.ok ())
    [⟨0, 1, 1, 0, 5, 2⟩, ⟨2, 0x10, 1, 2, 5, 2⟩] htree₁ hwf₁ (fun _ => rfl) (by decide +kernel) rfl
    (by decide +kernel)
  have h₀ : (Space.memorySystem exampleMachine).Reachable Space.empty := .init rfl
  have h₁ := h₀.step (l := MemoryOp.kernel (.map 0 0x10000 5 2 1 0)) ⟨_, hcall₁⟩
  have hmapped : s₁.isMapped 0x1000 0x1000 = true := by
    rw [Space.isMapped, htree₁]
    decide +kernel
  refine ⟨s₁, s₂, h₁, ?_, htree₁, htree₂⟩
  refine mmap_with_offset (by decide) (by decide) (by decide) (by decide) (by decide) (by decide)
    (by decide) ?_
  rw [if_pos]
  · exact hcall₂
  · exact hmapped

end Ilobilix.Vmm
