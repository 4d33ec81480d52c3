import Ilobilix.Memory.Pagemap.Mixed

/-!
# Addresses and flags in one entry

An entry holds the address of a page and its flags, and `pa_mask` tells them apart. The caching modes
`write_protected` and `write_combining` set the PAT bit, which is bit 7 for a small page and bit 12 for a
larger one. Bit 12 is below a larger page but inside `pa_mask`, so there `getaddr` takes it for a part
of the address and `clearflags` does not clear it.

`separates_iff` says that this is all that goes wrong: after `map` on an empty table, `translate` finds
the address and `protect` leaves what a fresh `map` would have written, exactly if the page is small or
the caching mode does not set the PAT bit.
-/

namespace Ilobilix.Vmm

/-- The caching modes that set the PAT bit. -/
def Caching.usesPat : Caching → Bool
  | .writeProtected => true
  | .writeCombining => true
  | _ => false

/-- The entry that `getpte` finds, when it finds one. -/
def Pagemap.entryOf (pm : Pagemap) (st : Tables) (vaddr : ℕ) (psize : PageSize) : Option (BitVec 64) :=
  match pm.getpte vaddr psize false st with
  | .ok (st, .ok (t, j)) => some (st.mem t j)
  | _ => none

/-- After `map` every page of the range translates to its address, and a `protect` leaves the entries
that a fresh `map` with the new flags writes. -/
def Pagemap.Separates (pm : Pagemap) (st : Tables) (vaddr paddr length : ℕ) (size : PageSize)
    (flags : Pflag) (cache : Caching) (flags2 : Pflag) (cache2 : Caching) : Prop :=
  ∃ st₁ st₂ st₃,
    Returns (fun fuel => pm.map fuel vaddr paddr length flags size cache st) (st₁, .ok ()) ∧
    (∀ i < length, fromPageSize (pm.fixpsize size) ∣ i →
      ∃ s, pm.translate ((vaddr + i) % 2 ^ 64) size st₁ = .ok (s, .ok (paddr + i))) ∧
    Returns (fun fuel => pm.protect fuel vaddr length flags2 size cache2 st₁) (st₂, .ok ()) ∧
    Returns (fun fuel => pm.map fuel vaddr paddr length flags2 size cache2 st) (st₃, .ok ()) ∧
    ∀ i < length, fromPageSize (pm.fixpsize size) ∣ i → ∃ e,
      pm.entryOf st₂ ((vaddr + i) % 2 ^ 64) (pm.fixpsize size) = some e ∧
      pm.entryOf st₃ ((vaddr + i) % 2 ^ 64) (pm.fixpsize size) = some e

/-! ## The masks -/

/-- The flags of a page stay out of the address exactly if they do not set the PAT bit of a larger
page. -/
theorem toArch_paMask (flags : Pflag) (cache : Caching) (psize : PageSize) :
    toArch flags cache psize &&& paMask =
      if psize ≠ .small ∧ cache.usesPat then Arch.lpat else 0#64 := by
  obtain ⟨r, w, x, u, g⟩ := flags
  revert r w x u g
  cases cache <;> cases psize <;> decide

theorem toArch_paMask_zero (flags : Pflag) {cache : Caching} {psize : PageSize}
    (h : psize = .small ∨ cache.usesPat = false) : toArch flags cache psize &&& paMask = 0#64 := by
  rw [toArch_paMask, if_neg]
  rintro ⟨hne, hpat⟩
  rcases h with h | h
  · exact hne h
  · rw [h] at hpat
    cases hpat

/-- `protect` takes the old flags away if they stay out of the address. -/
theorem protectEntry_mapEntry {paddr : ℕ} {aflags aflags2 : BitVec 64}
    (h : aflags &&& paMask = 0#64) :
    protectEntry (mapEntry paddr aflags) aflags2 = mapEntry paddr aflags2 := by
  have hclear : clearflags (mapEntry paddr aflags) = setaddr 0#64 paddr := by
    have haddr : setaddr 0#64 paddr &&& paMask = setaddr 0#64 paddr := by
      rw [setaddr, BitVec.zero_and, BitVec.zero_or, BitVec.and_assoc, BitVec.and_self]
    rw [clearflags, mapEntry, setflags, BitVec.and_or_distrib_right, haddr, h, BitVec.or_zero]
  rw [protectEntry, hclear, mapEntry]

/-- The PAT bit of a larger page counts as a part of the address. -/
theorem getaddr_mapEntry_pat (paddr : ℕ) (flags : Pflag) {cache : Caching} {psize : PageSize}
    (hne : psize ≠ .small) (hpat : cache.usesPat = true) :
    (getaddr (mapEntry paddr (toArch flags cache psize))).testBit 12 = true := by
  have hmask : (toArch flags cache psize &&& paMask).getLsbD 12 = true := by
    rw [toArch_paMask, if_pos ⟨hne, hpat⟩]
    decide
  rw [getaddr, BitVec.testBit_toNat, mapEntry, setflags, BitVec.and_or_distrib_right,
    BitVec.getLsbD_or, hmask, Bool.or_true]

/-! ## Entries at one depth -/

section Holds

variable {pm : Pagemap} {P : ℕ → Prop} {st st' : Tables} {v w : ℕ} {ps : PageSize} {e e' : BitVec 64}

/-- The entry of the page of `v` is `e`. -/
def Pagemap.Holds (pm : Pagemap) (st : Tables) (v : ℕ) (ps : PageSize) (e : BitVec 64) : Prop :=
  ∃ t, pm.walk st (pathTo v (depth ps)) = some t ∧ st.mem t (idx v (depth ps)) = e

/-- An entry that ends the walk at the depth of its page size: one of the last level, or a leaf. -/
def Terminal (ps : PageSize) (e : BitVec 64) : Prop := ps = .small ∨ isLeaf e = true

theorem Terminal.mapEntry (paddr : ℕ) (flags : Pflag) (cache : Caching) (ps : PageSize) :
    Terminal ps (mapEntry paddr (toArch flags cache ps)) := by
  by_cases hsmall : ps = .small
  · exact Or.inl hsmall
  · refine Or.inr ?_
    rw [isLeaf, Vmm.mapEntry, getLsbD_mk _ _ rfl, toArch_lpages flags cache hsmall]

theorem Terminal.protectEntry (e : BitVec 64) (flags : Pflag) (cache : Caching) (ps : PageSize) :
    Terminal ps (protectEntry e (toArch flags cache ps)) := by
  by_cases hsmall : ps = .small
  · exact Or.inl hsmall
  · refine Or.inr ?_
    rw [isLeaf, Vmm.protectEntry, getLsbD_reflag _ _ rfl, toArch_lpages flags cache hsmall]

theorem Terminal.last (h : Terminal ps e) : depth ps + 1 = levels ∨ tableOf e = none := by
  rcases h with rfl | h
  · exact Or.inl rfl
  · exact Or.inr (tableOf_of_isLeaf h)

theorem Terminal.ne_zero (h : Terminal ps e) : ps = .small ∨ e ≠ 0#64 := by
  rcases h with rfl | h
  · exact Or.inl rfl
  · refine Or.inr ?_
    rintro rfl
    cases h

/-- What the tables say about the page of `v` when its entry is `e`. -/
theorem Pagemap.Holds.lookup (h : pm.Holds st v ps e) (he : Terminal ps e) :
    pm.lookup st v = if e = 0#64 then none else some ((pathTo v levels).drop (depth ps + 1), e) := by
  obtain ⟨t, hw, rfl⟩ := h
  exact Pagemap.lookup_of_walk (depth_lt ps) hw he.last

/-- And the other way round. -/
theorem Pagemap.holds_of_lookup (hw : (pm.walk st (pathTo v (depth ps))).isSome) (he : Terminal ps e)
    (hl : pm.lookup st v =
      if e = 0#64 then none else some ((pathTo v levels).drop (depth ps + 1), e)) :
    pm.Holds st v ps e := by
  obtain ⟨t, ht⟩ := Option.isSome_iff_exists.mp hw
  refine ⟨t, ht, ?_⟩
  by_cases hz : e = 0#64
  · -- an empty entry is one of the last level, which has no levels below it to look at
    obtain rfl := he.ne_zero.resolve_right (not_not.mpr hz)
    rw [if_pos hz, Pagemap.lookup_of_walk (depth_lt .small) ht (Or.inl rfl)] at hl
    split at hl
    · rename_i hentry
      exact hentry.trans hz.symm
    · cases hl
  · rw [if_neg hz] at hl
    exact (Pagemap.entry_of_lookup (depth_lt ps) ht hl).1

theorem Pagemap.Extends.holds (hext : pm.Extends P st st') (hP : P (idx v 0)) (he : Terminal ps e)
    (h : pm.Holds st v ps e) : pm.Holds st' v ps e := by
  obtain ⟨t, hw, -⟩ := id h
  refine holds_of_lookup ?_ he ((hext.lookup v hP).trans (h.lookup he))
  exact Option.isSome_of_eq_some
    (hext.walk _ (pathTo_mem_paths hP (depth_lt ps)) t hw)

/-- The entry written. -/
theorem Pagemap.Sets.holds_same (hset : pm.Sets P v (depth ps) e st st') (he : Terminal ps e)
    (hw : (pm.walk st' (pathTo v (depth ps))).isSome) : pm.Holds st' v ps e :=
  holds_of_lookup hw he (hset.lookup_same v rfl)

/-- The entries of the other pages. -/
theorem Pagemap.Sets.holds_other (hset : pm.Sets P v (depth ps) e st st') (hP : P (idx w 0))
    (hne : pathTo w (depth ps + 1) ≠ pathTo v (depth ps + 1)) (he' : Terminal ps e')
    (h : pm.Holds st w ps e') : pm.Holds st' w ps e' := by
  obtain ⟨t, hw, -⟩ := id h
  refine holds_of_lookup ?_ he' ((hset.lookup_other w hP hne).trans (h.lookup he'))
  exact Option.isSome_of_eq_some
    (hset.walk _ (pathTo_mem_paths hP (depth_lt ps)) (length_pathTo _ _).le t hw)

/-- `getpte` finds the entry. -/
theorem Pagemap.Wf.getpte_holds (h : pm.Wf st P) (hc : pm.Clear st v (depth ps))
    (hold : pm.Holds st v ps e) :
    ∃ st' t j, pm.getpte v ps false st = .ok (st', .ok (t, j)) ∧ st'.mem t j = e := by
  obtain ⟨t, hw, he⟩ := hold
  obtain ⟨st₁, -, hmem, ⟨t', hw', hget⟩ | ⟨hw', -⟩⟩ := h.getpte_walk ps hc
  · obtain rfl : t' = t := Option.some.inj (hw'.symm.trans hw)
    exact ⟨st₁, t', _, hget, by rw [hmem, he]⟩
  · rw [show pm.walk st (pathTo v (depth ps)) = some t from hw] at hw'
    cases hw'

theorem Pagemap.Wf.entryOf (h : pm.Wf st P) (hc : pm.Clear st v (depth ps))
    (hold : pm.Holds st v ps e) : pm.entryOf st v ps = some e := by
  obtain ⟨st₁, t, j, hget, he⟩ := h.getpte_holds hc hold
  rw [Pagemap.entryOf, hget]
  exact congrArg some he

/-- `translate` reads the address of the entry. -/
theorem Pagemap.Wf.translate {size : PageSize} (h : pm.Wf st P)
    (hc : pm.Clear st v (depth (pm.fixpsize size))) (hold : pm.Holds st v (pm.fixpsize size) e)
    (hv : v % fromPageSize (pm.fixpsize size) = 0) :
    ∃ s, pm.translate v size st =
      .ok (s, if isCanonical (getaddr e) then .ok (getaddr e) else .error .invalidEntry) := by
  obtain ⟨st₁, t, j, hget, he⟩ := h.getpte_holds hc hold
  refine ⟨st₁, ?_⟩
  rw [Pagemap.translate, if_neg (not_not.mpr hv), hget]
  simp only [he]
  cases isCanonical (getaddr e) <;> rfl

end Holds

/-! ## The loops -/

section Loops

variable {pm : Pagemap} {P : ℕ → Prop} {st : Tables} {vaddr length : ℕ} {ps : PageSize}

/-- Everything above the entries of the page size is a table or empty. -/
structure Pagemap.UniformWf (pm : Pagemap) (P : ℕ → Prop) (ps : PageSize) (st : Tables) : Prop where
  wf : pm.Wf st P
  clear : ∀ v, pm.Clear st v (depth ps)

theorem Pagemap.Sets.uniform {v : ℕ} {e : BitVec 64} {st' : Tables} (hP : ∀ v, P (idx v 0))
    (h : pm.UniformWf P ps st) (hset : pm.Sets P v (depth ps) e st st') : pm.UniformWf P ps st' :=
  ⟨hset.wf, fun w => hset.clear w _ (hP w) le_rfl (h.clear w)⟩

/-- `map` writes the entry of every page of the range. -/
theorem Pagemap.UniformWf.map (hpm : pm.FreshTables) (hP : ∀ v, P (idx v 0))
    (h : pm.UniformWf P ps st) (hv : vaddr % fromPageSize ps = 0) (hlen : length ≤ 2 ^ 48)
    {paddr : ℕ} (hpr : paddr + length ≤ 2 ^ 52) (flags : Pflag) (cache : Caching) :
    (∃ st', Returns (fun fuel => forPages (fromPageSize ps) length
        (pm.mapPage fuel vaddr paddr ps (toArch flags cache ps)) fuel 0 st) (st', .ok ()) ∧
      pm.UniformWf P ps st' ∧ ∀ k < turns (fromPageSize ps) length,
        pm.Holds st' (blockAddr vaddr ps k) ps
          (mapEntry (paddr + k * fromPageSize ps) (toArch flags cache ps))) ∨
    Stops (fun fuel => forPages (fromPageSize ps) length
        (pm.mapPage fuel vaddr paddr ps (toArch flags cache ps)) fuel 0 st) .panic := by
  have hpos := fromPageSize_pos ps
  have hle := fromPageSize_le ps
  have hloop := forPages_rule
    (fun fuel => pm.mapPage fuel vaddr paddr ps (toArch flags cache ps))
    (fun k st' => pm.UniformWf P ps st' ∧ ∀ j < k, j * fromPageSize ps < length →
      pm.Holds st' (blockAddr vaddr ps j) ps
        (mapEntry (paddr + j * fromPageSize ps) (toArch flags cache ps)))
    (fun _ _ _ => False) True hpos (by omega : length + fromPageSize ps ≤ 2 ^ 64)
    (fun k st₁ hk ⟨hwf, hold⟩ => ?_) ⟨h, fun j hj => absurd hj (Nat.not_lt_zero j)⟩
  · rcases hloop with ⟨st', hret, hwf, hold⟩ | ⟨-, -, -, -, -, hfalse⟩ | ⟨hpanic, -⟩
    · exact Or.inl ⟨st', hret, hwf, fun k hk => hold k hk ((lt_turns hpos).mp hk)⟩
    · exact hfalse.elim
    · exact Or.inr hpanic
  · rcases hwf.wf.mapPage ps hpm rfl (hP _) (hwf.clear _) flags cache with
      ⟨st₂, hok, hset, htab⟩ | hpanic
    · refine Or.inl ⟨st₂, hok, hset.uniform hP hwf, fun j hj hjl => ?_⟩
      have hpk : (paddr + k * fromPageSize ps) % 2 ^ 64 = paddr + k * fromPageSize ps :=
        Nat.mod_eq_of_lt (by omega)
      rw [hpk] at hset
      rcases Nat.lt_succ_iff_lt_or_eq.mp hj with hj | rfl
      · refine hset.holds_other (hP _) (fun heq => ?_) (.mapEntry _ flags cache ps) (hold j hj hjl)
        exact hj.ne (blockAddr_inj hv (by omega) (by omega) heq)
      · exact hset.holds_same (.mapEntry _ flags cache ps) htab
    · exact Or.inr (Or.inr ⟨hpanic, trivial⟩)

/-- `protect` rewrites the entry of every page of a range that is mapped. -/
theorem Pagemap.UniformWf.protect (hP : ∀ v, P (idx v 0)) (h : pm.UniformWf P ps st)
    (hv : vaddr % fromPageSize ps = 0) (hlen : length ≤ 2 ^ 48) {entry : ℕ → BitVec 64}
    (hentry : ∀ k, Terminal ps (entry k))
    (hold : ∀ k < turns (fromPageSize ps) length, pm.Holds st (blockAddr vaddr ps k) ps (entry k))
    (flags : Pflag) (cache : Caching) :
    ∃ st', Returns (fun fuel => forPages (fromPageSize ps) length
        (pm.protectPage vaddr ps (toArch flags cache ps)) fuel 0 st) (st', .ok ()) ∧
      pm.UniformWf P ps st' ∧ ∀ k < turns (fromPageSize ps) length,
        pm.Holds st' (blockAddr vaddr ps k) ps
          (protectEntry (entry k) (toArch flags cache ps)) := by
  have hpos := fromPageSize_pos ps
  have hle := fromPageSize_le ps
  have hloop := forPages_rule (fun _ => pm.protectPage vaddr ps (toArch flags cache ps))
    (fun k st' => pm.UniformWf P ps st' ∧
      (∀ j < k, j * fromPageSize ps < length → pm.Holds st' (blockAddr vaddr ps j) ps
        (protectEntry (entry j) (toArch flags cache ps))) ∧
      ∀ j, k ≤ j → j * fromPageSize ps < length → pm.Holds st' (blockAddr vaddr ps j) ps (entry j))
    (fun _ _ _ => False) False hpos (by omega : length + fromPageSize ps ≤ 2 ^ 64)
    (fun k st₁ hk ⟨hwf, hdone, htodo⟩ => ?_)
    ⟨h, fun j hj => absurd hj (Nat.not_lt_zero j), fun j _ hj => hold j ((lt_turns hpos).mpr hj)⟩
  · rcases hloop with ⟨st', hret, hwf, hdone, -⟩ | ⟨-, -, -, -, -, hfalse⟩ | ⟨-, hfalse⟩
    · exact ⟨st', hret, hwf, fun k hk => hdone k hk ((lt_turns hpos).mp hk)⟩
    · exact hfalse.elim
    · exact hfalse.elim
  · obtain ⟨t, hw, he⟩ := htodo k le_rfl hk
    rcases hwf.wf.protectPage ps rfl (hP _) (hwf.clear _) flags cache with
      ⟨st₂, t', hw', hok, hset, hwalk⟩ | ⟨st₂, hnone, hext, -⟩
    · obtain rfl : t' = t := Option.some.inj (hw'.symm.trans hw)
      rw [show (vaddr + k * fromPageSize ps) % 2 ^ 64 = blockAddr vaddr ps k from rfl, he] at hset
      -- the other blocks have other entries
      have hother : ∀ j e, j ≠ k → j * fromPageSize ps < length → Terminal ps e →
          pm.Holds st₁ (blockAddr vaddr ps j) ps e → pm.Holds st₂ (blockAddr vaddr ps j) ps e :=
        fun j e hne hj hterm => hset.holds_other (hP _)
          (fun heq => hne (blockAddr_inj hv (by omega) (by omega) heq)) hterm
      refine Or.inl ⟨st₂, fun _ => hok, hset.uniform hP hwf, fun j hj hjl => ?_, fun j hj hjl => ?_⟩
      · rcases Nat.lt_succ_iff_lt_or_eq.mp hj with hj | rfl
        · exact hother j _ hj.ne hjl (.protectEntry _ flags cache ps) (hdone j hj hjl)
        · have hw₂ := hset.walk _ (pathTo_mem_paths (hP _) (depth_lt ps)) (length_pathTo _ _).le _ hw
          exact hset.holds_same (.protectEntry _ flags cache ps) (Option.isSome_of_eq_some hw₂)
      · exact hother j _ (by omega) hjl (hentry j) (htodo j (by omega) hjl)
    · have hpath : pathTo (blockAddr vaddr ps k) (depth ps) ∈ paths P :=
        pathTo_mem_paths (hP _) (depth_lt ps)
      have hsome := hext.walk _ hpath t hw
      rw [show pm.walk st₂ (pathTo (blockAddr vaddr ps k) (depth ps)) = none from hnone] at hsome
      cases hsome

end Loops

/-! ## The empty table -/

theorem Pagemap.UniformWf.of_empty {pm : Pagemap} {st : Tables} (ps : PageSize)
    (h : ∀ j < 512, st.mem pm.table j = 0#64) : pm.UniformWf (· < 512) ps st := by
  have hnil : ∀ p ∈ paths (· < 512), ∀ t, pm.walk st p = some t → p = [] ∧ t = pm.table := by
    rintro (- | ⟨i, p⟩) hp t hw
    · exact ⟨rfl, (Option.some.inj hw).symm⟩
    · rw [Pagemap.walk, Radix.walk, h i (hp.2 i rfl)] at hw
      cases hw
  refine ⟨⟨⟨?_⟩, ?_⟩, fun v => ?_⟩
  · intro p hp q hq t hwp hwq
    rw [(hnil p hp t hwp).1, (hnil q hq t hwq).1]
  · exact fun p hp t hw => Or.inl (hnil p hp t hw).2
  · rw [Pagemap.Clear]
    cases hd : depth ps with
    | zero => trivial
    | succ d =>
        rw [pathTo, List.range_succ_eq_map, List.map_cons]
        exact Or.inl (h _ (idx_lt v 0))

/-- The sizes of pages divide the address space. -/
theorem fromPageSize_dvd (ps : PageSize) : fromPageSize ps ∣ 2 ^ 64 := by
  cases ps <;> decide

theorem blockAddr_mod {vaddr : ℕ} {ps : PageSize} (hv : vaddr % fromPageSize ps = 0) (k : ℕ) :
    blockAddr vaddr ps k % fromPageSize ps = 0 := by
  rw [blockAddr, Nat.mod_mod_of_dvd _ (fromPageSize_dvd ps), Nat.add_mul_mod_self_right, hv]

/-- The pages of a range, by their offset. -/
theorem exists_block {ps : PageSize} {length i : ℕ} (hi : i < length) (hdvd : fromPageSize ps ∣ i) :
    ∃ k < turns (fromPageSize ps) length, i = k * fromPageSize ps := by
  obtain ⟨k, rfl⟩ := hdvd
  rw [Nat.mul_comm] at hi ⊢
  exact ⟨k, (lt_turns (fromPageSize_pos ps)).mpr hi, rfl⟩

section Main

variable {pm : Pagemap} {st : Tables} {vaddr paddr length : ℕ} {size : PageSize}

/-- On an empty table, where memory lasts, `map` writes the entry of every page of the range. -/
theorem Pagemap.map_empty (hpm : pm.FreshTables) (hst : ∀ j < 512, st.mem pm.table j = 0#64)
    (hv : vaddr % fromPageSize (pm.fixpsize size) = 0) (hpr : paddr + length ≤ 2 ^ 47)
    (flags : Pflag) (cache : Caching)
    (hmem : ¬ Stops (fun fuel => pm.map fuel vaddr paddr length flags size cache st) .panic) :
    ∃ st', Returns (fun fuel => pm.map fuel vaddr paddr length flags size cache st) (st', .ok ()) ∧
      pm.UniformWf (· < 512) (pm.fixpsize size) st' ∧
      ∀ k < turns (fromPageSize (pm.fixpsize size)) length,
        pm.Holds st' (blockAddr vaddr (pm.fixpsize size) k) (pm.fixpsize size)
          (mapEntry (paddr + k * fromPageSize (pm.fixpsize size))
            (toArch flags cache (pm.fixpsize size))) := by
  have hmap : ∀ fuel, pm.map fuel vaddr paddr length flags size cache st =
      forPages (fromPageSize (pm.fixpsize size)) length (pm.mapPage fuel vaddr paddr
        (pm.fixpsize size) (toArch flags cache (pm.fixpsize size))) fuel 0 st := by
    intro fuel
    rw [Pagemap.map]
    exact if_neg (not_not.mpr hv)
  simp only [hmap] at hmem ⊢
  exact ((UniformWf.of_empty (pm.fixpsize size) hst).map hpm (idx_lt · 0) hv (by omega) (by omega)
    flags cache).resolve_right hmem

/-- `map`, `translate` and `protect` keep the address and the flags of an entry apart if and only if
the page is small or the caching mode does not set the PAT bit, which the entry of a larger page has
inside the address. -/
theorem separates_iff (hpm : pm.FreshTables) (hst : ∀ j < 512, st.mem pm.table j = 0#64)
    (hv : vaddr % fromPageSize (pm.fixpsize size) = 0)
    (hp : fromPageSize (pm.fixpsize size) ∣ paddr) (hpr : paddr + length ≤ 2 ^ 47)
    (flags : Pflag) (cache : Caching) (flags2 : Pflag) (cache2 : Caching)
    (hmem : ¬ Stops (fun fuel => pm.map fuel vaddr paddr length flags size cache st) .panic)
    (hmem2 : ¬ Stops (fun fuel => pm.map fuel vaddr paddr length flags2 size cache2 st) .panic) :
    pm.Separates st vaddr paddr length size flags cache flags2 cache2 ↔
      length = 0 ∨ pm.fixpsize size = .small ∨ cache.usesPat = false := by
  obtain ⟨st₁, hret₁, hwf₁, hold₁⟩ := Pagemap.map_empty hpm hst hv hpr flags cache hmem
  obtain ⟨st₃, hret₃, hwf₃, hold₃⟩ := Pagemap.map_empty hpm hst hv hpr flags2 cache2 hmem2
  have hpos := fromPageSize_pos (pm.fixpsize size)
  have hpage : 0x1000 ∣ fromPageSize (pm.fixpsize size) := by
    cases pm.fixpsize size <;> decide
  constructor
  · rintro ⟨st₁', -, -, hret₁', htrans, -⟩
    obtain rfl : st₁' = st₁ := congrArg Prod.fst (hret₁'.unique hret₁)
    by_contra hnot
    rw [not_or, not_or, Bool.not_eq_false] at hnot
    obtain ⟨hlen, hsmall, hpat⟩ := hnot
    -- the first page translates to an address with bit 12, which `paddr` does not have
    have hpos' : 0 < length := Nat.pos_of_ne_zero hlen
    obtain ⟨s, hs⟩ := htrans 0 hpos' (Nat.dvd_zero _)
    have hentry := hold₁ 0 ((lt_turns hpos).mpr (by omega))
    rw [Nat.zero_mul, Nat.add_zero] at hentry
    obtain ⟨s', hs'⟩ := hwf₁.wf.translate (hwf₁.clear _) hentry (blockAddr_mod hv 0)
    rw [blockAddr, Nat.zero_mul, hs, Except.ok.injEq, Prod.mk.injEq] at hs'
    have hbit := getaddr_mapEntry_pat paddr flags hsmall hpat
    have haddr : getaddr (mapEntry paddr (toArch flags cache (pm.fixpsize size))) = paddr := by
      have h := hs'.2
      split at h
      · exact (Except.ok.inj h).symm
      · cases h
    have hlarge : 2 ^ 13 ∣ paddr := by
      refine Nat.dvd_trans ?_ hp
      cases hfix : pm.fixpsize size with
      | small => exact absurd hfix hsmall
      | medium => decide
      | large => decide
    rw [haddr, Nat.testBit_eq_decide_div_mod_eq, decide_eq_true_eq] at hbit
    omega
  · intro hcond
    have hturns : ∀ k, k < turns (fromPageSize (pm.fixpsize size)) length →
        (pm.fixpsize size = .small ∨ cache.usesPat = false) := by
      intro k hk
      rw [lt_turns hpos] at hk
      exact hcond.resolve_left (by omega)
    obtain ⟨st₂, hret₂, hwf₂, hold₂⟩ := hwf₁.protect (idx_lt · 0) hv (by omega : length ≤ 2 ^ 48)
      (fun k => .mapEntry _ flags cache (pm.fixpsize size)) hold₁ flags2 cache2
    have hprotect : ∀ fuel, pm.protect fuel vaddr length flags2 size cache2 st₁ =
        forPages (fromPageSize (pm.fixpsize size)) length (pm.protectPage vaddr (pm.fixpsize size)
          (toArch flags2 cache2 (pm.fixpsize size))) fuel 0 st₁ := by
      intro fuel
      rw [Pagemap.protect]
      exact if_neg (not_not.mpr hv)
    refine ⟨st₁, st₂, st₃, hret₁, fun i hi hdvd => ?_, by simpa only [hprotect] using hret₂, hret₃,
      fun i hi hdvd => ?_⟩
    · obtain ⟨k, hk, rfl⟩ := exists_block hi hdvd
      obtain ⟨s, hs⟩ := hwf₁.wf.translate (hwf₁.clear _) (hold₁ k hk)
        (blockAddr_mod hv k)
      have haligned : 0x1000 ∣ paddr + k * fromPageSize (pm.fixpsize size) :=
        hpage.trans (Nat.dvd_add hp (Nat.dvd_mul_left _ _))
      have haddr := getaddr_mk haligned (by omega) (toArch_paMask_zero flags (hturns k hk))
      rw [mapEntry, haddr, if_pos (isCanonical_of_lt (by omega))] at hs
      exact ⟨s, hs⟩
    · obtain ⟨k, hk, rfl⟩ := exists_block hi hdvd
      have h₂ := hold₂ k hk
      rw [protectEntry_mapEntry (toArch_paMask_zero flags (hturns k hk))] at h₂
      exact ⟨_, hwf₂.wf.entryOf (hwf₂.clear _) h₂, hwf₃.wf.entryOf (hwf₃.clear _) (hold₃ k hk)⟩

end Main

theorem separates_iff_writeBack :
    exampleMachine.Separates Tables.empty 0x400000 0x200000 0x200000 .medium Pflag.rw .writeBack
        Pflag.rw .writeThrough ↔
      0x200000 = 0 ∨ exampleMachine.fixpsize .medium = .small ∨ Caching.writeBack.usesPat = false := by
  refine separates_iff exampleMachine_freshTables (fun j _ => rfl) (by decide) (by decide) (by decide)
    Pflag.rw .writeBack Pflag.rw .writeThrough ?_ ?_
  · exact Returns.not_stops ⟨2, fun fuel hfuel => by
      obtain ⟨m, rfl⟩ := Nat.exists_eq_add_of_le' hfuel
      rfl⟩
  · exact Returns.not_stops ⟨2, fun fuel hfuel => by
      obtain ⟨m, rfl⟩ := Nat.exists_eq_add_of_le' hfuel
      rfl⟩

/-- A page of 2 MiB mapped to `0x200000` with write combining translates to `0x201000`. -/
theorem not_separates_writeCombining :
    ¬ exampleMachine.Separates Tables.empty 0x400000 0x200000 0x200000 .medium Pflag.rw
      .writeCombining Pflag.rw .writeBack := by
  rintro ⟨st₁, -, -, ⟨N, hN⟩, htrans, -⟩
  have hrun : ∀ n, (exampleMachine.map (n + 2) 0x400000 0x200000 0x200000 Pflag.rw .medium
      .writeCombining Tables.empty >>= fun r =>
        exampleMachine.translate 0x400000 .medium r.1).toOption.bind (fun r => r.2.toOption) =
      some 0x201000 := fun _ => rfl
  obtain ⟨s, hs⟩ := htrans 0 (by decide) (Nat.dvd_zero _)
  have h := hrun N
  have hmap := hN (N + 2) (Nat.le_add_right N 2)
  dsimp only at hmap
  rw [hmap] at h
  change (exampleMachine.translate ((0x400000 + 0) % 2 ^ 64) .medium st₁).toOption.bind
    (fun r => r.2.toOption) = _ at h
  rw [hs] at h
  cases h

end Ilobilix.Vmm
