import Ilobilix.Memory.Pagemap.Refinement

/-!
# Page maps with mixed page sizes

A page of 2 MiB or 1 GiB is an entry above the last level with the page size bit. `getlvl` does not look
at that bit: it follows the entry of a large page as if the page were a table, and `map` then writes
page table entries into memory that is mapped as data. `vmm::init` does this on a memory map with an
entry of more than 2 MiB next to a small one (`init_follows_leaf`).

`mixed_pages_safe` is about the runs in which no call meets a larger page on its way, in which `map` is
given addresses that are aligned to the page size, and in which `protect` rewrites pages of its own size
only. There the hardware walk of every address finds the frame mapped last.
-/

namespace Ilobilix.Vmm

/-! ## Blocks of pages -/

/-- The number of pages of the address space. -/
def allPages : ℕ := 2 ^ 36

/-- The size of the block that an entry at depth `d` decides about. -/
def blockSize (d : ℕ) : ℕ := 2 ^ (39 - 9 * d)

theorem fromPageSize_eq (ps : PageSize) : fromPageSize ps = blockSize (depth ps) := by
  cases ps <;> decide

theorem blockSize_succ {d : ℕ} (hd : d + 1 < levels) : blockSize d = blockSize (d + 1) * 512 := by
  simp only [levels] at hd
  rw [blockSize, blockSize, show 39 - 9 * d = 39 - 9 * (d + 1) + 9 by omega, Nat.pow_add]

/-- An index is a digit of the address. -/
theorem idx_eq_block (v : ℕ) {d : ℕ} (hd : d < levels) :
    idx v d = v % 2 ^ 48 / blockSize d % 512 := by
  simp only [levels] at hd
  have hpow : 2 ^ 48 = 2 ^ (39 - 9 * d) * 2 ^ (9 * d + 9) := by
    rw [← Nat.pow_add]
    congr 1
    omega
  have hdvd : 512 ∣ 2 ^ (9 * d + 9) := pow_dvd_pow 2 (Nat.le_add_left 9 (9 * d))
  rw [idx_eq, blockSize, hpow, Nat.mod_mul_right_div_self, Nat.mod_mod_of_dvd _ hdvd]

/-- Two addresses share an entry at depth `d` if they lie in the same block. -/
theorem pathTo_eq_iff (v w : ℕ) {d : ℕ} (hd : d < levels) :
    pathTo v (d + 1) = pathTo w (d + 1) ↔
      v % 2 ^ 48 / blockSize d = w % 2 ^ 48 / blockSize d := by
  induction d with
  | zero =>
      have hlt : ∀ u, u % 2 ^ 48 / blockSize 0 < 512 := fun u =>
        Nat.div_lt_of_lt_mul (Nat.mod_lt u (by decide))
      rw [pathTo_succ v, pathTo_succ w, List.append_singleton_inj, idx_eq_block v hd, idx_eq_block w hd,
        Nat.mod_eq_of_lt (hlt v), Nat.mod_eq_of_lt (hlt w)]
      exact and_iff_right rfl
  | succ d ih =>
      have hdiv : ∀ u, u % 2 ^ 48 / blockSize d = u % 2 ^ 48 / blockSize (d + 1) / 512 := fun u => by
        rw [blockSize_succ hd, Nat.div_div_eq_div_mul]
      rw [pathTo_succ v, pathTo_succ w, List.append_singleton_inj, ih (Nat.lt_of_succ_lt hd),
        hdiv, hdiv, idx_eq_block v hd, idx_eq_block w hd]
      omega

/-- The number of pages from the page of `vaddr` up to the page `x`, around the address space. -/
def pageOffset (vaddr x : ℕ) : ℕ := (x + allPages - vaddr / psize % allPages) % allPages

/-- The number of small pages of a page. -/
def pagesOf (ps : PageSize) : ℕ := fromPageSize ps / psize

/-- A turn by `a` and the turn back. -/
theorem eq_turn_iff {n q k : ℕ} (a : ℕ) (hq : q < n) (hk : k < n) :
    q = (a + k) % n ↔ (q + (n - a % n)) % n = k := by
  have ha : a % n < n := Nat.mod_lt _ (Nat.zero_lt_of_lt hq)
  rw [← Nat.mod_add_mod]
  generalize a % n = b at ha ⊢
  have hforth : (b + k) % n = if b + k < n then b + k else b + k - n := by
    split
    · exact Nat.mod_eq_of_lt ‹_›
    · rw [Nat.mod_eq_sub_mod (Nat.le_of_not_lt ‹_›)]
      exact Nat.mod_eq_of_lt (by omega)
  have hback : (q + (n - b)) % n = if q < b then q + (n - b) else q - b := by
    split
    · exact Nat.mod_eq_of_lt (by omega)
    · rw [Nat.mod_eq_sub_mod (by omega), show q + (n - b) - n = q - b by omega]
      exact Nat.mod_eq_of_lt (by omega)
  rw [hforth, hback]
  split <;> split <;> omega

/-- The pages of the `k`-th block of a range. -/
theorem sameBlock_iff {vaddr x k : ℕ} (ps : PageSize) (hx : x < allPages)
    (hv : vaddr % fromPageSize ps = 0) (hk : k * fromPageSize ps < 2 ^ 48) :
    pathTo (x * psize) (depth ps + 1) =
      pathTo ((vaddr + k * fromPageSize ps) % 2 ^ 64) (depth ps + 1) ↔
      pageOffset vaddr x / pagesOf ps = k := by
  obtain ⟨n, p, hp, hsize, hpages, hall⟩ : ∃ n p, 0 < p ∧ fromPageSize ps = psize * p ∧
      pagesOf ps = p ∧ allPages = p * n := by
    cases ps
    · exact ⟨2 ^ 36, 1, by decide, by decide, by decide, by decide⟩
    · exact ⟨2 ^ 27, 2 ^ 9, by decide, by decide, by decide, by decide⟩
    · exact ⟨2 ^ 18, 2 ^ 18, by decide, by decide, by decide, by decide⟩
  have hspace : 2 ^ 48 = psize * p * n := by
    rw [Nat.mul_assoc, ← hall]
    rfl
  have hpos : 0 < psize * p := Nat.mul_pos (by decide) hp
  obtain ⟨a, rfl⟩ : fromPageSize ps ∣ vaddr := Nat.dvd_of_mod_eq_zero hv
  rw [pathTo_eq_iff _ _ (depth_lt ps), ← fromPageSize_eq, Nat.mod_mod_of_dvd _ (by decide : 2 ^ 48 ∣ 2 ^ 64),
    pageOffset, hpages, hsize, hall, hspace]
  rw [hsize, hspace, Nat.mul_comm k] at hk
  rw [hall] at hx
  have hkn : k < n := Nat.lt_of_mul_lt_mul_left hk
  have hqn : x / p < n := Nat.div_lt_of_lt_mul hx
  have hpage : x * psize % (psize * p * n) / (psize * p) = x / p := by
    rw [Nat.mod_mul_right_div_self, Nat.mul_comm x, Nat.mul_div_mul_left _ _ (by decide), Nat.mod_eq_of_lt hqn]
  have hblock : (psize * p * a + k * (psize * p)) % (psize * p * n) / (psize * p) = (a + k) % n := by
    rw [Nat.mod_mul_right_div_self, Nat.mul_comm k, ← Nat.mul_add, Nat.mul_div_cancel_left _ hpos]
  have hstart : psize * p * a / psize % (p * n) = p * (a % n) := by
    rw [Nat.mul_assoc, Nat.mul_div_cancel_left _ (by decide), Nat.mul_mod_mul_left]
  have hoffset : (x + p * n - psize * p * a / psize % (p * n)) % (p * n) / p =
      (x / p + (n - a % n)) % n := by
    have ha : a % n ≤ n := (Nat.mod_lt _ (Nat.zero_lt_of_lt hqn)).le
    rw [hstart, Nat.mod_mul_right_div_self, Nat.add_sub_assoc (Nat.mul_le_mul_left p ha), ← Nat.mul_sub,
      Nat.add_mul_div_left _ _ hp]
  rw [hpage, hblock, hoffset]
  exact eq_turn_iff a hqn hkn

/-- Where a page lies in the block that it shares with others. -/
theorem offset_in_block {vaddr x : ℕ} (ps : PageSize) (hv : vaddr % fromPageSize ps = 0) :
    pageOffset vaddr x * psize = pageOffset vaddr x / pagesOf ps * fromPageSize ps +
      x * psize % fromPageSize ps := by
  cases ps <;> simp only [fromPageSize, Lib.kib, Lib.mib, Lib.gib, pageOffset, pagesOf, psize,
    allPages, Nat.reduceMul, Nat.reduceMod, Nat.reduceDiv, Nat.reducePow] at * <;> omega

/-! ## The hardware walk -/

/-- The walk of the memory management unit from a table of depth `i` on, with the levels left: the
physical address of the small page that contains `v`. -/
def hwWalkFrom (mem : ℕ → ℕ → BitVec 64) (v : ℕ) : ℕ → ℕ → ℕ → Option ℕ
  | 0, _, _ => none
  | left + 1, i, t =>
      let e := mem t (idx v i)
      if !isPresent e then none
      else if left = 0 then some (getaddr e)
      else if isLeaf e then
        if i = 0 then none
        else some (getaddr e / blockSize i * blockSize i + v % blockSize i / psize * psize)
      else hwWalkFrom mem v left (i + 1) (getaddr e)

/-- The hardware walk of the page `x`. -/
def Pagemap.hwWalk (pm : Pagemap) (st : Tables) (x : ℕ) : Option ℕ :=
  hwWalkFrom st.mem (x * psize) levels 0 pm.table

/-- The frame of the page `x` in the block of an entry with `n` levels below it. -/
def leafFrame (x n : ℕ) (e : BitVec 64) : ℕ :=
  getaddr e / 2 ^ (12 + 9 * n) * 2 ^ (12 + 9 * n) + x * psize % 2 ^ (12 + 9 * n)

/-- An entry that the hardware walk can end at: empty, of the last level, or a large page. -/
def LeafEntry (rest : List ℕ) (e : BitVec 64) : Prop :=
  e = 0#64 ∨ rest = [] ∨ (rest.length ≤ 2 ∧ isLeaf e = true)

private theorem page_in_block {x n : ℕ} (hn : n ≤ 2) :
    x * psize % 2 ^ (12 + 9 * n) / psize * psize = x * psize % 2 ^ (12 + 9 * n) := by
  have hn' : n = 0 ∨ n = 1 ∨ n = 2 := by omega
  rcases hn' with rfl | rfl | rfl <;> simp only [psize] <;> omega

/-- At the last level the frame is the address of the entry. -/
theorem leafFrame_zero (x : ℕ) (e : BitVec 64) : leafFrame x 0 e = getaddr e := by
  have := getaddr_mod e
  simp only [leafFrame, psize, Nat.mul_zero, Nat.add_zero]
  omega

/-- The hardware walk ends at the entry that decides about the address. -/
private theorem hwWalkFrom_slot {mem : ℕ → ℕ → BitVec 64} {x : ℕ} {rest : List ℕ} {e : BitVec 64}
    (he : LeafEntry rest e) : ∀ {left i t}, i + left = levels →
      Radix.slot tableOf mem t ((List.range' i left).map (idx (x * psize))) = some (rest, e) →
      hwWalkFrom mem (x * psize) left i t =
        if isPresent e then some (leafFrame x rest.length e) else none := by
  intro left
  induction left with
  | zero => exact fun _ h => by cases h
  | succ left ih =>
      intro i t hi h
      rw [hwWalkFrom]
      cases left with
      | zero =>
          rw [List.range'_succ, List.range'_zero, List.map_singleton, Radix.slot, Option.some.injEq,
            Prod.mk.injEq] at h
          obtain ⟨rfl, rfl⟩ := h
          rw [List.length_nil, leafFrame_zero]
          cases isPresent (mem t (idx (x * psize) i)) <;> rfl
      | succ left =>
          rw [List.range'_succ, List.range'_succ, List.map_cons, List.map_cons, Radix.slot,
            ← List.map_cons, ← List.range'_succ] at h
          cases ht : tableOf (mem t (idx (x * psize) i)) with
          | some t' =>
              rw [ht] at h
              obtain ⟨hcond, haddr, hleaf⟩ := tableOf_eq_some ht
              rw [getflags_valid, Bool.and_eq_true] at hcond
              rw [hcond.1, hleaf, haddr]
              exact ih (by omega) h
          | none =>
              rw [ht, Option.some.injEq, Prod.mk.injEq] at h
              obtain ⟨hrest, hentry⟩ := h
              have hlen : rest.length = left + 1 := by
                rw [← hrest, List.length_map, List.length_range']
              rw [hentry]
              rcases he with rfl | rfl | ⟨hle, hleaf⟩
              · rfl
              · cases hrest
              · have hi' : i ≠ 0 := by
                  simp only [levels] at hi
                  omega
                have hsize : blockSize i = 2 ^ (12 + 9 * rest.length) := by
                  rw [blockSize]
                  congr 1
                  simp only [levels] at hi
                  omega
                rw [hleaf, hsize, page_in_block hle, if_neg hi', leafFrame]
                cases isPresent e <;> rfl

/-! ## The abstract map -/

/-- The frame mapped last at each page, and whether the page may be read. -/
def HwMap : Type := ℕ → Option (ℕ × Bool)

/-- What the hardware finds: pages that may not be read are not present. -/
def HwMap.visible (m : HwMap) (x : ℕ) : Option ℕ := ((m x).filter fun e => e.2).map Prod.fst

/-- The tables stand for the abstract map. -/
structure Pagemap.HwRefines (pm : Pagemap) (st : Tables) (m : HwMap) : Prop where
  wf : pm.Wf st fun _ => True
  leaf : ∀ x < allPages, ∀ rest e, pm.lookup st (x * psize) = some (rest, e) →
    LeafEntry rest e ∧ m x = some (leafFrame x rest.length e, isPresent e)
  hole : ∀ x < allPages, pm.lookup st (x * psize) = none → ∀ f, m x ≠ some (f, true)

/-- The hardware walk finds the frame mapped last. -/
theorem Pagemap.HwRefines.hwWalk {pm : Pagemap} {st : Tables} {m : HwMap} (h : pm.HwRefines st m)
    {x : ℕ} (hx : x < allPages) : pm.hwWalk st x = m.visible x := by
  have hpath : pathTo (x * psize) levels = (List.range' 0 levels).map (idx (x * psize)) := rfl
  obtain ⟨⟨rest, e⟩, hslot⟩ : ∃ s, Radix.slot tableOf st.mem pm.table (pathTo (x * psize) levels) =
      some s := Radix.exists_slot (by simp [pathTo, levels])
  by_cases he : e = 0#64
  · have hnone : pm.lookup st (x * psize) = none := by
      rw [Pagemap.lookup, Radix.lookup, hslot]
      simp [Option.filter, he]
    rw [Pagemap.hwWalk, hwWalkFrom_slot (Or.inl he) rfl (hpath ▸ hslot), he]
    have hvis : m.visible x = none := by
      rw [HwMap.visible]
      rcases hm : m x with - | ⟨f, - | -⟩
      · rfl
      · rfl
      · exact absurd hm (h.hole x hx hnone f)
    rw [hvis]
    rfl
  · have hsome : pm.lookup st (x * psize) = some (rest, e) := by
      rw [Pagemap.lookup, Radix.lookup, hslot]
      simp [Option.filter, he]
    obtain ⟨hleaf, hm⟩ := h.leaf x hx rest e hsome
    rw [Pagemap.hwWalk, hwWalkFrom_slot hleaf rfl (hpath ▸ hslot), HwMap.visible, hm]
    cases isPresent e <;> rfl

namespace HwMap

/-- `n` pages from the one of `vaddr` on are mapped to the frames from `paddr` on. -/
def mapRange (m : HwMap) (vaddr n paddr : ℕ) (read : Bool) : HwMap := fun x =>
  if pageOffset vaddr x < n then some (paddr + pageOffset vaddr x * psize, read) else m x

/-- `n` pages from the one of `vaddr` on are unmapped. -/
def unmapRange (m : HwMap) (vaddr n : ℕ) : HwMap := fun x =>
  if pageOffset vaddr x < n then none else m x

/-- `n` pages from the one of `vaddr` on are made readable or unreadable. -/
def protectRange (m : HwMap) (vaddr n : ℕ) (read : Bool) : HwMap := fun x =>
  if pageOffset vaddr x < n then (m x).map fun e => (e.1, read) else m x

theorem mapRange_zero (m : HwMap) (vaddr paddr : ℕ) (read : Bool) :
    m.mapRange vaddr 0 paddr read = m :=
  funext fun _ => if_neg (Nat.not_lt_zero _)

theorem unmapRange_zero (m : HwMap) (vaddr : ℕ) : m.unmapRange vaddr 0 = m :=
  funext fun _ => if_neg (Nat.not_lt_zero _)

theorem protectRange_zero (m : HwMap) (vaddr : ℕ) (read : Bool) : m.protectRange vaddr 0 read = m :=
  funext fun _ => if_neg (Nat.not_lt_zero _)

end HwMap

/-! ## Blocks of a range -/

section Blocks

variable {pm : Pagemap} {st st' : Tables} {m m' : HwMap} {vaddr length k x : ℕ} {ps : PageSize}
  {e : BitVec 64}

/-- The address of the `k`-th block of a range. -/
def blockAddr (vaddr : ℕ) (ps : PageSize) (k : ℕ) : ℕ := (vaddr + k * fromPageSize ps) % 2 ^ 64

theorem blockSize_eq (ps : PageSize) : 2 ^ (12 + 9 * ps.toNat) = fromPageSize ps := by
  cases ps <;> decide

theorem length_drop_depth (v : ℕ) (ps : PageSize) :
    ((pathTo v levels).drop (depth ps + 1)).length = ps.toNat := by
  rw [List.length_drop, length_pathTo]
  cases ps <;> decide

/-- The first `k` blocks and the `k`-th one. -/
theorem lt_succ_blocks (ps : PageSize) (o k : ℕ) :
    o < (k + 1) * pagesOf ps ↔ o < k * pagesOf ps ∨ o / pagesOf ps = k := by
  have hpos : 0 < pagesOf ps := by cases ps <;> decide
  rw [← Nat.div_lt_iff_lt_mul hpos, ← Nat.div_lt_iff_lt_mul hpos]
  omega

/-- Setting the entry of one block. -/
theorem Pagemap.HwRefines.sets (h : pm.HwRefines st m)
    (hset : pm.Sets (fun _ => True) (blockAddr vaddr ps k) (depth ps) e st st')
    (hv : vaddr % fromPageSize ps = 0) (hk : k * fromPageSize ps < 2 ^ 48)
    (hleaf : e = 0#64 ∨ ps = .small ∨ isLeaf e = true)
    (hin : ∀ x < allPages, pageOffset vaddr x / pagesOf ps = k → e ≠ 0#64 →
      m' x = some (leafFrame x ps.toNat e, isPresent e))
    (hzero : ∀ x < allPages, pageOffset vaddr x / pagesOf ps = k → e = 0#64 →
      ∀ f, m' x ≠ some (f, true))
    (hout : ∀ x < allPages, pageOffset vaddr x / pagesOf ps ≠ k → m' x = m x) :
    pm.HwRefines st' m' := by
  have hblock : ∀ x < allPages, _ := fun x hx => sameBlock_iff (k := k) ps hx hv hk
  refine ⟨hset.wf, fun x hx rest e' hl => ?_, fun x hx hl => ?_⟩
  · by_cases hb : pageOffset vaddr x / pagesOf ps = k
    · rw [hset.lookup_same _ ((hblock x hx).mpr hb)] at hl
      split at hl
      · cases hl
      · rename_i hne
        obtain ⟨rfl, rfl⟩ := Prod.mk.inj (Option.some.inj hl)
        have hlen := length_drop_depth (x * psize) ps
        refine ⟨?_, by rw [hlen]; exact hin x hx hb hne⟩
        rcases hleaf with hz | rfl | hleaf
        · exact Or.inl hz
        · exact Or.inr (Or.inl (List.eq_nil_of_length_eq_zero hlen))
        · refine Or.inr (Or.inr ⟨?_, hleaf⟩)
          rw [hlen]
          cases ps <;> decide
    · rw [hset.lookup_other _ trivial (fun heq => hb ((hblock x hx).mp heq))] at hl
      rw [hout x hx hb]
      exact h.leaf x hx rest e' hl
  · by_cases hb : pageOffset vaddr x / pagesOf ps = k
    · rw [hset.lookup_same _ ((hblock x hx).mpr hb)] at hl
      split at hl
      · rename_i hz
        exact hzero x hx hb hz
      · cases hl
    · rw [hset.lookup_other _ trivial (fun heq => hb ((hblock x hx).mp heq))] at hl
      rw [hout x hx hb]
      exact h.hole x hx hl

theorem Pagemap.HwRefines.extends (h : pm.HwRefines st m)
    (hext : pm.Extends (fun _ => True) st st') : pm.HwRefines st' m :=
  ⟨hext.wf, fun x hx rest e hl => h.leaf x hx rest e (hext.lookup _ trivial ▸ hl),
    fun x hx hl => h.hole x hx (hext.lookup _ trivial ▸ hl)⟩

/-- Flags do not change the frame of a page. -/
theorem leafFrame_setflags (x : ℕ) (value : BitVec 64) (flags : Pflag) (cache : Caching)
    (ps : PageSize) :
    leafFrame x ps.toNat (setflags value (toArch flags cache ps)) = leafFrame x ps.toNat value := by
  by_cases hsmall : ps = .small
  · subst hsmall
    rw [leafFrame, getaddr_setflags (toArch_small_paMask flags cache), leafFrame]
  · have hshift : getaddr (toArch flags cache ps) >>> (12 + 9 * ps.toNat) = 0 := by
      have h21 := toArch_shiftRight flags cache hsmall
      have hge : 12 + 9 * ps.toNat = 21 + (9 * ps.toNat - 9) := by
        cases ps with
        | small => exact absurd rfl hsmall
        | medium => rfl
        | large => rfl
      rw [hge, Nat.shiftRight_add, h21, Nat.zero_shiftRight]
    have hdiv := getaddr_setflags_shiftRight value hshift
    rw [Nat.shiftRight_eq_div_pow, Nat.shiftRight_eq_div_pow] at hdiv
    rw [leafFrame, hdiv, leafFrame]

theorem leafFrame_mapEntry (x : ℕ) {paddr : ℕ} (flags : Pflag) (cache : Caching)
    (hp : fromPageSize ps ∣ paddr) (hlt : paddr < 2 ^ 52) :
    leafFrame x ps.toNat (mapEntry paddr (toArch flags cache ps)) =
      paddr + x * psize % fromPageSize ps := by
  have hdvd : 0x1000 ∣ paddr := Nat.dvd_trans (by cases ps <;> decide) hp
  rw [mapEntry, leafFrame_setflags, leafFrame, blockSize_eq, getaddr_setaddr,
    getaddr_ofNat hdvd hlt, Nat.div_mul_cancel hp]

theorem leafFrame_protectEntry (x : ℕ) (e : BitVec 64) (flags : Pflag) (cache : Caching) :
    leafFrame x ps.toNat (protectEntry e (toArch flags cache ps)) = leafFrame x ps.toNat e := by
  rw [protectEntry, leafFrame_setflags, leafFrame, getaddr_clearflags, leafFrame]

end Blocks

/-! ## The operations -/

section Operations

variable {pm : Pagemap} {st : Tables} {m : HwMap} {vaddr length : ℕ} {ps : PageSize}

/-- No larger page lies on the way to a page of the range. -/
def Pagemap.ClearRange (pm : Pagemap) (st : Tables) (vaddr length : ℕ) (ps : PageSize) : Prop :=
  ∀ k < turns (fromPageSize ps) length, pm.Clear st (blockAddr vaddr ps k) (depth ps)

/-- Where `protect` finds an entry, it is one of a page of its own size. -/
def Pagemap.MappedRange (pm : Pagemap) (st : Tables) (vaddr length : ℕ) (ps : PageSize) : Prop :=
  ∀ k < turns (fromPageSize ps) length,
    pm.walk st (pathTo (blockAddr vaddr ps k) (depth ps)) = none ∨
    ∃ e, pm.lookup st (blockAddr vaddr ps k) =
      some ((pathTo (blockAddr vaddr ps k) levels).drop (depth ps + 1), e)

theorem fromPageSize_pos (ps : PageSize) : 0 < fromPageSize ps := by
  cases ps <;> decide

theorem fromPageSize_le (ps : PageSize) : fromPageSize ps ≤ 2 ^ 30 := by
  cases ps <;> decide

theorem Pagemap.HwRefines.map (hpm : pm.FreshTables) (h : pm.HwRefines st m)
    (hv : vaddr % fromPageSize ps = 0) (hlen : length ≤ 2 ^ 48) {paddr : ℕ}
    (hp : fromPageSize ps ∣ paddr) (hpr : paddr + length ≤ 2 ^ 52)
    (hc : pm.ClearRange st vaddr length ps) (flags : Pflag) (cache : Caching) :
    (∃ st', Returns (fun fuel => forPages (fromPageSize ps) length
        (pm.mapPage fuel vaddr paddr ps (toArch flags cache ps)) fuel 0 st) (st', .ok ()) ∧
      pm.HwRefines st'
        (m.mapRange vaddr (turns (fromPageSize ps) length * pagesOf ps) paddr flags.read) ∧
      pm.Logs st st') ∨
    Stops (fun fuel => forPages (fromPageSize ps) length
        (pm.mapPage fuel vaddr paddr ps (toArch flags cache ps)) fuel 0 st) .panic := by
  have hpos := fromPageSize_pos ps
  have hle := fromPageSize_le ps
  have hloop := forPages_rule
    (fun fuel => pm.mapPage fuel vaddr paddr ps (toArch flags cache ps))
    (fun k st' => pm.HwRefines st' (m.mapRange vaddr (k * pagesOf ps) paddr flags.read) ∧
      pm.Logs st st' ∧ pm.ClearRange st' vaddr length ps)
    (fun _ _ _ => False) True hpos (by omega : length + fromPageSize ps ≤ 2 ^ 64)
    (fun k st₁ hk ⟨href, hlogs, hclear⟩ => ?_)
    ⟨by rw [Nat.zero_mul, HwMap.mapRange_zero]; exact h, .refl pm st, hc⟩
  · rcases hloop with ⟨st', hret, href, hlogs, -⟩ | ⟨-, -, -, -, -, hfalse⟩ | ⟨hpanic, -⟩
    · exact Or.inl ⟨st', hret, href, hlogs⟩
    · exact hfalse.elim
    · exact Or.inr hpanic
  · rcases href.wf.mapPage ps hpm rfl trivial (hclear k ((lt_turns hpos).mpr hk)) flags cache with
      ⟨st₂, hok, hset, -⟩ | hpanic
    · refine Or.inl ⟨st₂, hok, ?_, hlogs.trans hset.logs,
        fun j hj => hset.clear _ _ trivial le_rfl (hclear j hj)⟩
      have hpk : (paddr + k * fromPageSize ps) % 2 ^ 64 = paddr + k * fromPageSize ps :=
        Nat.mod_eq_of_lt (by omega)
      rw [hpk] at hset
      refine href.sets hset hv (by omega) ?_ ?_ ?_ ?_
      · by_cases hsmall : ps = .small
        · exact Or.inr (Or.inl hsmall)
        · refine Or.inr (Or.inr ?_)
          rw [isLeaf, mapEntry, getLsbD_mk _ _ rfl, toArch_lpages flags cache hsmall]
      · intro x hx hb _
        rw [HwMap.mapRange, if_pos ((lt_succ_blocks ps _ k).mpr (Or.inr hb)),
          leafFrame_mapEntry x flags cache (Nat.dvd_add hp (Nat.dvd_mul_left _ _)) (by omega),
          offset_in_block ps hv, hb, ← Nat.add_assoc, isPresent, mapEntry, getLsbD_mk _ _ rfl,
          toArch_present]
      · intro x hx hb hz f hf
        rw [HwMap.mapRange, if_pos ((lt_succ_blocks ps _ k).mpr (Or.inr hb))] at hf
        have hread := toArch_present flags cache ps
        rw [← getLsbD_mk (paddr + k * fromPageSize ps) _ (i := 0) rfl, ← mapEntry, hz] at hread
        have := (Prod.mk.inj (Option.some.inj hf)).2
        rw [← hread] at this
        cases this
      · intro x hx hb
        rw [HwMap.mapRange, HwMap.mapRange]
        refine if_congr ?_ rfl rfl
        rw [lt_succ_blocks]
        exact or_iff_left hb
    · exact Or.inr (Or.inr ⟨hpanic, trivial⟩)

theorem Pagemap.HwRefines.unmap (h : pm.HwRefines st m) (hv : vaddr % fromPageSize ps = 0)
    (hlen : length ≤ 2 ^ 48) (hc : pm.ClearRange st vaddr length ps) :
    ∃ st', Returns (fun fuel => forPages (fromPageSize ps) length (pm.unmapPage vaddr ps) fuel 0 st)
        (st', .ok ()) ∧
      pm.HwRefines st' (m.unmapRange vaddr (turns (fromPageSize ps) length * pagesOf ps)) ∧
      pm.Logs st st' := by
  have hpos := fromPageSize_pos ps
  have hle := fromPageSize_le ps
  have hloop := forPages_rule (fun _ => pm.unmapPage vaddr ps)
    (fun k st' => pm.HwRefines st' (m.unmapRange vaddr (k * pagesOf ps)) ∧
      pm.Logs st st' ∧ pm.ClearRange st' vaddr length ps)
    (fun _ _ _ => False) False hpos (by omega : length + fromPageSize ps ≤ 2 ^ 64)
    (fun k st₁ hk ⟨href, hlogs, hclear⟩ => ?_)
    ⟨by rw [Nat.zero_mul, HwMap.unmapRange_zero]; exact h, .refl pm st, hc⟩
  · rcases hloop with ⟨st', hret, href, hlogs, -⟩ | ⟨-, -, -, -, -, hfalse⟩ | ⟨-, hfalse⟩
    · exact ⟨st', hret, href, hlogs⟩
    · exact hfalse.elim
    · exact hfalse.elim
  · obtain ⟨st₂, hok, hset⟩ :=
      href.wf.unmapPage ps rfl trivial (hclear k ((lt_turns hpos).mpr hk))
    refine Or.inl ⟨st₂, fun _ => hok, ?_, hlogs.trans hset.logs,
      fun j hj => hset.clear _ _ trivial le_rfl (hclear j hj)⟩
    refine href.sets hset hv (by omega) (Or.inl rfl) (fun _ _ _ hne => absurd rfl hne) ?_ ?_
    · intro x hx hb _ f hf
      rw [HwMap.unmapRange, if_pos ((lt_succ_blocks ps _ k).mpr (Or.inr hb))] at hf
      cases hf
    · intro x hx hb
      rw [HwMap.unmapRange, HwMap.unmapRange]
      refine if_congr ?_ rfl rfl
      rw [lt_succ_blocks]
      exact or_iff_left hb

/-- The blocks of a range that is not longer than the address space are different ones. -/
theorem blockAddr_inj {j k : ℕ} (hv : vaddr % fromPageSize ps = 0)
    (hj : j * fromPageSize ps < 2 ^ 48) (hk : k * fromPageSize ps < 2 ^ 48)
    (h : pathTo (blockAddr vaddr ps j) (depth ps + 1) = pathTo (blockAddr vaddr ps k) (depth ps + 1)) :
    j = k := by
  rw [pathTo_eq_iff _ _ (depth_lt ps)] at h
  cases ps <;> simp only [blockAddr, fromPageSize, Lib.kib, Lib.mib, Lib.gib, depth, blockSize,
    levels, PageSize.toNat, Nat.reduceMul, Nat.reduceMod, Nat.reduceSub, Nat.reducePow] at * <;>
    omega

/-- One block of `protect`. -/
private theorem Pagemap.HwRefines.protectBlock {k t : ℕ} {st' : Tables} (h : pm.HwRefines st m)
    (hv : vaddr % fromPageSize ps = 0) (hk : k * fromPageSize ps < 2 ^ 48)
    {e : BitVec 64} (hw : pm.walk st (pathTo (blockAddr vaddr ps k) (depth ps)) = some t)
    (hl : pm.lookup st (blockAddr vaddr ps k) =
      some ((pathTo (blockAddr vaddr ps k) levels).drop (depth ps + 1), e))
    (flags : Pflag) (cache : Caching)
    (hset : pm.Sets (fun _ => True) (blockAddr vaddr ps k) (depth ps)
      (protectEntry (st.mem t (idx (blockAddr vaddr ps k) (depth ps))) (toArch flags cache ps))
      st st') {m' : HwMap}
    (hin : ∀ x, pageOffset vaddr x / pagesOf ps = k → m' x = (m x).map fun e => (e.1, flags.read))
    (hout : ∀ x, pageOffset vaddr x / pagesOf ps ≠ k → m' x = m x) : pm.HwRefines st' m' := by
  have hd := depth_lt ps
  obtain ⟨hentry, htable⟩ := Pagemap.entry_of_lookup hd hw hl
  have hne : e ≠ 0#64 := by
    have := (Option.filter_eq_some_iff.mp hl).2
    simpa using this
  rw [hentry] at hset
  have hpres : isPresent (protectEntry e (toArch flags cache ps)) = flags.read := by
    rw [isPresent, protectEntry, getLsbD_reflag _ _ rfl, toArch_present]
  -- the pages of the block had the frame of the entry
  have hold : ∀ x < allPages, pageOffset vaddr x / pagesOf ps = k →
      m x = some (leafFrame x ps.toNat e, isPresent e) := by
    intro x hx hb
    have hpath := (sameBlock_iff ps hx hv hk).mpr hb
    have hpath' := hpath
    rw [pathTo_succ, pathTo_succ] at hpath'
    have hidx := List.singleton_inj.mp (List.append_inj' hpath' rfl).2
    have hwx : pm.walk st (pathTo (x * psize) (depth ps)) = some t := by
      rw [(List.append_inj' hpath' rfl).1]
      exact hw
    have hlx := Pagemap.lookup_of_walk hd hwx (by rw [hidx]; exact hentry.symm ▸ htable)
    rw [hidx, show st.mem t (idx ((vaddr + k * fromPageSize ps) % 2 ^ 64) (depth ps)) = e from hentry,
      if_neg hne] at hlx
    have hm := (h.leaf x hx _ e hlx).2
    rwa [length_drop_depth] at hm
  refine h.sets hset hv hk ?_ ?_ ?_ (fun x _ => hout x)
  · by_cases hsmall : ps = .small
    · exact Or.inr (Or.inl hsmall)
    · refine Or.inr (Or.inr ?_)
      rw [isLeaf, protectEntry, getLsbD_reflag _ _ rfl, toArch_lpages flags cache hsmall]
  · intro x hx hb _
    rw [hin x hb, hold x hx hb, hpres, leafFrame_protectEntry]
    rfl
  · intro x hx hb hz f hf
    rw [hin x hb, hold x hx hb] at hf
    have hread := (Prod.mk.inj (Option.some.inj hf)).2
    rw [← hpres, hz] at hread
    cases hread

theorem Pagemap.HwRefines.protect (h : pm.HwRefines st m) (hv : vaddr % fromPageSize ps = 0)
    (hlen : length ≤ 2 ^ 48) (hc : pm.ClearRange st vaddr length ps)
    (hmapped : pm.MappedRange st vaddr length ps) (flags : Pflag) (cache : Caching) :
    ∃ st' r k, Returns (fun fuel => forPages (fromPageSize ps) length
        (pm.protectPage vaddr ps (toArch flags cache ps)) fuel 0 st) (st', r) ∧
      pm.HwRefines st' (m.protectRange vaddr (k * pagesOf ps) flags.read) ∧ pm.Logs st st' ∧
      ((r = .ok () ∧ k = turns (fromPageSize ps) length) ∨
        (r = .error .invalidEntry ∧ k < turns (fromPageSize ps) length)) := by
  have hpos := fromPageSize_pos ps
  have hle := fromPageSize_le ps
  have hloop := forPages_rule (fun _ => pm.protectPage vaddr ps (toArch flags cache ps))
    (fun k st' => pm.HwRefines st' (m.protectRange vaddr (k * pagesOf ps) flags.read) ∧
      pm.Logs st st' ∧ pm.ClearRange st' vaddr length ps ∧
      ∀ j, k ≤ j → j < turns (fromPageSize ps) length →
        pm.walk st' (pathTo (blockAddr vaddr ps j) (depth ps)) = none ∨
        ∃ e, pm.lookup st' (blockAddr vaddr ps j) =
          some ((pathTo (blockAddr vaddr ps j) levels).drop (depth ps + 1), e))
    (fun k st' err => err = .invalidEntry ∧
      pm.HwRefines st' (m.protectRange vaddr (k * pagesOf ps) flags.read) ∧ pm.Logs st st')
    False hpos (by omega : length + fromPageSize ps ≤ 2 ^ 64)
    (fun k st₁ hk ⟨href, hlogs, hclear, hmap⟩ => ?_)
    ⟨by rw [Nat.zero_mul, HwMap.protectRange_zero]; exact h, .refl pm st, hc, fun j _ => hmapped j⟩
  · rcases hloop with ⟨st', hret, href, hlogs, -⟩ | ⟨st', err, k, hk, hret, rfl, href, hlogs⟩ |
      ⟨-, hfalse⟩
    · exact ⟨st', _, _, hret, href, hlogs, Or.inl ⟨rfl, rfl⟩⟩
    · exact ⟨st', _, k, hret, href, hlogs, Or.inr ⟨rfl, (lt_turns hpos).mpr hk⟩⟩
    · exact hfalse.elim
  · have hkt := (lt_turns hpos).mpr hk
    rcases href.wf.protectPage ps rfl trivial (hclear k hkt) flags cache with
      ⟨st₂, t, hw, hok, hset, hwalk⟩ | ⟨st₂, hw, hext, herr⟩
    · have hl := (hmap k le_rfl hkt).resolve_left (by
        rw [show pm.walk st₁ (pathTo (blockAddr vaddr ps k) (depth ps)) = some t from hw]
        exact Option.some_ne_none t)
      obtain ⟨e, hl⟩ := hl
      refine Or.inl ⟨st₂, fun _ => hok, ?_, hlogs.trans hset.logs,
        fun j hj => hset.clear _ _ trivial le_rfl (hclear j hj), fun j hj hjt => ?_⟩
      · refine href.protectBlock hv (by omega) hw hl flags cache hset (fun x hb => ?_) fun x hb => ?_
        · have hnot : ¬ pageOffset vaddr x < k * pagesOf ps := by
            have hpg : 0 < pagesOf ps := by cases ps <;> decide
            rw [← Nat.div_lt_iff_lt_mul hpg, hb]
            exact lt_irrefl k
          rw [HwMap.protectRange, if_pos ((lt_succ_blocks ps _ k).mpr (Or.inr hb)),
            HwMap.protectRange, if_neg hnot]
        · rw [HwMap.protectRange, HwMap.protectRange]
          refine if_congr ?_ rfl rfl
          rw [lt_succ_blocks]
          exact or_iff_left hb
      · -- the blocks to come are not touched
        have hjl := (lt_turns hpos).mp hjt
        have hne : pathTo (blockAddr vaddr ps j) (depth ps + 1) ≠
            pathTo (blockAddr vaddr ps k) (depth ps + 1) := fun heq => by
          have := blockAddr_inj hv (by omega) (by omega) heq
          omega
        have hpath : pathTo (blockAddr vaddr ps j) (depth ps) ∈ paths fun _ => True :=
          pathTo_mem_paths trivial (depth_lt ps)
        rw [hset.lookup_other _ trivial hne, hwalk _ hpath (length_pathTo _ _).le]
        exact hmap j (by omega) hjt
    · exact Or.inr (Or.inl ⟨st₂, _, fun _ => herr, rfl, href.extends hext, hlogs.trans hext.logs⟩)

end Operations

end Ilobilix.Vmm
