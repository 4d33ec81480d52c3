import Ilobilix.Foundation.Except
import Ilobilix.Memory.Pagemap.Encoding
import Ilobilix.Memory.Pmm.Ownership

/-!
# `map_alloc` and `unmap_dealloc`

The page map over the physical allocator. `map_alloc` takes a block for every page and chains the
blocks through their first word, where the allocator keeps its own `list` objects; the tables that
`map` needs come from the same allocator.

A `Paging` is the part of the machine that the two functions work on. The first words of each page are
the `list` objects of the allocator's memory, and `data` has the other bytes.
-/

namespace Ilobilix.Vmm

open Lib

/-- Why a call did not return: in the allocator, or in the page map. -/
inductive Crash
  | phys (stop : Pmm.Stop)
  | virt (stop : Stop)
deriving DecidableEq, Repr

structure Paging where
  tables : Tables
  phys : Pmm.Memory
  /-- `pagemap_use_lowmem` -/
  lowmem : Bool
  /-- the bytes of memory behind the first words of each page, by physical address -/
  data : ℕ → UInt8
  /-- the pages that `map_alloc` has mapped, with their frames, latest first -/
  mapped : List (ℕ × ℕ)
  /-- the blocks that `map_alloc` has cleared, latest first -/
  cleared : List ℕ

/-- The next `n` pages of `alloc(1, true, flag)`. -/
def takePages (hhdm fuel : ℕ) (flag : Pmm.ZoneId) : ℕ → Pmm.Memory →
    Except Pmm.Stop (Pmm.Memory × List ℕ)
  | 0, m => .ok (m, [])
  | n + 1, m => do
      let (m, ret) ← m.alloc hhdm fuel 1 flag
      let (m, pages) ← takePages hhdm fuel flag n m
      return (m, (ret.map Prod.snd).getD 0 :: pages)

/-- `flag` of `new_table`. -/
def Paging.flag (s : Paging) : Pmm.ZoneId := if s.lowmem then .sub4gib else .normal

/-- The page map whose `new_table` takes its pages from the allocator. -/
def Paging.pagemap (pm : Pagemap) (hhdm fuel : ℕ) (s : Paging) : Pagemap :=
  { pm with newTable := fun k =>
      if k < s.tables.ntables then pm.newTable k
      else
        match takePages hhdm fuel s.flag (k - s.tables.ntables + 1) s.phys with
        | .error _ => none
        | .ok (_, pages) => pages[k - s.tables.ntables]? }

/-- `map`, which leaves the allocator without the pages that became tables. -/
def Paging.map (pm : Pagemap) (hhdm fuel vaddr paddr length : ℕ) (flags : Pflag) (psize : PageSize)
    (cache : Caching) (s : Paging) : Except Crash (Paging × Except Error Unit) := do
  let (tables, ret) ← ((s.pagemap pm hhdm fuel).map fuel vaddr paddr length flags psize cache
    s.tables).mapError .virt
  let (phys, _) ← (takePages hhdm fuel s.flag (tables.ntables - s.tables.ntables)
    s.phys).mapError .phys
  return ({ s with tables := tables, phys := phys }, ret)

/-- `page->next`, the first word of a page. -/
def Paging.next (hhdm : ℕ) (s : Paging) (page : ℕ) : Option ℕ := (s.phys.node hhdm page).prev

/-- `page->next = next`. -/
def Paging.setNext (hhdm : ℕ) (s : Paging) (page next : ℕ) : Paging :=
  { s with phys := s.phys.setNode hhdm page { s.phys.node hhdm page with prev := some next } }

/-- The page `pg` becomes the last one of the chain, where `list` is the first and the last one so far.
It returns `head.next` as well. -/
def Paging.append (hhdm pg : ℕ) (list : Option (ℕ × ℕ)) (s : Paging) : Paging × ℕ :=
  match list with
  | none => (s, pg)
  | some (head, current) => (s.setNext hhdm current pg, head)

/-- `memset(page, 0, bytes)`. -/
def Paging.memset (hhdm page bytes : ℕ) (s : Paging) : Paging :=
  { s with
    phys := s.phys.clear page bytes
    data := fun a => if page ≤ a + hhdm ∧ a + hhdm < page + bytes then 0 else s.data a
    cleared := page :: s.cleared }

/-- The loop of `map_alloc` that gives the blocks back, from `current` on. -/
def Paging.freeList (hhdm npages : ℕ) : ℕ → Option ℕ → Paging → Except Crash Paging
  | _, none, s => .ok s
  | 0, some _, _ => .error (.virt .fuel)
  | fuel + 1, some current, s => do
      let next := s.next hhdm current
      let phys ← (s.phys.free hhdm current npages).mapError .phys
      freeList hhdm npages fuel next { s with phys := phys }

/-- The last loop of `map_alloc`, from `current` on. -/
def Paging.clearList (hhdm bytes : ℕ) : ℕ → Option ℕ → Paging → Except Crash Paging
  | _, none, s => .ok s
  | 0, some _, _ => .error (.virt .fuel)
  | fuel + 1, some current, s =>
      clearList hhdm bytes fuel (s.next hhdm current) (s.memset hhdm current bytes)

section

variable (pm : Pagemap) (hhdm fuel vaddr length : ℕ) (flags : Pflag) (psize : PageSize)
  (cache : Caching)

/-- The loop body of `map_alloc`, where `list` is `head.next` and `current`. -/
def Paging.mapAllocPage (i : ℕ) (list : Option (ℕ × ℕ)) (s : Paging) :
    Except Crash (Paging × (ℕ × ℕ) × Except Error Unit) := do
  let npsize := fromPageSize psize
  let npages := divRoundup npsize Pmm.pageSize
  let (phys, ret) ← (s.phys.alloc hhdm fuel npages .normal).mapError .phys
  let paddr := (ret.map Prod.snd).getD 0
  let pg := tohh hhdm paddr
  let (s, head) := Paging.append hhdm pg list { s with phys := phys }
  let (s, ret) ← s.map pm hhdm fuel ((vaddr + i) % 2 ^ 64) paddr npsize flags psize cache
  match ret with
  | .error err =>
      let s ← s.freeList hhdm npages fuel (some head)
      return (s, (head, pg), .error err)
  | .ok () =>
      return ({ s with mapped := ((vaddr + i) % 2 ^ 64, paddr) :: s.mapped }, (head, pg), .ok ())

/-- The first loop of `map_alloc`. -/
def Paging.mapAllocLoop : ℕ → ℕ → Option (ℕ × ℕ) → Paging →
    Except Crash (Paging × Option (ℕ × ℕ) × Except Error Unit)
  | 0, _, _, _ => .error (.virt .fuel)
  | left + 1, i, list, s =>
      if i < length then do
        let (s, list, ret) ← s.mapAllocPage pm hhdm fuel vaddr flags psize cache i list
        match ret with
        | .error err => return (s, some list, .error err)
        | .ok () => mapAllocLoop left ((i + fromPageSize psize) % 2 ^ 64) (some list) s
      else return (s, list, .ok ())

def Paging.mapAlloc (s : Paging) : Except Crash (Paging × Except Error Unit) := do
  let psize := pm.fixpsize psize
  let bytes := divRoundup (fromPageSize psize) Pmm.pageSize * Pmm.pageSize
  let (s, list, ret) ← mapAllocLoop pm hhdm fuel vaddr length flags psize cache fuel 0 none s
  match ret with
  | .error err => return (s, .error err)
  | .ok () =>
      let s ← s.clearList hhdm bytes fuel (list.map Prod.fst)
      return (s, .ok ())

/-- The loop body of `unmap_dealloc`. -/
def Paging.unmapDeallocPage (i : ℕ) (s : Paging) : Except Crash (Paging × Except Error Unit) := do
  let (tables, rett) ← (pm.translate ((vaddr + i) % 2 ^ 64) psize s.tables).mapError .virt
  match rett with
  | .error err => return ({ s with tables := tables }, .error err)
  | .ok paddr =>
      let (tables, retu) ← (pm.unmap fuel ((vaddr + i) % 2 ^ 64) (fromPageSize psize) psize
        tables).mapError .virt
      match retu with
      | .error err => return ({ s with tables := tables }, .error err)
      | .ok () =>
          let phys ← (s.phys.free hhdm paddr 1).mapError .phys
          return ({ s with tables := tables, phys := phys }, .ok ())

/-- The loop of `unmap_dealloc`. -/
def Paging.unmapDeallocLoop : ℕ → ℕ → Paging → Except Crash (Paging × Except Error Unit)
  | 0, _, _ => .error (.virt .fuel)
  | left + 1, i, s =>
      if i < length then do
        let (s, ret) ← s.unmapDeallocPage pm hhdm fuel vaddr psize i
        match ret with
        | .error err => return (s, .error err)
        | .ok () => unmapDeallocLoop left ((i + fromPageSize psize) % 2 ^ 64) s
      else return (s, .ok ())

def Paging.unmapDealloc (s : Paging) : Except Crash (Paging × Except Error Unit) :=
  unmapDeallocLoop pm hhdm fuel vaddr length (pm.fixpsize psize) fuel 0 s

end

/-! ## The tables that `getpte` makes -/

section Getpte

variable {pm pm' : Pagemap} {t j v d i : ℕ} {allocate : Bool} {st st' : Tables}

/-- `getlvl` looks at the next table only. -/
theorem Pagemap.getlvl_congr (h : pm.newTable st.ntables = pm'.newTable st.ntables) :
    pm.getlvl t j allocate st = pm'.getlvl t j allocate st := by
  rw [Pagemap.getlvl, Pagemap.getlvl, h]

/-- `getlvl` makes at most one table. -/
theorem Pagemap.getlvl_ntables {r : Option ℕ} (h : pm.getlvl t j allocate st = .ok (st', r)) :
    st'.ntables = st.ntables ∨
      st'.ntables = st.ntables + 1 ∧ pm.newTable st.ntables ≠ none := by
  rw [Pagemap.getlvl] at h
  dsimp only at h
  split at h
  · obtain ⟨rfl, -⟩ := Prod.mk.inj (Except.ok.inj h)
    exact Or.inl rfl
  · split at h
    · obtain ⟨rfl, -⟩ := Prod.mk.inj (Except.ok.inj h)
      exact Or.inl rfl
    · split at h
      · cases h
      · rename_i hsome
        obtain ⟨rfl, -⟩ := Prod.mk.inj (Except.ok.inj h)
        refine Or.inr ⟨rfl, ?_⟩
        rw [hsome]
        exact Option.some_ne_none _

/-- `getpte` looks at one table for each level at most. -/
theorem Pagemap.getpteFrom_congr {left : ℕ} : ∀ {pml i shift st},
    (∀ k < left, pm.newTable (st.ntables + k) = pm'.newTable (st.ntables + k)) →
    pm.getpteFrom v d allocate left pml i shift st =
      pm'.getpteFrom v d allocate left pml i shift st := by
  induction left with
  | zero => exact fun _ => rfl
  | succ left ih =>
      intro pml i shift st h
      have hlvl : pm.getlvl pml ((v >>> shift) &&& 0b111111111) allocate st =
          pm'.getlvl pml ((v >>> shift) &&& 0b111111111) allocate st :=
        getlvl_congr (h 0 (Nat.succ_pos left))
      rw [Pagemap.getpteFrom, Pagemap.getpteFrom, ← hlvl]
      split
      · rfl
      · cases hrun : pm.getlvl pml ((v >>> shift) &&& 0b111111111) allocate st with
        | error stop => rfl
        | ok r =>
            obtain ⟨st₁, - | pml'⟩ := r
            · rfl
            · refine ih fun k hk => ?_
              rcases getlvl_ntables hrun with hn | ⟨hn, -⟩
              · rw [hn]
                exact h k (by omega)
              · rw [hn, Nat.add_assoc, Nat.add_comm 1 k]
                exact h (k + 1) (by omega)

/-- The tables that `getpte` makes are there. -/
theorem Pagemap.getpteFrom_ntables {left : ℕ} : ∀ {pml i shift st r},
    pm.getpteFrom v d allocate left pml i shift st = .ok (st', r) →
    st.ntables ≤ st'.ntables ∧ st'.ntables ≤ st.ntables + left ∧
      ∀ k, st.ntables ≤ k → k < st'.ntables → pm.newTable k ≠ none := by
  induction left with
  | zero =>
      intro pml i shift st r h
      obtain ⟨rfl, -⟩ := Prod.mk.inj (Except.ok.inj h)
      exact ⟨le_rfl, le_rfl, fun k hk hk' => absurd hk' hk.not_gt⟩
  | succ left ih =>
      intro pml i shift st r h
      rw [Pagemap.getpteFrom] at h
      split at h
      · obtain ⟨rfl, -⟩ := Prod.mk.inj (Except.ok.inj h)
        exact ⟨le_rfl, Nat.le_add_right _ _, fun k hk hk' => absurd hk' hk.not_gt⟩
      · split at h
        · cases h
        · rename_i st₁ hlvl
          obtain ⟨rfl, -⟩ := Prod.mk.inj (Except.ok.inj h)
          rcases getlvl_ntables hlvl with hn | ⟨hn, hsome⟩
          · exact ⟨hn.ge, hn.le.trans (Nat.le_add_right _ _),
              fun k hk hk' => absurd hk' (by omega)⟩
          · refine ⟨by omega, by omega, fun k hk hk' => ?_⟩
            obtain rfl : k = st.ntables := by omega
            exact hsome
        · rename_i st₁ pml' hlvl
          obtain ⟨hle, hle', hall⟩ := ih h
          rcases getlvl_ntables hlvl with hn | ⟨hn, hsome⟩
          · exact ⟨by omega, by omega, fun k hk hk' => hall k (by omega) hk'⟩
          · refine ⟨by omega, by omega, fun k hk hk' => ?_⟩
            rcases hk.eq_or_lt with rfl | hk
            · exact hsome
            · exact hall k (by omega) hk'

/-- `getlvl` with allocation finds a table or panics. -/
theorem Pagemap.getlvl_alloc (pm : Pagemap) (t j : ℕ) (st : Tables) :
    (∃ st' t', pm.getlvl t j true st = .ok (st', some t')) ∨
      pm.getlvl t j true st = .error .panic := by
  rw [Pagemap.getlvl]
  dsimp only
  split
  · exact Or.inl ⟨_, _, rfl⟩
  · rw [if_neg (by decide)]
    cases pm.newTable st.ntables with
    | none => exact Or.inr rfl
    | some n => exact Or.inl ⟨_, _, rfl⟩

/-- `getpte` with allocation finds an entry or panics. -/
theorem Pagemap.getpteFrom_found {left : ℕ} : ∀ {pml i shift st}, i ≤ d → d < i + left →
    (∃ st' e, pm.getpteFrom v d true left pml i shift st = .ok (st', .ok e)) ∨
      pm.getpteFrom v d true left pml i shift st = .error .panic := by
  induction left with
  | zero => exact fun hi hd => absurd hd hi.not_gt
  | succ left ih =>
      intro pml i shift st hi hd
      rw [Pagemap.getpteFrom]
      split
      · exact Or.inl ⟨_, _, rfl⟩
      · rename_i hne
        rcases pm.getlvl_alloc pml ((v >>> shift) &&& 0b111111111) st with ⟨st₁, t', hlvl⟩ | hlvl
        · rw [hlvl]
          exact ih (Nat.lt_of_le_of_ne hi hne) (by omega)
        · rw [hlvl]
          exact Or.inr rfl

/-- `getpte` with allocation finds an entry or panics. -/
theorem Pagemap.getpte_found (pm : Pagemap) (v : ℕ) (ps : PageSize) (st : Tables) :
    (∃ st' e, pm.getpte v ps true st = .ok (st', .ok e)) ∨ pm.getpte v ps true st = .error .panic :=
  getpteFrom_found (Nat.zero_le _) (depth_lt ps)

end Getpte

/-! ## Mapping one page -/

section Page

variable {pm pm' : Pagemap} {fuel v p : ℕ} {flags : Pflag} {ps : PageSize} {cache : Caching}
  {st st' : Tables}

theorem Pagemap.fixpsize_fixpsize (pm : Pagemap) (ps : PageSize) :
    pm.fixpsize (pm.fixpsize ps) = pm.fixpsize ps := by
  cases ps <;> cases h : pm.largePages <;> simp [Pagemap.fixpsize, h]

theorem Pagemap.map_misaligned (pm : Pagemap) (hfix : pm.fixpsize ps = ps) (hv : v % fromPageSize ps ≠ 0) :
    pm.map fuel v p (fromPageSize ps) flags ps cache st = .ok (st, .error .addrNotAligned) := by
  rw [Pagemap.map, hfix]
  exact if_pos hv

/-- `map` of a single page goes through its loop once. -/
theorem Pagemap.map_page (pm : Pagemap) (hfix : pm.fixpsize ps = ps) (hv : v % fromPageSize ps = 0)
    (hfuel : 2 ≤ fuel) :
    pm.map fuel v p (fromPageSize ps) flags ps cache st =
      match pm.getpte (v % 2 ^ 64) ps true st with
      | .error stop => .error stop
      | .ok (st, .error err) => .ok (st, .error err)
      | .ok (st, .ok (t, j)) =>
          .ok (st.write t j (mapEntry (p % 2 ^ 64) (toArch flags cache ps)), .ok ()) := by
  obtain ⟨n, rfl⟩ := Nat.exists_eq_add_of_le' hfuel
  have hpos := fromPageSize_pos ps
  have hmod : (0 + fromPageSize ps) % 2 ^ 64 = fromPageSize ps := by
    rw [Nat.zero_add]
    cases ps <;> rfl
  have hend : ∀ (body : ℕ → Tables → Except Stop (Tables × Except Error Unit)) (st : Tables),
      forPages (fromPageSize ps) (fromPageSize ps) body (n + 1) (fromPageSize ps) st =
        .ok (st, .ok ()) := fun body st => if_neg (lt_irrefl _)
  have hroll : ∀ st, pm.rollback (n + 2) v ps 0 st = .ok (st, .ok ()) := fun st => rfl
  rw [Pagemap.map, hfix, if_neg (not_not.mpr hv), forPages, if_pos hpos, hmod, Pagemap.mapPage]
  simp only [Nat.add_zero]
  rcases pm.getpte (v % 2 ^ 64) ps true st with stop | ⟨st, err | e⟩
  · rfl
  · simp only [hroll]
  · simp only [hend, mapEntry]

end Page

/-! ## The pages of `new_table` -/

/-- The page map whose first `n` tables are there and whose next ones are `pages`. -/
def Pagemap.supply (pm : Pagemap) (n : ℕ) (pages : List ℕ) : Pagemap :=
  { pm with newTable := fun k => if k < n then pm.newTable k else pages[k - n]? }

section Tables

variable {pm : Pagemap} {hhdm : ℕ} {ranges live : Pmm.ZoneId → List (ℕ × ℕ)} {m : Pmm.Memory}

/-- The pages that `new_table` returns when it is called up to `n` times: those of `pages`, and then it
panics. -/
theorem takePages_spec (flag : Pmm.ZoneId) (n : ℕ) : ∀ {m live}, m.Sound hhdm ranges live →
    ∃ pages : List ℕ, pages.length ≤ n ∧
      (∀ i ≤ pages.length, ∃ m' live',
        Returns (fun fuel => takePages hhdm fuel flag i m) (m', pages.take i) ∧
        m.Takes hhdm ranges live live' m' ((pages.take i).map (·, 1))) ∧
      ∀ i, pages.length < i → i ≤ n → Stops (fun fuel => takePages hhdm fuel flag i m) .bug := by
  induction n with
  | zero =>
      intro m live h
      refine ⟨[], le_rfl, fun i hi => ?_, fun i hi hi' => absurd hi' hi.not_ge⟩
      obtain rfl := Nat.le_zero.mp hi
      exact ⟨m, live, .of_eq fun _ => rfl, .refl h⟩
  | succ n ih =>
      intro m live h
      rcases h.takes Nat.one_ne_zero flag with ⟨N, hN⟩ | ⟨m₁, id, ptr, live₁, ⟨N, hN⟩, htakes, -, -⟩
      · refine ⟨[], Nat.zero_le _, fun i hi => ?_, fun i hi hi' => ⟨N, fun fuel hfuel => ?_⟩⟩
        · obtain rfl := Nat.le_zero.mp hi
          exact ⟨m, live, .of_eq fun _ => rfl, .refl h⟩
        · obtain ⟨k, rfl⟩ := Nat.exists_eq_succ_of_ne_zero hi.ne'
          have hrun := hN fuel hfuel
          dsimp only at hrun ⊢
          rw [takePages, hrun]
          rfl
      · obtain ⟨pages, hlen, htake, hstop⟩ := ih htakes.sound
        refine ⟨ptr :: pages, Nat.succ_le_succ hlen, fun i hi => ?_, fun i hi hi' => ?_⟩
        · cases i with
          | zero => exact ⟨m, live, .of_eq fun _ => rfl, .refl h⟩
          | succ i =>
              obtain ⟨m', live', ⟨N', hN'⟩, htakes'⟩ := htake i (Nat.le_of_succ_le_succ hi)
              refine ⟨m', live', ⟨max N N', fun fuel hfuel => ?_⟩, htakes.trans htakes'⟩
              have hrun := hN fuel (le_trans (le_max_left N N') hfuel)
              have hrest := hN' fuel (le_trans (le_max_right N N') hfuel)
              dsimp only at hrun hrest ⊢
              rw [takePages, hrun, List.take_succ_cons]
              change (takePages hhdm fuel flag i m₁ >>= _) = _
              rw [hrest]
              rfl
        · cases i with
          | zero => exact absurd hi (Nat.not_lt_zero _)
          | succ i =>
              obtain ⟨N', hN'⟩ := hstop i (Nat.lt_of_succ_lt_succ hi) (Nat.le_of_succ_le_succ hi')
              refine ⟨max N N', fun fuel hfuel => ?_⟩
              have hrun := hN fuel (le_trans (le_max_left N N') hfuel)
              have hrest := hN' fuel (le_trans (le_max_right N N') hfuel)
              dsimp only at hrun hrest ⊢
              rw [takePages, hrun]
              change (takePages hhdm fuel flag i m₁ >>= _) = _
              rw [hrest]
              rfl

/-- `new_table` returns the pages that the allocator has for it. -/
theorem Paging.pagemap_newTable (pm : Pagemap) {s : Paging} (pages : List ℕ)
    (htake : ∀ i ≤ pages.length, ∃ m',
      Returns (fun fuel => takePages hhdm fuel s.flag i s.phys) (m', pages.take i))
    (hstop : ∀ i, pages.length < i → i ≤ levels →
      Stops (fun fuel => takePages hhdm fuel s.flag i s.phys) .bug) :
    ∃ N, ∀ fuel, N ≤ fuel → ∀ k < levels,
      (s.pagemap pm hhdm fuel).newTable (s.tables.ntables + k) =
        (pm.supply s.tables.ntables pages).newTable (s.tables.ntables + k) := by
  refine exists_fuel_forall fun k hk => ?_
  have hge : ¬ s.tables.ntables + k < s.tables.ntables := by omega
  have hsub : s.tables.ntables + k - s.tables.ntables = k := by omega
  by_cases hlen : k < pages.length
  · obtain ⟨m', N, hN⟩ := htake (k + 1) hlen
    refine ⟨N, fun fuel hfuel => ?_⟩
    have hrun := hN fuel hfuel
    dsimp only at hrun
    rw [Paging.pagemap, Pagemap.supply]
    dsimp only
    rw [if_neg hge, if_neg hge, hsub, hrun]
    exact List.getElem?_take_of_lt (Nat.lt_succ_self k)
  · obtain ⟨N, hN⟩ := hstop (k + 1) (by omega) hk
    refine ⟨N, fun fuel hfuel => ?_⟩
    have hrun := hN fuel hfuel
    dsimp only at hrun
    rw [Paging.pagemap, Pagemap.supply]
    dsimp only
    rw [if_neg hge, if_neg hge, hsub, hrun, List.getElem?_eq_none (not_lt.mp hlen)]

/-- A page at an address that is not aligned is not mapped, and no table is made. -/
theorem Paging.map_misaligned (s : Paging) (fuel : ℕ) {ps : PageSize} (hfix : pm.fixpsize ps = ps) {v : ℕ}
    (hv : v % fromPageSize ps ≠ 0) (p : ℕ) (flags : Pflag) (cache : Caching) :
    s.map pm hhdm fuel v p (fromPageSize ps) flags ps cache = .ok (s, .error .addrNotAligned) := by
  rw [Paging.map, (s.pagemap pm hhdm fuel).map_misaligned hfix hv]
  simp only [Except.mapError, Except.ok_bind, Nat.sub_self, takePages]
  rfl

/-- Mapping one page writes its entry, after the allocator gave the pages for the tables that were
missing, or memory is exhausted. -/
theorem Paging.map_page {s : Paging} (h : s.phys.Sound hhdm ranges live) {ps : PageSize}
    (hfix : pm.fixpsize ps = ps) {v : ℕ} (hv : v % fromPageSize ps = 0) (p : ℕ) (flags : Pflag)
    (cache : Caching) :
    ∃ pages : List ℕ,
      (∃ m' live', s.phys.Takes hhdm ranges live live' m' (pages.map (·, 1))) ∧
      (((pm.supply s.tables.ntables pages).getpte (v % 2 ^ 64) ps true s.tables = .error .panic ∧
        Stops (fun fuel => s.map pm hhdm fuel v p (fromPageSize ps) flags ps cache) (.virt .panic)) ∨
      ∃ st t j phys live' l,
        (pm.supply s.tables.ntables pages).getpte (v % 2 ^ 64) ps true s.tables =
          .ok (st, .ok (t, j)) ∧
        l <+: pages ∧ st.ntables = s.tables.ntables + l.length ∧
        s.phys.Takes hhdm ranges live live' phys (l.map (·, 1)) ∧
        Returns (fun fuel => s.map pm hhdm fuel v p (fromPageSize ps) flags ps cache)
          ({ s with tables := st.write t j (mapEntry (p % 2 ^ 64) (toArch flags cache ps)),
                    phys := phys }, .ok ())) := by
  obtain ⟨pages, -, htake, hstop⟩ := takePages_spec s.flag levels h
  obtain ⟨N, hN⟩ := Paging.pagemap_newTable pm pages
    (fun i hi => (htake i hi).imp fun m' hm' => hm'.choose_spec.1) hstop
  have hall : ∃ m' live', s.phys.Takes hhdm ranges live live' m' (pages.map (·, 1)) := by
    obtain ⟨m', live', -, htakes⟩ := htake pages.length le_rfl
    rw [List.take_length] at htakes
    exact ⟨m', live', htakes⟩
  -- the tables are the same as with the pages at hand
  have hget : ∀ fuel, N ≤ fuel → (s.pagemap pm hhdm fuel).getpte (v % 2 ^ 64) ps true s.tables =
      (pm.supply s.tables.ntables pages).getpte (v % 2 ^ 64) ps true s.tables :=
    fun fuel hfuel => Pagemap.getpteFrom_congr (hN fuel hfuel)
  refine ⟨pages, hall, ?_⟩
  rcases (pm.supply s.tables.ntables pages).getpte_found (v % 2 ^ 64) ps s.tables with
    ⟨st, ⟨t, j⟩, hok⟩ | hpanic
  · obtain ⟨hle, -, hsome⟩ := Pagemap.getpteFrom_ntables hok
    -- every table that was made is one of the pages
    have hlen : st.ntables - s.tables.ntables ≤ pages.length := by
      by_contra hgt
      refine hsome (s.tables.ntables + pages.length) (by omega) (by omega) ?_
      rw [Pagemap.supply]
      dsimp only
      rw [if_neg (by omega), Nat.add_sub_cancel_left, List.getElem?_eq_none le_rfl]
    obtain ⟨phys, live', ⟨M, hM⟩, htakes⟩ := htake _ hlen
    refine Or.inr ⟨st, t, j, phys, live', _, hok, List.take_prefix _ _, ?_, htakes,
      max (max N 2) M, fun fuel hfuel => ?_⟩
    · rw [List.length_take, min_eq_left hlen]
      omega
    · have hrun := hM fuel ((le_max_right _ M).trans hfuel)
      have hN2 : max N 2 ≤ fuel := (le_max_left _ M).trans hfuel
      dsimp only at hrun ⊢
      rw [Paging.map, (s.pagemap pm hhdm fuel).map_page hfix hv
        ((le_max_right N 2).trans hN2), hget fuel ((le_max_left N 2).trans hN2), hok]
      change (Except.mapError Crash.phys (takePages hhdm fuel s.flag
        (st.ntables - s.tables.ntables) s.phys) >>= _) = _
      rw [hrun]
      rfl
  · refine Or.inl ⟨hpanic, max N 2, fun fuel hfuel => ?_⟩
    dsimp only
    rw [Paging.map, (s.pagemap pm hhdm fuel).map_page hfix hv
      ((le_max_right N 2).trans hfuel), hget fuel ((le_max_left N 2).trans hfuel), hpanic]
    rfl

end Tables

end Ilobilix.Vmm
