import Ilobilix.Memory.Pagemap.MapAlloc

/-!
# `unmap_dealloc` after `map_alloc`

`map_alloc` takes blocks of the size of a page and `unmap_dealloc` gives back a single page of 4 KiB for
each of them. For small pages it undoes `map_alloc`. For larger pages the allocator finds that the size
of the block is another one and panics: `unmap_dealloc_undoes_iff`.
-/

namespace Ilobilix.Vmm

open Lib

/-! ## The tables and the allocator -/

/-- The tables that the page map has are pages that the allocator has handed out. -/
structure Paging.Backed (pm : Pagemap) (hhdm : ℕ) (live : Pmm.ZoneId → List (ℕ × ℕ)) (P : ℕ → Prop)
    (s : Paging) : Prop where
  fresh : pm.FreshTables
  wf : pm.Wf s.tables P
  root : Pmm.Handed hhdm live (pm.table / Pmm.pageSize)
  tables : ∀ k < s.tables.ntables, ∀ t, pm.newTable k = some t → Pmm.Handed hhdm live (t / Pmm.pageSize)

/-- The page map with other pages for its tables. -/
def Pagemap.withTables (pm : Pagemap) (tables : ℕ → Option ℕ) : Pagemap := { pm with newTable := tables }

section Congr

variable {pm : Pagemap} {f g : ℕ → Option ℕ} {P : ℕ → Prop} {st st' : Tables}

/-- The invariant looks at the tables that are there. -/
theorem Pagemap.Wf.congr (h : (pm.withTables f).Wf st P) (hfg : ∀ k < st.ntables, f k = g k) :
    (pm.withTables g).Wf st P := by
  refine ⟨h.tree, fun p hp t hw => ?_⟩
  rcases h.owned p hp t hw with ht | ⟨k, hk, ht⟩
  · exact Or.inl ht
  · exact Or.inr ⟨k, hk, (hfg k hk).symm.trans ht⟩

theorem Pagemap.Grows.congr (h : (pm.withTables f).Grows P st st') (hfg : ∀ k < st'.ntables, f k = g k) :
    (pm.withTables g).Grows P st st' := by
  refine ⟨h.ntables_le, h.walk, fun p hp t hw => ?_, fun k hk hk' t ht => ?_⟩
  · refine (h.back p hp t hw).imp_right ?_
    rintro ⟨k, hk, hk', ht⟩
    exact ⟨k, hk, hk', (hfg k hk').symm.trans ht⟩
  · exact h.reached k hk hk' t ((hfg k hk').trans ht)

end Congr

/-- A walk without allocation does not look at the new tables. -/
theorem Pagemap.getpteFrom_false (pm : Pagemap) (f : ℕ → Option ℕ) (v d : ℕ) {left : ℕ} :
    ∀ {pml i shift st}, (pm.withTables f).getpteFrom v d false left pml i shift st =
      pm.getpteFrom v d false left pml i shift st := by
  induction left with
  | zero => exact rfl
  | succ left ih =>
      intro pml i shift st
      have hlvl : ∀ j, (pm.withTables f).getlvl pml j false st = pm.getlvl pml j false st := by
        intro j
        rw [Pagemap.getlvl, Pagemap.getlvl]
        rfl
      rw [Pagemap.getpteFrom, Pagemap.getpteFrom, hlvl]
      split
      · rfl
      · rcases pm.getlvl pml ((v >>> shift) &&& 0b111111111) false st with stop | ⟨st₁, - | pml'⟩
        · rfl
        · rfl
        · exact ih

section Fresh

variable {pm : Pagemap} {hhdm n : ℕ} {ranges live live' : Pmm.ZoneId → List (ℕ × ℕ)} {m m' : Pmm.Memory}
  {pages : List ℕ} {t : ℕ}

/-- A page that the allocator has handed out. -/
theorem page_spec (h : m.Sound hhdm ranges live) (hhigh : 0xffff800000000000 ≤ hhdm) {id : Pmm.ZoneId}
    (ht : (t, 1) ∈ live id) (hphys : fromhh hhdm (tohh hhdm t) = t) :
    0x1000 ∣ t ∧ t < 2 ^ 47 ∧ (Pmm.blockAt hhdm (t, 1)).base = t / Pmm.pageSize ∧
      ∀ x, x ∈ (Pmm.blockAt hhdm (t, 1)).pages ↔ t = x * Pmm.pageSize := by
  have hfirst := h.tohh_eq ht
  obtain ⟨-, hbound, -⟩ := (h.fits ht).bounds
  rw [Pmm.ZoneId.zone_hhdm] at hbound
  rw [hfirst, fromhh_add] at hphys
  have horder : (Pmm.blockAt hhdm (t, 1)).order = 0 := by rw [Pmm.blockAt_order, Pmm.orderFor_one]
  rw [horder, pow_zero] at hbound
  refine ⟨⟨_, hphys.symm.trans (Nat.mul_comm _ _)⟩, ?_, ?_, fun x => ?_⟩
  · simp only [Pmm.pageSize] at hbound hphys
    omega
  · simp only [Pmm.pageSize] at hphys ⊢
    omega
  · rw [Block.mem_pages, horder, pow_zero]
    simp only [Pmm.pageSize] at hphys ⊢
    omega

/-- The pages that the allocator gives for new tables are none of the tables there are. -/
theorem Pagemap.FreshTables.supply (hpm : pm.FreshTables)
    (hroot : Pmm.Handed hhdm live (pm.table / Pmm.pageSize))
    (hold : ∀ k < n, ∀ t, pm.newTable k = some t → Pmm.Handed hhdm live (t / Pmm.pageSize))
    (h : m.Sound hhdm ranges live) (hhigh : 0xffff800000000000 ≤ hhdm)
    (htakes : m.Takes hhdm ranges live live' m' (pages.map (·, 1))) : (pm.supply n pages).FreshTables := by
  have hpage : ∀ t ∈ pages, ∃ id, (t, 1) ∈ live' id ∧ fromhh hhdm (tohh hhdm t) = t := by
    intro t ht
    have hmem : (t, 1) ∈ pages.map (·, 1) := List.mem_map_of_mem ht
    obtain ⟨id, hid⟩ := htakes.held _ hmem
    exact ⟨id, hid, htakes.phys _ hmem⟩
  have hnew : ∀ t ∈ pages, ¬ Pmm.Handed hhdm live (t / Pmm.pageSize) := by
    intro t ht
    obtain ⟨id, hid, hphys⟩ := hpage t ht
    obtain ⟨-, -, hbase, -⟩ := page_spec htakes.sound hhigh hid hphys
    rw [← hbase]
    exact htakes.not_handed h (List.mem_map_of_mem ht) (Block.base_mem_pages _)
  have hcases : ∀ k t, (pm.supply n pages).newTable k = some t →
      k < n ∧ pm.newTable k = some t ∨ n ≤ k ∧ pages[k - n]? = some t := by
    intro k t ht
    rw [Pagemap.supply] at ht
    dsimp only at ht
    split at ht
    · exact Or.inl ⟨‹_›, ht⟩
    · exact Or.inr ⟨not_lt.mp ‹_›, ht⟩
  have hnodup : pages.Nodup := by
    have hdisj := htakes.disjoint
    rw [List.pairwise_map] at hdisj
    refine hdisj.imp_of_mem fun {t u} ht _ hdisj heq => ?_
    subst heq
    exact Set.disjoint_left.mp hdisj (Block.base_mem_pages _) (Block.base_mem_pages _)
  refine ⟨fun k t ht => ?_, fun k t ht => ?_, fun j k t hj hk => ?_, fun k ht => ?_⟩
  · rcases hcases k t ht with ⟨-, ht⟩ | ⟨-, ht⟩
    · exact hpm.aligned k t ht
    · obtain ⟨id, hid, hphys⟩ := hpage t (List.mem_of_getElem? ht)
      exact (page_spec htakes.sound hhigh hid hphys).1
  · rcases hcases k t ht with ⟨-, ht⟩ | ⟨-, ht⟩
    · exact hpm.lt k t ht
    · obtain ⟨id, hid, hphys⟩ := hpage t (List.mem_of_getElem? ht)
      exact (page_spec htakes.sound hhigh hid hphys).2.1
  · rcases hcases j t hj with ⟨hjn, hj⟩ | ⟨hjn, hj⟩ <;> rcases hcases k t hk with ⟨hkn, hk⟩ | ⟨hkn, hk⟩
    · exact hpm.injective j k t hj hk
    · exact absurd (hold j hjn t hj) (hnew t (List.mem_of_getElem? hk))
    · exact absurd (hold k hkn t hk) (hnew t (List.mem_of_getElem? hj))
    · have hjk : j - n = k - n := by
        obtain ⟨hlt, hjt⟩ := List.getElem?_eq_some_iff.mp hj
        obtain ⟨hlt', hkt⟩ := List.getElem?_eq_some_iff.mp hk
        exact (hnodup.getElem_inj_iff).mp (hjt.trans hkt.symm)
      omega
  · rcases hcases k _ ht with ⟨-, ht⟩ | ⟨-, ht⟩
    · exact hpm.ne_table k ht
    · exact hnew _ (List.mem_of_getElem? ht) hroot

end Fresh

/-! ## After `map_alloc` -/

/-- The tables `st` that `map_alloc` made of `st₀`, where `tables` has the pages of all tables: the range is
mapped to the blocks, everything else is as it was, and the blocks and the new tables are what the
allocator gave. -/
structure Pagemap.Settled (pm : Pagemap) (hhdm : ℕ) (P : ℕ → Prop) (vaddr : ℕ) (ps : PageSize)
    (aflags : BitVec 64) (st₀ : Tables) (live : Pmm.ZoneId → List (ℕ × ℕ)) (st : Tables)
    (l : List (ℕ × ℕ)) (blocks : List ℕ) (tables : ℕ → Option ℕ) : Prop where
  fresh : (pm.withTables tables).FreshTables
  wf : (pm.withTables tables).Wf st P
  ntables_le : st₀.ntables ≤ st.ntables
  old : ∀ k < st₀.ntables, tables k = pm.newTable k
  handed : ∀ k t, tables k = some t → k < st.ntables ∧ Pmm.Handed hhdm live (t / Pmm.pageSize)
  root : Pmm.Handed hhdm live (pm.table / Pmm.pageSize)
  clear : ∀ v, P (idx v 0) → pm.Clear st₀ v (depth ps) → pm.Clear st v (depth ps)
  holds : ∀ k b, blocks[k]? = some b →
    pm.Holds st (blockAddr vaddr ps k) ps (mapEntry (b % 2 ^ 64) aflags)
  others : ∀ w, P (idx w 0) → (∀ k < blocks.length,
    pathTo w (depth ps + 1) ≠ pathTo (blockAddr vaddr ps k) (depth ps + 1)) →
    pm.lookup st w = pm.lookup st₀ w
  grows : ps = .small → (pm.withTables tables).Grows P st₀ st
  held : ∀ b ∈ blocks, ∃ id, (b, divRoundup (fromPageSize ps) Pmm.pageSize) ∈ live id
  given : ∀ a, a ∈ l ↔ (∃ b ∈ blocks, a = (b, divRoundup (fromPageSize ps) Pmm.pageSize)) ∨
    ∃ k t, st₀.ntables ≤ k ∧ tables k = some t ∧ a = (t, 1)
  apart : ∀ b ∈ blocks, ∀ k t, tables k = some t →
    t / Pmm.pageSize ∉ (Pmm.blockAt hhdm (b, divRoundup (fromPageSize ps) Pmm.pageSize)).pages

section Settled

variable {pm : Pagemap} {hhdm vaddr : ℕ} {P : ℕ → Prop} {ps : PageSize} {flags : Pflag} {cache : Caching}
  {ranges live₀ live : Pmm.ZoneId → List (ℕ × ℕ)} {st₀ st : Tables} {l : List (ℕ × ℕ)} {blocks : List ℕ}

/-- Before the first page. -/
theorem Paging.Backed.settled {s : Paging} (h : s.Backed pm hhdm live₀ P) (vaddr : ℕ) (ps : PageSize)
    (aflags : BitVec 64) :
    pm.Settled hhdm P vaddr ps aflags s.tables live₀ s.tables [] []
      (pm.supply s.tables.ntables []).newTable := by
  have hsome : ∀ k t, (pm.supply s.tables.ntables []).newTable k = some t →
      k < s.tables.ntables ∧ pm.newTable k = some t := by
    intro k t ht
    rw [Pagemap.supply] at ht
    dsimp only at ht
    split at ht
    · exact ⟨‹_›, ht⟩
    · cases ht
  have hold : ∀ k < s.tables.ntables, pm.newTable k = (pm.supply s.tables.ntables []).newTable k :=
    fun k hk => (if_pos hk).symm
  refine ⟨⟨fun k t ht => h.fresh.aligned k t (hsome k t ht).2, fun k t ht => h.fresh.lt k t (hsome k t ht).2,
      fun j k t hj hk => h.fresh.injective j k t (hsome j t hj).2 (hsome k t hk).2,
      fun k ht => h.fresh.ne_table k (hsome k _ ht).2⟩,
    Pagemap.Wf.congr (f := pm.newTable) h.wf hold, le_rfl, fun k hk => (hold k hk).symm,
    fun k t ht => ⟨(hsome k t ht).1, h.tables k (hsome k t ht).1 t (hsome k t ht).2⟩, h.root,
    fun v _ hc => hc, fun k b hb => ?_, fun w _ _ => rfl,
    fun _ => .of_walk rfl fun _ _ => rfl, fun b hb => ?_, fun a => ?_, fun b hb => ?_⟩
  · cases hb
  · cases hb
  · constructor
    · intro ha
      cases ha
    · rintro (⟨b, hb, -⟩ | ⟨k, t, hk, ht, -⟩)
      · cases hb
      · exact absurd (hsome k t ht).1 hk.not_gt
  · cases hb

/-- Where `getpte` succeeds with pages at hand, it extends the tables that there are. -/
theorem Pagemap.Wf.supply {tables : ℕ → Option ℕ} {pages : List ℕ} {v t j : ℕ} {st' : Tables}
    (h : (pm.withTables tables).Wf st P) (hfresh : ((pm.withTables tables).supply st.ntables pages).FreshTables)
    (hP : P (idx v 0)) (hc : pm.Clear st v (depth ps))
    (hget : (pm.supply st.ntables pages).getpte v ps true st = .ok (st', .ok (t, j))) (b : ℕ)
    (flags : Pflag) (cache : Caching) :
    ((pm.withTables tables).supply st.ntables pages).Sets P v (depth ps)
      (mapEntry b (toArch flags cache ps)) st (st'.write t j (mapEntry b (toArch flags cache ps))) ∧
    (pm.walk (st'.write t j (mapEntry b (toArch flags cache ps))) (pathTo v (depth ps))).isSome := by
  have hnew : ∀ k < levels, ((pm.withTables tables).supply st.ntables pages).newTable (st.ntables + k) =
      (pm.supply st.ntables pages).newTable (st.ntables + k) := by
    intro k _
    have hge : ¬ st.ntables + k < st.ntables := by omega
    simp only [Pagemap.supply, if_neg hge]
  have hget' : ((pm.withTables tables).supply st.ntables pages).getpte v ps true st =
      .ok (st', .ok (t, j)) := (Pagemap.getpteFrom_congr hnew).trans hget
  have hwf : ((pm.withTables tables).supply st.ntables pages).Wf st P :=
    h.congr fun k hk => (if_pos hk).symm
  rcases hwf.getpte_alloc hfresh hP ps hc with ⟨st₁, t₁, hok, hext, hw⟩ | hpanic
  · obtain ⟨rfl, he⟩ := Prod.mk.inj (Except.ok.inj (hget'.symm.trans hok))
    obtain ⟨rfl, rfl⟩ := Prod.mk.inj (Except.ok.inj he)
    have hset := hext.wf.write hP (depth_lt ps) hw (tableOf_of_flags ps
      (getLsbD_mk b (toArch flags cache ps) rfl))
    have hw' := hset.walk _ (pathTo_mem_paths hP (depth_lt ps)) (length_pathTo _ _).le t hw
    exact ⟨hext.sets (depth_lt ps) hset, Option.isSome_of_eq_some hw'⟩
  · cases hget'.symm.trans hpanic

/-- One more page. -/
theorem Pagemap.Settled.concat {tables : ℕ → Option ℕ} {live₁ live₂ live₃ : Pmm.ZoneId → List (ℕ × ℕ)}
    {m m₁ m₂ m₃ m₄ : Pmm.Memory} {st' : Tables} {pages new : List ℕ} {b t j : ℕ}
    (h : pm.Settled hhdm P vaddr ps (toArch flags cache ps) st₀ live st l blocks tables)
    (hhigh : 0xffff800000000000 ≤ hhdm) (hv : vaddr % fromPageSize ps = 0)
    (hlen : (blocks.length + 1) * fromPageSize ps ≤ 2 ^ 48)
    (hP : ∀ k ≤ blocks.length, P (idx (blockAddr vaddr ps k) 0))
    (hc : pm.Clear st₀ (blockAddr vaddr ps blocks.length) (depth ps)) (hm : m.Sound hhdm ranges live)
    (hb : m.Takes hhdm ranges live live₁ m₁ [(b, divRoundup (fromPageSize ps) Pmm.pageSize)])
    (hm₂ : m₂.Sound hhdm ranges live₁) (hpages : m₂.Takes hhdm ranges live₁ live₂ m₃ (pages.map (·, 1)))
    (hget : (pm.supply st.ntables pages).getpte (blockAddr vaddr ps blocks.length) ps true st =
      .ok (st', .ok (t, j))) (hpre : new <+: pages) (hn : st'.ntables = st.ntables + new.length)
    (hnew : m₂.Takes hhdm ranges live₁ live₃ m₄ (new.map (·, 1))) :
    pm.Settled hhdm P vaddr ps (toArch flags cache ps) st₀ live₃
      (st'.write t j (mapEntry (b % 2 ^ 64) (toArch flags cache ps)))
      ((l ++ [(b, divRoundup (fromPageSize ps) Pmm.pageSize)]) ++ new.map (·, 1)) (blocks ++ [b])
      ((pm.withTables tables).supply st.ntables new).newTable := by
  have hold : ∀ k < st.ntables, ∀ t, (pm.withTables tables).newTable k = some t →
      Pmm.Handed hhdm live₁ (t / Pmm.pageSize) :=
    fun k _ t ht => (h.handed k t ht).2.mono hb.stays
  have hroot : Pmm.Handed hhdm live₁ ((pm.withTables tables).table / Pmm.pageSize) := h.root.mono hb.stays
  obtain ⟨hset, hw⟩ := h.wf.supply (h.fresh.supply hroot hold hm₂ hhigh hpages) (hP _ le_rfl)
    (h.clear _ (hP _ le_rfl) hc) hget (b % 2 ^ 64) flags cache
  -- the tables that were made are the first of the pages
  have hsome : ∀ k t, ((pm.withTables tables).supply st.ntables new).newTable k = some t →
      k < st.ntables ∧ tables k = some t ∨ st.ntables ≤ k ∧ new[k - st.ntables]? = some t := by
    intro k t ht
    rw [Pagemap.supply] at ht
    dsimp only at ht
    split at ht
    · exact Or.inl ⟨‹_›, ht⟩
    · exact Or.inr ⟨not_lt.mp ‹_›, ht⟩
  have hagree : ∀ k < st'.ntables, ((pm.withTables tables).supply st.ntables pages).newTable k =
      ((pm.withTables tables).supply st.ntables new).newTable k := by
    intro k hk
    by_cases hlt : k < st.ntables
    · simp only [Pagemap.supply, if_pos hlt]
    · simp only [Pagemap.supply, if_neg hlt]
      obtain ⟨r, rfl⟩ := hpre
      exact List.getElem?_append_left (by omega)
  have hage : ∀ k < st.ntables, tables k = ((pm.withTables tables).supply st.ntables new).newTable k :=
    fun k hk => (if_pos hk).symm
  have hmem : ∀ t ∈ new, ∃ id, (t, 1) ∈ live₃ id ∧ fromhh hhdm (tohh hhdm t) = t := by
    intro t ht
    obtain ⟨id, hid⟩ := hnew.held _ (List.mem_map_of_mem ht)
    exact ⟨id, hid, hnew.phys _ (List.mem_map_of_mem ht)⟩
  have hbase : ∀ t ∈ new, (Pmm.blockAt hhdm (t, 1)).base = t / Pmm.pageSize := by
    intro t ht
    obtain ⟨id, hid, hphys⟩ := hmem t ht
    exact (page_spec hnew.sound hhigh hid hphys).2.2.1
  have hblock := List.mem_singleton_self (b, divRoundup (fromPageSize ps) Pmm.pageSize)
  have hsize := fromPageSize_pos ps
  have hne : ∀ k < blocks.length, pathTo (blockAddr vaddr ps k) (depth ps + 1) ≠
      pathTo (blockAddr vaddr ps blocks.length) (depth ps + 1) := by
    intro k hk heq
    have hmul := Nat.mul_le_mul_right (fromPageSize ps) (Nat.succ_le_of_lt hk)
    rw [Nat.succ_mul] at hmul
    rw [Nat.succ_mul] at hlen
    exact hk.ne (blockAddr_inj hv (by omega) (by omega) heq)
  have hstays : ∀ id, ∀ a ∈ live id, a ∈ live₃ id := fun id a ha => hnew.stays id a (hb.stays id a ha)
  refine ⟨h.fresh.supply hroot hold hm₂ hhigh hnew, Pagemap.Wf.congr hset.wf hagree,
    h.ntables_le.trans hset.logs.ntables_le,
    fun k hk => (hage k (hk.trans_le h.ntables_le)).symm.trans (h.old k hk), fun k u hk => ?_,
    h.root.mono hstays, fun v hPv hcv => hset.clear v _ hPv le_rfl (h.clear v hPv hcv), fun k c hk => ?_,
    fun w hPw hw' => ?_, fun hsmall => ?_, fun c hcb => ?_, fun a => ?_, fun c hcb k u hk => ?_⟩
  · -- the pages of the tables are handed out
    rcases hsome k u hk with ⟨hlt, hk⟩ | ⟨hge, hk⟩
    · exact ⟨hlt.trans_le hset.logs.ntables_le, (h.handed k u hk).2.mono hstays⟩
    · obtain ⟨hlt, -⟩ := List.getElem?_eq_some_iff.mp hk
      refine ⟨?_, ?_⟩
      · change k < st'.ntables
        omega
      · obtain ⟨id, hid, -⟩ := hmem u (List.mem_of_getElem? hk)
        rw [← hbase u (List.mem_of_getElem? hk)]
        exact ⟨id, _, hid, Block.base_mem_pages _⟩
  · rcases lt_trichotomy k blocks.length with hlt | rfl | hgt
    · rw [List.getElem?_append_left hlt] at hk
      exact hset.holds_other (hP k hlt.le) (hne k hlt) (.mapEntry _ flags cache ps) (h.holds k c hk)
    · rw [List.getElem?_concat_length] at hk
      obtain rfl := Option.some.inj hk
      exact hset.holds_same (.mapEntry _ flags cache ps) hw
    · rw [List.getElem?_eq_none (by
        rw [List.length_append, List.length_singleton]
        omega)] at hk
      cases hk
  · rw [List.length_append, List.length_singleton] at hw'
    exact (hset.lookup_other w hPw (hw' _ (Nat.lt_succ_self _))).trans
      (h.others w hPw fun k hk => hw' k (Nat.lt_succ_of_lt hk))
  · have hgrows := (h.grows hsmall).congr (g := ((pm.withTables tables).supply st.ntables new).newTable)
      hage
    subst hsmall
    exact hgrows.trans (Pagemap.Grows.congr (hset.grows rfl) hagree)
  · rcases List.mem_append.mp hcb with hcb | hcb
    · obtain ⟨id, hid⟩ := h.held c hcb
      exact ⟨id, hstays id _ hid⟩
    · obtain rfl := List.mem_singleton.mp hcb
      obtain ⟨id, hid⟩ := hb.held _ hblock
      exact ⟨id, hnew.stays id _ hid⟩
  · rw [List.mem_append, List.mem_append, h.given, List.mem_singleton]
    constructor
    · rintro (((⟨c, hcb, rfl⟩ | ⟨k, u, hk, hku, rfl⟩) | rfl) | ha)
      · exact Or.inl ⟨c, List.mem_append_left _ hcb, rfl⟩
      · exact Or.inr ⟨k, u, hk, (hage k (h.handed k u hku).1).symm.trans hku, rfl⟩
      · exact Or.inl ⟨b, List.mem_append_right _ (List.mem_singleton_self b), rfl⟩
      · obtain ⟨u, hu, rfl⟩ := List.mem_map.mp ha
        obtain ⟨i, hi, rfl⟩ := List.mem_iff_getElem.mp hu
        have hge : ¬ st.ntables + i < st.ntables := by omega
        have hsub : st.ntables + i - st.ntables = i := by omega
        refine Or.inr ⟨st.ntables + i, _, h.ntables_le.trans (Nat.le_add_right _ _), ?_, rfl⟩
        simp only [Pagemap.supply, if_neg hge, hsub]
        exact List.getElem?_eq_getElem hi
    · rintro (⟨c, hcb, rfl⟩ | ⟨k, u, hk, hku, rfl⟩)
      · rcases List.mem_append.mp hcb with hcb | hcb
        · exact Or.inl (Or.inl (Or.inl ⟨c, hcb, rfl⟩))
        · exact Or.inl (Or.inr (List.mem_singleton.mp hcb ▸ rfl))
      · rcases hsome k u hku with ⟨-, hku⟩ | ⟨-, hku⟩
        · exact Or.inl (Or.inl (Or.inr ⟨k, u, hk, hku, rfl⟩))
        · exact Or.inr (List.mem_map_of_mem (List.mem_of_getElem? hku))
  · -- a block is apart from the tables before it and from those after it
    rcases hsome k u hk with ⟨-, hk⟩ | ⟨-, hk⟩
    · rcases List.mem_append.mp hcb with hcb | hcb
      · exact h.apart c hcb k u hk
      · obtain rfl := List.mem_singleton.mp hcb
        exact fun hin => hb.not_handed hm hblock hin (h.handed k u hk).2
    · intro hin
      have hu := List.mem_of_getElem? hk
      refine hnew.not_handed hm₂ (List.mem_map_of_mem hu) (hbase u hu ▸ Block.base_mem_pages _) ?_
      rcases List.mem_append.mp hcb with hcb | hcb
      · obtain ⟨id, hid⟩ := h.held c hcb
        exact ⟨id, _, hb.stays id _ hid, hin⟩
      · obtain rfl := List.mem_singleton.mp hcb
        obtain ⟨id, hid⟩ := hb.held _ hblock
        exact ⟨id, _, hid, hin⟩

/-- What the first loop of `map_alloc` leaves. -/
theorem Pagemap.Entered.settled {s : Paging} (hs : s.Backed pm hhdm live₀ P)
    (hhigh : 0xffff800000000000 ≤ hhdm) (hv : vaddr % fromPageSize ps = 0)
    (h : pm.Entered hhdm ranges vaddr ps (toArch flags cache ps) live₀ s.tables live st l blocks) :
    blocks.length * fromPageSize ps ≤ 2 ^ 48 →
    (∀ k < blocks.length, P (idx (blockAddr vaddr ps k) 0) ∧
      pm.Clear s.tables (blockAddr vaddr ps k) (depth ps)) →
    ∃ tables, pm.Settled hhdm P vaddr ps (toArch flags cache ps) s.tables live st l blocks tables := by
  induction h with
  | nil => exact fun _ _ => ⟨_, hs.settled vaddr ps _⟩
  | concat h hm hb hm₂ hpages hget hpre hn hnew ih =>
      intro hlen hrange
      rw [List.length_append, List.length_singleton] at hlen hrange
      obtain ⟨tables, hsettled⟩ := ih ((Nat.mul_le_mul_right _ (Nat.le_succ _)).trans hlen)
        fun k hk => hrange k (Nat.lt_succ_of_lt hk)
      exact ⟨_, hsettled.concat hhigh hv hlen (fun k hk => (hrange k (Nat.lt_succ_of_le hk)).1)
        (hrange _ (Nat.lt_succ_self _)).2 hm hb hm₂ hpages hget hpre hn hnew⟩

end Settled

/-! ## One page of `unmap_dealloc` -/

section Page

variable {pm : Pagemap} {tables : ℕ → Option ℕ} {P : ℕ → Prop} {ps : PageSize} {st : Tables} {v : ℕ}
  {e : BitVec 64}

theorem Pagemap.withTables_translate (pm : Pagemap) (tables : ℕ → Option ℕ) (v : ℕ) (ps : PageSize)
    (st : Tables) : (pm.withTables tables).translate v ps st = pm.translate v ps st := by
  have hfix : (pm.withTables tables).fixpsize ps = pm.fixpsize ps := rfl
  have hget : (pm.withTables tables).getpte v (pm.fixpsize ps) false st =
      pm.getpte v (pm.fixpsize ps) false st := pm.getpteFrom_false tables v _
  rw [Pagemap.translate, Pagemap.translate, hfix, hget]

theorem Pagemap.withTables_unmap (pm : Pagemap) (tables : ℕ → Option ℕ) (fuel v length : ℕ)
    (ps : PageSize) (st : Tables) :
    (pm.withTables tables).unmap fuel v length ps st = pm.unmap fuel v length ps st := by
  have hpage : ∀ ps, (pm.withTables tables).unmapPage v ps = pm.unmapPage v ps := by
    intro ps
    funext i st
    have hget : (pm.withTables tables).getpte ((v + i) % 2 ^ 64) ps false st =
        pm.getpte ((v + i) % 2 ^ 64) ps false st := pm.getpteFrom_false tables _ _
    rw [Pagemap.unmapPage, Pagemap.unmapPage, hget]
  rw [Pagemap.unmap, Pagemap.unmap, hpage]
  rfl

/-- `translate` of a page whose entry is there, and what it leaves. -/
theorem Pagemap.Wf.translate_holds (h : pm.Wf st P) (hfix : pm.fixpsize ps = ps)
    (hc : pm.Clear st v (depth ps)) (hold : pm.Holds st v ps e) (hv : v % fromPageSize ps = 0)
    (hcanon : isCanonical (getaddr e) = true) :
    ∃ st₁, pm.translate v ps st = .ok (st₁, .ok (getaddr e)) ∧ pm.Extends P st st₁ := by
  obtain ⟨t, hw, he⟩ := hold
  obtain ⟨st₁, hext, hmem, ⟨t', hw', hget⟩ | ⟨hw', -⟩⟩ := h.getpte_walk ps hc
  · obtain rfl : t' = t := Option.some.inj (hw'.symm.trans hw)
    refine ⟨st₁, ?_, hext⟩
    rw [Pagemap.translate, hfix, if_neg (not_not.mpr hv), hget]
    simp only [hmem, he, hcanon]
    rfl
  · cases hw.symm.trans hw'

/-- `unmap` of a single page. -/
theorem Pagemap.Wf.unmap_page (h : pm.Wf st P) (hfix : pm.fixpsize ps = ps) (hP : P (idx v 0))
    (hc : pm.Clear st v (depth ps)) (hv : v % fromPageSize ps = 0) (hlt : v < 2 ^ 64) :
    ∃ st₁, (∀ fuel, 2 ≤ fuel → pm.unmap fuel v (fromPageSize ps) ps st = .ok (st₁, .ok ())) ∧
      pm.Sets P v (depth ps) 0#64 st st₁ := by
  have hv0 : v = (v + 0) % 2 ^ 64 := (Nat.mod_eq_of_lt hlt).symm
  obtain ⟨st₁, hpage, hset⟩ := h.unmapPage ps hv0 hP hc
  refine ⟨st₁, fun fuel hfuel => ?_, hset⟩
  obtain ⟨n, rfl⟩ := Nat.exists_eq_add_of_le' hfuel
  have hmod : (0 + fromPageSize ps) % 2 ^ 64 = fromPageSize ps := by
    rw [Nat.zero_add]
    cases ps <;> rfl
  rw [Pagemap.unmap, hfix, if_neg (not_not.mpr hv), forPages, if_pos (fromPageSize_pos ps), hpage]
  dsimp only
  rw [hmod]
  exact if_neg (lt_irrefl _)

/-- One turn of `unmap_dealloc` unmaps a page and gives its address to the allocator. -/
theorem Paging.unmapDeallocPage_spec {s : Paging} (h : (pm.withTables tables).Wf s.tables P)
    (hfix : pm.fixpsize ps = ps) {vaddr i : ℕ} (hveq : v = (vaddr + i) % 2 ^ 64) (hP : P (idx v 0))
    (hc : pm.Clear s.tables v (depth ps)) (hold : pm.Holds s.tables v ps e) (hv : v % fromPageSize ps = 0)
    (hcanon : isCanonical (getaddr e) = true) :
    ∃ st, (pm.withTables tables).Sets P v (depth ps) 0#64 s.tables st ∧
      ∀ hhdm fuel, 2 ≤ fuel → s.unmapDeallocPage pm hhdm fuel vaddr ps i =
        ((s.phys.free hhdm (getaddr e) 1).mapError .phys).map
          fun phys => ({ s with tables := st, phys := phys }, .ok ()) := by
  have hlt : v < 2 ^ 64 := hveq ▸ Nat.mod_lt _ (Nat.two_pow_pos 64)
  obtain ⟨st₁, htranslate, hext⟩ := h.translate_holds hfix hc hold hv hcanon
  obtain ⟨st₂, hunmap, hset⟩ := hext.wf.unmap_page hfix hP
    (hext.clear v _ hP (depth_lt ps) hc) hv hlt
  refine ⟨st₂, hext.sets (depth_lt ps) hset, fun hhdm fuel hfuel => ?_⟩
  have hunmap := hunmap fuel hfuel
  rw [pm.withTables_translate] at htranslate
  rw [pm.withTables_unmap] at hunmap
  rw [Paging.unmapDeallocPage, ← hveq, htranslate]
  simp only [Except.mapError, Except.ok_bind, hunmap]
  cases s.phys.free hhdm (getaddr e) 1 <;> rfl

end Page

/-! ## The addresses that `unmap_dealloc` gives back -/

section Address

variable {hhdm b : ℕ} {ranges live : Pmm.ZoneId → List (ℕ × ℕ)} {m : Pmm.Memory} {id : Pmm.ZoneId}
  {ps : PageSize}

/-- A block of a page size that the allocator has handed out. -/
theorem block_spec (h : m.Sound hhdm ranges live) (hhigh : 0xffff800000000000 ≤ hhdm)
    (hb : (b, divRoundup (fromPageSize ps) Pmm.pageSize) ∈ live id)
    (hphys : fromhh hhdm (tohh hhdm b) = b) :
    b + fromPageSize ps ≤ 2 ^ 47 ∧ fromPageSize ps ∣ b ∧
      ∀ x, x ∈ (Pmm.blockAt hhdm (b, divRoundup (fromPageSize ps) Pmm.pageSize)).pages ↔
        b ≤ x * Pmm.pageSize ∧ x * Pmm.pageSize < b + fromPageSize ps := by
  have hfirst := h.tohh_eq hb
  have hfits := h.fits hb
  obtain ⟨-, hbound, -⟩ := hfits.bounds
  obtain ⟨c, hcc⟩ := hfits.aligned
  have hsize := npages_order ps
  rw [Pmm.blockAt_order] at hbound hcc
  rw [Pmm.ZoneId.zone_hhdm] at hbound
  rw [hfirst, fromhh_add] at hphys
  refine ⟨?_, ⟨c, ?_⟩, fun x => ?_⟩
  · rw [Nat.add_mul, hsize, hphys] at hbound
    omega
  · exact hphys.symm.trans ((congrArg (· * Pmm.pageSize) hcc).trans ((Nat.mul_right_comm _ _ _).trans
      (congrArg (· * c) hsize)))
  · rw [Block.mem_pages, Pmm.blockAt_order]
    simp only [Pmm.pageSize] at hphys hsize ⊢
    omega

/-- The address in the entry of a block lies in the block. -/
theorem entry_address (h : m.Sound hhdm ranges live) (hhigh : 0xffff800000000000 ≤ hhdm)
    (hb : (b, divRoundup (fromPageSize ps) Pmm.pageSize) ∈ live id)
    (hphys : fromhh hhdm (tohh hhdm b) = b) (flags : Pflag) (cache : Caching) :
    isCanonical (getaddr (mapEntry (b % 2 ^ 64) (toArch flags cache ps))) = true ∧
    (ps = .small → getaddr (mapEntry (b % 2 ^ 64) (toArch flags cache ps)) = b) ∧
    ∃ x ∈ (Pmm.blockAt hhdm (b, divRoundup (fromPageSize ps) Pmm.pageSize)).pages,
      fromhh hhdm (getaddr (mapEntry (b % 2 ^ 64) (toArch flags cache ps))) = x * Pmm.pageSize := by
  obtain ⟨hlt, hdvd, hpages⟩ := block_spec h hhigh hb hphys
  have hpos := fromPageSize_pos ps
  have hpage : 0x1000 ∣ b := by
    refine Nat.dvd_trans ?_ hdvd
    cases ps <;> decide
  rw [Nat.mod_eq_of_lt (by omega : b < 2 ^ 64)]
  obtain ⟨a, ha⟩ : ∃ a, a = getaddr (mapEntry b (toArch flags cache ps)) := ⟨_, rfl⟩
  have hsmall : ps = .small → a = b := by
    rintro rfl
    rw [ha]
    exact getaddr_mk hpage (by omega) (toArch_small_paMask flags cache)
  have hbounds : b ≤ a ∧ a < b + fromPageSize ps := by
    by_cases hs : ps = .small
    · rw [hsmall hs]
      omega
    · -- above the bits of a larger page the address is that of the block
      have hshift : a >>> 21 = b >>> 21 := by
        rw [ha, mapEntry, getaddr_setflags_shiftRight _ (toArch_shiftRight flags cache hs),
          getaddr_setaddr, getaddr_ofNat hpage (by omega)]
      have hmedium : 2 ^ 21 ∣ b ∧ 2 ^ 21 ≤ fromPageSize ps := by
        cases ps with
        | small => exact absurd rfl hs
        | medium => exact ⟨hdvd, le_rfl⟩
        | large => exact ⟨Nat.dvd_trans (by decide) hdvd, by decide⟩
      rw [Nat.shiftRight_eq_div_pow, Nat.shiftRight_eq_div_pow] at hshift
      omega
  have hmod := getaddr_mod (mapEntry b (toArch flags cache ps))
  rw [← ha] at hmod ⊢
  refine ⟨isCanonical_of_lt (by omega), hsmall, a / Pmm.pageSize, (hpages _).mpr ?_, ?_⟩
  · simp only [Pmm.pageSize]
    omega
  · rw [fromhh, ishh, if_pos]
    · simp only [Pmm.pageSize]
      omega
    · simp only [Bool.not_eq_true', decide_eq_false_iff_not, not_le]
      omega

end Address

/-! ## The loop of `unmap_dealloc` -/

/-- `unmap_dealloc` of small pages has given back the blocks `done`, and those of `todo` are left. -/
structure Paging.Unmapping (pm : Pagemap) (hhdm : ℕ) (ranges live : Pmm.ZoneId → List (ℕ × ℕ))
    (P : ℕ → Prop) (vaddr : ℕ) (aflags : BitVec 64) (s s' : Paging) (done todo : List ℕ) : Prop where
  wf : pm.Wf s'.tables P
  clear : ∀ v, P (idx v 0) → pm.Clear s.tables v (depth .small) → pm.Clear s'.tables v (depth .small)
  holds : ∀ k b, todo[k]? = some b → pm.Holds s'.tables (blockAddr vaddr .small (done.length + k)) .small
    (mapEntry (b % 2 ^ 64) aflags)
  gone : ∀ w, P (idx w 0) → ∀ k < done.length,
    pathTo w levels = pathTo (blockAddr vaddr .small k) levels → pm.lookup s'.tables w = none
  others : ∀ w, P (idx w 0) → (∀ k < done.length,
    pathTo w levels ≠ pathTo (blockAddr vaddr .small k) levels) →
    pm.lookup s'.tables w = pm.lookup s.tables w
  grows : pm.Grows P s.tables s'.tables
  sound : s'.phys.Sound hhdm ranges live
  held : ∀ b ∈ todo, ∃ id, (b, 1) ∈ live id
  free : ∀ x, s'.phys.FreePage hhdm x ↔ s.phys.FreePage hhdm x ∨
    ∃ b ∈ done, x ∈ (Pmm.blockAt hhdm (b, 1)).pages

section Unmap

variable {pm : Pagemap} {tables : ℕ → Option ℕ} {hhdm vaddr length : ℕ} {P : ℕ → Prop}
  {flags : Pflag} {cache : Caching} {ranges live : Pmm.ZoneId → List (ℕ × ℕ)} {s s' : Paging}
  {done todo : List ℕ} {b : ℕ}

/-- One turn of the loop. -/
theorem Paging.Unmapping.page
    (h : s.Unmapping (pm.withTables tables) hhdm ranges live P vaddr (toArch flags cache .small) s' done
      (b :: todo)) (hnodup : (b :: todo).Nodup) (hhigh : 0xffff800000000000 ≤ hhdm)
    (hv : vaddr % fromPageSize .small = 0)
    (hlen : (done.length + (b :: todo).length) * fromPageSize .small ≤ 2 ^ 48)
    (hP : ∀ k < done.length + (b :: todo).length, P (idx (blockAddr vaddr .small k) 0) ∧
      pm.Clear s.tables (blockAddr vaddr .small k) (depth .small))
    (hphys : fromhh hhdm (tohh hhdm b) = b) {i : ℕ} (hi : i = done.length * fromPageSize .small) :
    ∃ s'' live', (∀ fuel, 2 ≤ fuel →
        s'.unmapDeallocPage pm hhdm fuel vaddr .small i = .ok (s'', .ok ())) ∧
      s.Unmapping (pm.withTables tables) hhdm ranges live' P vaddr (toArch flags cache .small) s''
        (done ++ [b]) todo := by
  subst hi
  have hone : divRoundup (fromPageSize .small) Pmm.pageSize = 1 := by decide
  obtain ⟨hP₀, hc₀⟩ := hP done.length (by
    rw [List.length_cons]
    omega)
  obtain ⟨id, hid⟩ := h.held b List.mem_cons_self
  have hheld : (b, divRoundup (fromPageSize .small) Pmm.pageSize) ∈ live id := hone ▸ hid
  obtain ⟨hcanon, haddr, -⟩ := entry_address h.sound hhigh hheld hphys flags cache
  have hold := h.holds 0 b rfl
  obtain ⟨st, hset, hpage⟩ := Paging.unmapDeallocPage_spec h.wf pm.fixpsize_small rfl hP₀
    (h.clear _ hP₀ hc₀) hold (blockAddr_mod hv _) hcanon
  obtain ⟨m, hfree, hsound, hfreed⟩ := h.sound.release hid
  rw [haddr rfl] at hpage
  have hblock : (vaddr + done.length * fromPageSize .small) % 2 ^ 64 = blockAddr vaddr .small done.length :=
    rfl
  rw [hblock] at hset
  have hinj : ∀ j k, j < done.length + (b :: todo).length → k < done.length + (b :: todo).length →
      pathTo (blockAddr vaddr .small j) levels = pathTo (blockAddr vaddr .small k) levels → j = k := by
    intro j k hj hk heq
    have hsize := fromPageSize_pos .small
    have hlt : ∀ i < done.length + (b :: todo).length, i * fromPageSize .small < 2 ^ 48 := fun i hi =>
      ((Nat.mul_lt_mul_right hsize).mpr hi).trans_le hlen
    exact blockAddr_inj hv (hlt j hj) (hlt k hk) heq
  rw [List.length_cons] at hinj hP
  refine ⟨{ s' with tables := st, phys := m },
    Function.update live id ((live id).erase (b, 1)), fun fuel hfuel => ?_, ⟨hset.wf, ?_, ?_, ?_, ?_,
      h.grows.trans (hset.grows rfl), hsound, ?_, fun x => ?_⟩⟩
  · rw [hpage hhdm fuel hfuel, hfree]
    rfl
  · exact fun v hPv hcv => hset.clear v _ hPv le_rfl (h.clear v hPv hcv)
  · intro k c hk
    obtain ⟨hlt, -⟩ := List.getElem?_eq_some_iff.mp hk
    have hnext := h.holds (k + 1) c hk
    rw [List.length_append, List.length_singleton, Nat.add_assoc, Nat.add_comm 1 k]
    refine hset.holds_other (hP _ (by omega)).1 (fun heq => ?_) (.mapEntry _ flags cache .small) hnext
    have := hinj _ _ (by omega) (by omega) heq
    omega
  · intro w hPw k hk heq
    rw [List.length_append, List.length_singleton] at hk
    by_cases hsame : pathTo w levels = pathTo (blockAddr vaddr .small done.length) levels
    · exact hset.lookup_same w hsame
    · have hlt : k < done.length := by
        refine lt_of_le_of_ne (Nat.le_of_lt_succ hk) ?_
        rintro rfl
        exact hsame heq
      exact (hset.lookup_other w hPw hsame).trans (h.gone w hPw k hlt heq)
  · intro w hPw hne
    rw [List.length_append, List.length_singleton] at hne
    exact (hset.lookup_other w hPw (hne _ (Nat.lt_succ_self _))).trans
      (h.others w hPw fun k hk => hne k (Nat.lt_succ_of_lt hk))
  · intro c hc
    obtain ⟨id', hid'⟩ := h.held c (List.mem_cons_of_mem b hc)
    have hne : (c, 1) ≠ (b, 1) := by
      rintro heq
      obtain rfl := (Prod.mk.inj heq).1
      exact (List.nodup_cons.mp hnodup).1 hc
    refine ⟨id', ?_⟩
    by_cases hidd : id' = id
    · subst hidd
      rw [Function.update_self]
      exact (List.mem_erase_of_ne hne).mpr hid'
    · rwa [Function.update_of_ne hidd]
  · rw [hfreed, h.free]
    constructor
    · rintro ((hx | ⟨c, hc, hx⟩) | hx)
      · exact Or.inl hx
      · exact Or.inr ⟨c, List.mem_append_left _ hc, hx⟩
      · exact Or.inr ⟨b, List.mem_append_right _ (List.mem_singleton_self b), hx⟩
    · rintro (hx | ⟨c, hc, hx⟩)
      · exact Or.inl (Or.inl hx)
      · rcases List.mem_append.mp hc with hc | hc
        · exact Or.inl (Or.inr ⟨c, hc, hx⟩)
        · exact Or.inr (List.mem_singleton.mp hc ▸ hx)

/-- The loop gives back all blocks. -/
theorem Paging.Unmapping.loop (hhigh : 0xffff800000000000 ≤ hhdm) (hv : vaddr % fromPageSize .small = 0)
    {blocks : List ℕ} (hcount : blocks.length = turns (fromPageSize .small) length)
    (hlen : blocks.length * fromPageSize .small ≤ 2 ^ 48) (hnodup : blocks.Nodup)
    (hP : ∀ k < blocks.length, P (idx (blockAddr vaddr .small k) 0) ∧
      pm.Clear s.tables (blockAddr vaddr .small k) (depth .small))
    (hphys : ∀ b ∈ blocks, fromhh hhdm (tohh hhdm b) = b) : ∀ {s' live done}, done ++ todo = blocks →
    s.Unmapping (pm.withTables tables) hhdm ranges live P vaddr (toArch flags cache .small) s' done todo →
    ∃ s'' live', (∃ N, ∀ fuel left, N ≤ fuel → N ≤ left → s'.unmapDeallocLoop pm hhdm fuel vaddr length .small
        left (done.length * fromPageSize .small) = .ok (s'', .ok ())) ∧
      s.Unmapping (pm.withTables tables) hhdm ranges live' P vaddr (toArch flags cache .small) s'' blocks
        [] := by
  have hpos := fromPageSize_pos .small
  induction todo with
  | nil =>
      intro s' live done hdone h
      rw [List.append_nil] at hdone
      subst hdone
      refine ⟨s', live, ⟨1, fun fuel left _ hleft => ?_⟩, h⟩
      obtain ⟨left, rfl⟩ := Nat.exists_eq_add_of_le' hleft
      have hend : ¬ done.length * fromPageSize .small < length := by
        rw [← lt_turns hpos]
        omega
      rw [Paging.unmapDeallocLoop, if_neg hend]
      rfl
  | cons b todo ih =>
      intro s' live done hdone h
      subst hdone
      rw [List.length_append] at hcount hlen hP
      have hlt : done.length * fromPageSize .small < length := by
        rw [← lt_turns hpos, ← hcount, List.length_cons]
        omega
      have hb : b ∈ done ++ b :: todo := List.mem_append_right _ List.mem_cons_self
      obtain ⟨s₁, live₁, hpage, h₁⟩ := h.page (List.nodup_append.mp hnodup).2.1 hhigh hv hlen hP
        (hphys b hb) rfl
      rw [← List.length_append] at hcount hlen hP
      obtain ⟨s'', live', ⟨N, hN⟩, h'⟩ := ih (List.append_cons done b todo).symm h₁
      refine ⟨s'', live', ⟨N + 3, fun fuel left hfuel hleft => ?_⟩, h'⟩
      obtain ⟨left, rfl⟩ := Nat.exists_eq_add_of_le' ((Nat.le_add_left 1 _).trans hleft)
      have hnext : (done.length * fromPageSize .small + fromPageSize .small) % 2 ^ 64 =
          (done ++ [b]).length * fromPageSize .small := by
        have hle : (done.length + 1) * fromPageSize .small ≤ 2 ^ 48 := by
          refine (Nat.mul_le_mul_right _ ?_).trans hlen
          rw [List.length_append, List.length_cons]
          omega
        rw [List.length_append, List.length_singleton, Nat.add_mul, Nat.one_mul] at *
        exact Nat.mod_eq_of_lt (by omega)
      rw [Paging.unmapDeallocLoop, if_pos hlt, hpage fuel (by omega)]
      change s₁.unmapDeallocLoop pm hhdm fuel vaddr length .small left
        ((done.length * fromPageSize .small + fromPageSize .small) % 2 ^ 64) = _
      rw [hnext]
      exact hN fuel left (by omega) (by omega)

end Unmap

/-! ## `unmap_dealloc` -/

/-- The range is unmapped, every other address is mapped as it was, and the free pages are those from
before that have not become tables. -/
structure Paging.Undone (pm : Pagemap) (hhdm : ℕ) (P : ℕ → Prop) (vaddr length : ℕ) (ps : PageSize)
    (s s' : Paging) : Prop where
  unmapped : ∀ w, P (idx w 0) → ∀ k < turns (fromPageSize ps) length,
    pathTo w (depth ps + 1) = pathTo (blockAddr vaddr ps k) (depth ps + 1) →
    pm.lookup s'.tables w = none
  others : ∀ w, P (idx w 0) → (∀ k < turns (fromPageSize ps) length,
    pathTo w (depth ps + 1) ≠ pathTo (blockAddr vaddr ps k) (depth ps + 1)) →
    pm.lookup s'.tables w = pm.lookup s.tables w
  free : ∀ x, s'.phys.FreePage hhdm x ↔ s.phys.FreePage hhdm x ∧
    ∀ p ∈ paths P, pm.walk s'.tables p ≠ some (x * Pmm.pageSize)

section Main

variable {pm : Pagemap} {tables : ℕ → Option ℕ} {hhdm vaddr length : ℕ} {P : ℕ → Prop} {ps : PageSize}
  {flags : Pflag} {cache : Caching} {aflags : BitVec 64} {ranges live live' live'' : Pmm.ZoneId → List (ℕ × ℕ)}
  {s s₁ s' s'' : Paging} {l : List (ℕ × ℕ)} {blocks : List ℕ}

/-- Physical memory ends below the direct map, so the range of a chain of blocks is short. -/
theorem chain_bytes_le {n : ℕ} {m m' : Pmm.Memory} (hhigh : 0xffff800000000000 ≤ hhdm)
    (h : m.Chain hhdm n ranges live live' m' l blocks) :
    blocks.length * 2 ^ Pmm.orderFor n ≤ 2 ^ 35 := by
  have hdisj := h.disjoint
  have hnodup : (blocks.map fun b => Pmm.blockAt hhdm (b, n)).Nodup := by
    refine List.pairwise_map.mpr (hdisj.imp fun {b c} hbc heq => ?_)
    rw [heq] at hbc
    exact Set.disjoint_left.mp hbc (Block.base_mem_pages _) (Block.base_mem_pages _)
  have hpair : {b | b ∈ blocks.map fun b => Pmm.blockAt hhdm (b, n)}.PairwiseDisjoint Block.pages := by
    intro x hx y hy hne
    obtain ⟨b, hb, rfl⟩ := List.mem_map.mp hx
    obtain ⟨c, hc, rfl⟩ := List.mem_map.mp hy
    have hsymm : Std.Symm fun b c => Disjoint (Pmm.blockAt hhdm (b, n)).pages
        (Pmm.blockAt hhdm (c, n)).pages := ⟨fun _ _ hbc => hbc.symm⟩
    exact hdisj.forall hb hc fun heq => hne (by rw [heq])
  have hle := Block.sum_pages_le (N := 2 ^ 35) hnodup hpair fun x hx => by
    obtain ⟨b, hb, rfl⟩ := List.mem_map.mp hx
    obtain ⟨id, hid, -⟩ := h.first hb
    obtain ⟨-, hbound, -⟩ := (h.takes.sound.fits hid).bounds
    rw [Pmm.ZoneId.zone_hhdm] at hbound
    simp only [Pmm.pageSize] at hbound
    omega
  have hsum : ((blocks.map fun b => Pmm.blockAt hhdm (b, n)).map fun b => 2 ^ b.order).sum =
      blocks.length * 2 ^ Pmm.orderFor n := by
    simp [Function.comp_def, Pmm.blockAt_order]
  rwa [hsum] at hle

/-- `map_alloc` of nothing, and `unmap_dealloc` of nothing. -/
theorem Paging.undone_zero (hs : s.Backed pm hhdm live P) (h₀ : s.phys.Sound hhdm ranges live) :
    s.Undone pm hhdm P vaddr 0 ps s := by
  have hturns : turns (fromPageSize ps) 0 = 0 := by
    rw [turns, Nat.zero_add]
    exact Nat.div_eq_of_lt (Nat.sub_lt (fromPageSize_pos ps) Nat.one_pos)
  refine ⟨fun w _ k hk => ?_, fun w _ _ => rfl, fun x => ⟨fun hx => ⟨hx, fun p hp hw => ?_⟩, And.left⟩⟩
  · rw [hturns] at hk
    exact absurd hk (Nat.not_lt_zero k)
  · -- a table is not free
    refine (h₀.freePage_iff.mp hx).2 ?_
    rw [← Nat.mul_div_cancel x (by decide : 0 < Pmm.pageSize)]
    rcases hs.wf.owned p hp _ hw with heq | ⟨k, hk, hk'⟩
    · rw [heq]
      exact hs.root
    · exact hs.tables k hk _ hk'

/-- The state after the loop over all blocks. -/
theorem Paging.Unmapping.undone (hs : s.Backed pm hhdm live P) (h₀ : s.phys.Sound hhdm ranges live)
    (hhigh : 0xffff800000000000 ≤ hhdm) (htakes : s.phys.Takes hhdm ranges live live' s'.phys l)
    (hsettled : pm.Settled hhdm P vaddr .small aflags s.tables live' s'.tables l blocks tables)
    (hcount : blocks.length = turns (fromPageSize .small) length)
    (h : s'.Unmapping (pm.withTables tables) hhdm ranges live'' P vaddr aflags s'' blocks []) :
    s.Undone pm hhdm P vaddr length .small s'' := by
  have hone : divRoundup (fromPageSize .small) Pmm.pageSize = 1 := by decide
  have hgrows := (hsettled.grows rfl).trans h.grows
  have hpage : ∀ k t, s.tables.ntables ≤ k → tables k = some t → ∀ x,
      x ∈ (Pmm.blockAt hhdm (t, 1)).pages ↔ t = x * Pmm.pageSize := by
    intro k t hk ht
    have ha : (t, 1) ∈ l := (hsettled.given _).mpr (Or.inr ⟨k, t, hk, ht, rfl⟩)
    obtain ⟨id, hid⟩ := htakes.held _ ha
    exact (page_spec htakes.sound hhigh hid (htakes.phys _ ha)).2.2.2
  refine ⟨fun w hPw k hk heq => h.gone w hPw k (hcount ▸ hk) heq, fun w hPw hne => ?_, fun x => ?_⟩
  · exact (h.others w hPw fun k hk => hne k (hcount ▸ hk)).trans
      (hsettled.others w hPw fun k hk => hne k (hcount ▸ hk))
  rw [h.free, htakes.free]
  constructor
  · intro hx
    have hfree : s.phys.FreePage hhdm x := by
      rcases hx with ⟨hx, -⟩ | ⟨b, hb, hx⟩
      · exact hx
      · exact htakes.was (b, 1) ((hsettled.given _).mpr (Or.inl ⟨b, hb, by rw [hone]⟩)) x hx
    refine ⟨hfree, fun p hp hw => ?_⟩
    rcases hgrows.back p hp _ hw with hw | ⟨k, hk, -, ht⟩
    · -- a table from before was handed out
      refine (h₀.freePage_iff.mp hfree).2 ?_
      rw [← Nat.mul_div_cancel x (by decide : 0 < Pmm.pageSize)]
      rcases hs.wf.owned p hp _ hw with heq | ⟨k, hk, hk'⟩
      · rw [heq]
        exact hs.root
      · exact hs.tables k hk _ hk'
    · -- a new table is none of the blocks
      have hin := (hpage k _ hk ht x).mpr rfl
      rcases hx with ⟨-, hout⟩ | ⟨b, hb, hx⟩
      · exact hout _ ((hsettled.given _).mpr (Or.inr ⟨k, _, hk, ht, rfl⟩)) hin
      · refine hsettled.apart b hb k _ ht ?_
        rwa [hone, Nat.mul_div_cancel x (by decide : 0 < Pmm.pageSize)]
  · rintro ⟨hx, hno⟩
    by_cases hb : ∃ b ∈ blocks, x ∈ (Pmm.blockAt hhdm (b, 1)).pages
    · exact Or.inr hb
    · refine Or.inl ⟨hx, fun a ha hxa => ?_⟩
      rcases (hsettled.given a).mp ha with ⟨b, hbb, rfl⟩ | ⟨k, t, hk, ht, rfl⟩
      · rw [hone] at hxa
        exact hb ⟨b, hbb, hxa⟩
      · obtain ⟨p, hp, -, hw⟩ := hgrows.reached k hk ((hsettled.handed k t ht).1.trans_le
          h.grows.ntables_le) t ht
        exact hno p hp (hw.trans (congrArg some ((hpage k t hk ht x).mp hxa)))

/-- What a successful `map_alloc` leaves: the pages that it took are the blocks and the new tables. -/
theorem Paging.mapAlloc_settled {size : PageSize} (h₀ : s.phys.Sound hhdm ranges live)
    (hhigh : 0xffff800000000000 ≤ hhdm) (hs : s.Backed pm hhdm live P)
    (hv : vaddr % fromPageSize (pm.fixpsize size) = 0)
    (hrange : ∀ k < turns (fromPageSize (pm.fixpsize size)) length,
      P (idx (blockAddr vaddr (pm.fixpsize size) k) 0) ∧
      pm.Clear s.tables (blockAddr vaddr (pm.fixpsize size) k) (depth (pm.fixpsize size)))
    (hret : Returns (fun fuel => s.mapAlloc pm hhdm fuel vaddr length flags size cache) (s', .ok ())) :
    ∃ live' l blocks tables, s.phys.Takes hhdm ranges live live' s'.phys l ∧
      pm.Settled hhdm P vaddr (pm.fixpsize size) (toArch flags cache (pm.fixpsize size)) s.tables live'
        s'.tables l blocks tables ∧
      blocks.length = turns (fromPageSize (pm.fixpsize size)) length ∧
      blocks.length * fromPageSize (pm.fixpsize size) ≤ 2 ^ 48 ∧ blocks.Nodup ∧
      ∀ b ∈ blocks, fromhh hhdm (tohh hhdm b) = b := by
  rcases Paging.mapAlloc_loop h₀ (fun _ => hv) flags cache with hstop | hstop | ⟨s₁, s₂, live', l, blocks,
    hret', hmapping, hcount, htakes, htables, -⟩
  · exact absurd hstop hret.not_stops
  · exact absurd hstop hret.not_stops
  obtain rfl : s' = s₂ := congrArg Prod.fst (hret.unique hret')
  have hbytes : blocks.length * fromPageSize (pm.fixpsize size) ≤ 2 ^ 48 := by
    have hle := chain_bytes_le hhigh hmapping.chain
    rw [← npages_order, ← Nat.mul_assoc]
    exact (Nat.mul_le_mul_right _ hle).trans (by decide)
  rw [← hcount] at hrange
  obtain ⟨tables, hsettled⟩ := hmapping.entered.settled hs hhigh hv hbytes hrange
  rw [← htables] at hsettled
  exact ⟨live', l, blocks, tables, htakes, hsettled, hcount, hbytes, List.Nodup.of_map _ hmapping.chain.nodup,
    fun b hb => hmapping.chain.takes.phys _ (hmapping.chain.mem hb)⟩

/-- A block of a larger page is not given back by its first page. -/
theorem Paging.unmapDealloc_stops {size : PageSize} (h₀ : s.phys.Sound hhdm ranges live)
    (hhigh : 0xffff800000000000 ≤ hhdm) (hs : s.Backed pm hhdm live P)
    (hv : vaddr % fromPageSize (pm.fixpsize size) = 0)
    (hrange : ∀ k < turns (fromPageSize (pm.fixpsize size)) length,
      P (idx (blockAddr vaddr (pm.fixpsize size) k) 0) ∧
      pm.Clear s.tables (blockAddr vaddr (pm.fixpsize size) k) (depth (pm.fixpsize size)))
    (hret : Returns (fun fuel => s.mapAlloc pm hhdm fuel vaddr length flags size cache) (s', .ok ()))
    (hlen : 0 < length) (hne : pm.fixpsize size ≠ .small) :
    Stops (fun fuel => s'.unmapDealloc pm hhdm fuel vaddr length size) (.phys .bug) := by
  obtain ⟨live', l, blocks, tables, htakes, hsettled, hcount, -, -, hphys⟩ :=
    Paging.mapAlloc_settled h₀ hhigh hs hv hrange hret
  have hpos : 0 < turns (fromPageSize (pm.fixpsize size)) length := by
    rw [lt_turns (fromPageSize_pos _), Nat.zero_mul]
    exact hlen
  obtain ⟨b, hb⟩ : ∃ b, blocks[0]? = some b := ⟨_, List.getElem?_eq_getElem (hcount ▸ hpos)⟩
  obtain ⟨hP, hc⟩ := hrange 0 hpos
  obtain ⟨ps, hps⟩ : ∃ ps, ps = pm.fixpsize size := ⟨_, rfl⟩
  have hfix : pm.fixpsize ps = ps := by rw [hps, pm.fixpsize_fixpsize]
  rw [← hps] at hv hne hsettled hP hc
  obtain ⟨id, hid⟩ := hsettled.held b (List.mem_of_getElem? hb)
  obtain ⟨hcanon, -, x, hx, haddr⟩ := entry_address htakes.sound hhigh hid
    (hphys b (List.mem_of_getElem? hb)) flags cache
  have horder : Pmm.orderFor (divRoundup (fromPageSize ps) Pmm.pageSize) ≠ 0 := by
    cases ps with
    | small => exact absurd rfl hne
    | medium => decide
    | large => decide
  have hfree := htakes.sound.free_one hid horder hx haddr
  have hveq : blockAddr vaddr ps 0 = (vaddr + 0) % 2 ^ 64 := by rw [blockAddr, Nat.zero_mul]
  obtain ⟨st, -, hpage⟩ := Paging.unmapDeallocPage_spec hsettled.wf hfix hveq hP (hsettled.clear _ hP hc)
    (hsettled.holds 0 b hb) (blockAddr_mod hv 0) hcanon
  refine ⟨2, fun fuel hfuel => ?_⟩
  have hrun := hpage hhdm fuel hfuel
  rw [hfree] at hrun
  obtain ⟨n, rfl⟩ := Nat.exists_eq_add_of_le' hfuel
  dsimp only
  rw [Paging.unmapDealloc, ← hps, Paging.unmapDeallocLoop, if_pos hlen, hrun]
  rfl

end Main

/-- After `map_alloc` of a range, `unmap_dealloc` of the range undoes it if and only if the range is empty or
its pages are small. Of a larger page it gives the first 4 KiB back, and the allocator panics because the
block has another size. -/
theorem unmap_dealloc_undoes_iff {pm : Pagemap} {hhdm vaddr length : ℕ} {P : ℕ → Prop}
    {ranges live : Pmm.ZoneId → List (ℕ × ℕ)} {m₀ : Pmm.Memory} (hready : m₀.Ready hhdm ranges)
    {s s' : Paging} (hreach : (Pmm.Ledger.system hhdm m₀).Reachable ⟨s.phys, live⟩)
    (hhigh : 0xffff800000000000 ≤ hhdm) (hs : s.Backed pm hhdm live P) {flags : Pflag} {size : PageSize}
    {cache : Caching} (hv : vaddr % fromPageSize (pm.fixpsize size) = 0)
    (hrange : ∀ k < turns (fromPageSize (pm.fixpsize size)) length,
      P (idx (blockAddr vaddr (pm.fixpsize size) k) 0) ∧
      pm.Clear s.tables (blockAddr vaddr (pm.fixpsize size) k) (depth (pm.fixpsize size)))
    (hret : Returns (fun fuel => s.mapAlloc pm hhdm fuel vaddr length flags size cache) (s', .ok ())) :
    (∃ s'', Returns (fun fuel => s'.unmapDealloc pm hhdm fuel vaddr length size) (s'', .ok ()) ∧
      s.Undone pm hhdm P vaddr length (pm.fixpsize size) s'') ↔
      length = 0 ∨ pm.fixpsize size = .small := by
  have h₀ : s.phys.Sound hhdm ranges live := Pmm.Ledger.sound_of_reachable hready hreach
  by_cases hlen : length = 0
  · subst hlen
    have hmap : Returns (fun fuel => s.mapAlloc pm hhdm fuel vaddr 0 flags size cache) (s, .ok ()) := by
      refine ⟨1, fun fuel hfuel => ?_⟩
      obtain ⟨n, rfl⟩ := Nat.exists_eq_add_of_le' hfuel
      rfl
    obtain rfl : s' = s := congrArg Prod.fst (hret.unique hmap)
    refine iff_of_true ⟨s', ⟨1, fun fuel hfuel => ?_⟩, Paging.undone_zero hs h₀⟩ (Or.inl rfl)
    obtain ⟨n, rfl⟩ := Nat.exists_eq_add_of_le' hfuel
    rfl
  constructor
  · rintro ⟨s'', hret'', -⟩
    by_contra hnot
    exact hret''.not_stops (Paging.unmapDealloc_stops h₀ hhigh hs hv hrange hret (Nat.pos_of_ne_zero hlen)
      fun hsmall => hnot (Or.inr hsmall))
  · intro hcond
    have hsmall := hcond.resolve_left hlen
    have hone : divRoundup (fromPageSize .small) Pmm.pageSize = 1 := by decide
    obtain ⟨live', l, blocks, tables, htakes, hsettled, hcount, hbytes, hnodup, hphys⟩ :=
      Paging.mapAlloc_settled h₀ hhigh hs hv hrange hret
    rw [← hcount] at hrange
    rw [hsmall] at hsettled hrange hbytes hcount hv ⊢
    have hstart : s'.Unmapping (pm.withTables tables) hhdm ranges live' P vaddr (toArch flags cache .small) s'
        [] blocks := by
      refine ⟨hsettled.wf, fun _ _ hc => hc, fun k b hk => ?_, fun w _ k hk => absurd hk (Nat.not_lt_zero k),
        fun _ _ _ => rfl, .of_walk rfl fun _ _ => rfl, htakes.sound, fun b hb => hone ▸ hsettled.held b hb,
        fun x => ⟨Or.inl, fun hx => hx.resolve_right ?_⟩⟩
      · rw [List.length_nil, Nat.zero_add]
        exact hsettled.holds k b hk
      · rintro ⟨b, hb, -⟩
        cases hb
    obtain ⟨s'', live'', ⟨N, hN⟩, hdone⟩ := hstart.loop hhigh hv hcount hbytes hnodup
      (fun k hk => ⟨(hrange k hk).1, hsettled.clear _ (hrange k hk).1 (hrange k hk).2⟩) hphys
      (List.nil_append blocks)
    refine ⟨s'', ⟨N, fun fuel hfuel => ?_⟩, hdone.undone hs h₀ hhigh htakes hsettled hcount⟩
    have hrun := hN fuel fuel hfuel hfuel
    rw [List.length_nil, Nat.zero_mul] at hrun
    dsimp only
    rw [Paging.unmapDealloc, hsmall, hrun]

/-- `map_alloc` of a single page, from what its calls return. -/
theorem Paging.mapAlloc_one {pm : Pagemap} {hhdm vaddr length : ℕ} {ps : PageSize} {s : Paging}
    {phys₁ phys₂ : Pmm.Memory} {id : Pmm.ZoneId} {p t j : ℕ}
    {st : Tables} {pages : List ℕ} (hfix : pm.fixpsize ps = ps) (hv : vaddr % fromPageSize ps = 0)
    (hvaddr : vaddr < 2 ^ 64) (hpos : 0 < length) (hlen : length ≤ fromPageSize ps)
    (flags : Pflag) (cache : Caching)
    (halloc : ∀ fuel, s.phys.alloc hhdm (fuel + 1) (divRoundup (fromPageSize ps) Pmm.pageSize) .normal =
      .ok (phys₁, some (id, p)))
    (hget : ∀ fuel, (Paging.pagemap pm hhdm fuel { s with phys := phys₁ }).getpte vaddr ps true s.tables =
      .ok (st, .ok (t, j)))
    (htake : ∀ fuel, takePages hhdm fuel s.flag (st.ntables - s.tables.ntables) phys₁ =
      .ok (phys₂, pages))
    (hnode : (phys₂.node hhdm (tohh hhdm p)).prev = none) :
    ∃ s', Returns (fun fuel => s.mapAlloc pm hhdm fuel vaddr length flags ps cache) (s', .ok ()) := by
  obtain ⟨tables, htables⟩ : ∃ tables,
      tables = st.write t j (mapEntry (p % 2 ^ 64) (toArch flags cache ps)) := ⟨_, rfl⟩
  refine ⟨Paging.memset hhdm (tohh hhdm p) (divRoundup (fromPageSize ps) Pmm.pageSize * Pmm.pageSize)
    { s with tables := tables, phys := phys₂, mapped := (vaddr, p) :: s.mapped }, 3, fun fuel hfuel => ?_⟩
  obtain ⟨n, rfl⟩ := Nat.exists_eq_add_of_le' hfuel
  have hmod : (vaddr + 0) % 2 ^ 64 = vaddr := Nat.mod_eq_of_lt hvaddr
  have hmap : Paging.map pm hhdm (n + 3) vaddr p (fromPageSize ps) flags ps cache { s with phys := phys₁ } =
      .ok ({ s with tables := tables, phys := phys₂ }, .ok ()) := by
    have hrun : (Paging.pagemap pm hhdm (n + 3) { s with phys := phys₁ }).map (n + 3) vaddr p
        (fromPageSize ps) flags ps cache s.tables = .ok (tables, .ok ()) := by
      rw [(Paging.pagemap pm hhdm (n + 3) { s with phys := phys₁ }).map_page hfix hv (by omega),
        Nat.mod_eq_of_lt hvaddr, hget, htables]
    have hn : tables.ntables = st.ntables := by rw [htables, Tables.write]
    have hflag : Paging.flag { s with phys := phys₁ } = s.flag := rfl
    simp only [Paging.map, hrun, hn, hflag, htake, Except.mapError, Except.ok_bind]
    rfl
  have hsize : (0 + fromPageSize ps) % 2 ^ 64 = fromPageSize ps := by
    rw [Nat.zero_add]
    cases ps <;> rfl
  dsimp only
  rw [Paging.mapAlloc, hfix, Paging.mapAllocLoop, if_pos hpos, Paging.mapAllocPage, halloc (n + 2)]
  simp only [Except.mapError, Except.ok_bind, Option.map_some, Option.getD_some, Paging.append,
    hmod, hmap, hsize]
  simp only [pure, Except.pure]
  simp only [Except.ok_bind]
  rw [Paging.mapAllocLoop, if_neg (not_lt.mpr hlen)]
  simp only [pure, Except.pure, Except.ok_bind, Option.map_some]
  rw [Paging.clearList]
  simp only [Paging.next, hnode]
  rfl


/-- Eight free pages and a free block of 2 MiB. -/
def largeMemory : Pmm.Memory where
  zones
    | .sub4gib => (Pmm.addRange (Pmm.ZoneId.zone 0xffff800000000000 .sub4gib) 0x400000 0x200000
        (Pmm.addRange (Pmm.ZoneId.zone 0xffff800000000000 .sub4gib) 0x100000 0x8000 Pmm.State.initial).1).1
    | _ => Pmm.State.initial
  used := 0


def largeRanges : Pmm.ZoneId → List (ℕ × ℕ)
  | .sub4gib => [(0x400000, 0x200000), (0x100000, 0x8000)]
  | _ => []

theorem largeMemory_ready : largeMemory.Ready 0xffff800000000000 largeRanges where
  aligned := by decide
  zones id := by
    cases id with
    | sub1mib => exact .init ⟨rfl, rfl, rfl, rfl⟩
    | sub4gib =>
        have h₀ : ((Pmm.ZoneId.zone 0xffff800000000000 .sub4gib).system
            (Pmm.ZoneId.zone 0xffff800000000000 .sub4gib).window).Reachable ⟨Pmm.State.initial, [], []⟩ :=
          .init ⟨rfl, rfl, rfl, rfl⟩
        have h₁ := h₀.step (l := Pmm.Op.addRange 0x100000 0x8000)
          ⟨by simp only [Pmm.Zone.Allowed]; decide, rfl⟩
        exact h₁.step (l := Pmm.Op.addRange 0x400000 0x200000)
          ⟨by simp only [Pmm.Zone.Allowed]; decide, rfl⟩
    | normal => exact .init ⟨rfl, rfl, rfl, rfl⟩
  used := by decide

/-- A page map whose root is the first page taken from `largeMemory`. -/
def largePagemap : Pagemap := ⟨0x107000, fun _ => none, true⟩

/-- No page is mapped. -/
def largePaging (phys : Pmm.Memory) : Paging := ⟨Tables.empty, phys, true, fun _ => 0xff, [], []⟩

def largeLive : Pmm.ZoneId → List (ℕ × ℕ)
  | .sub4gib => [(0x107000, 1)]
  | _ => []

theorem largePaging_backed (phys : Pmm.Memory) :
    (largePaging phys).Backed largePagemap 0xffff800000000000 largeLive (· < 512) where
  fresh := ⟨nofun, nofun, nofun, nofun⟩
  wf := (Pagemap.UniformWf.of_empty .small fun _ _ => rfl).wf
  root := by
    refine ⟨.sub4gib, _, List.mem_cons_self, ?_⟩
    exact Block.base_mem_pages _
  tables k hk := absurd hk (Nat.not_lt_zero k)

theorem largeMemory_reachable {m : Pmm.Memory}
    (h : ∀ fuel, largeMemory.alloc 0xffff800000000000 fuel 1 .normal = .ok (m, some (.sub4gib, 0x107000))) :
    (Pmm.Ledger.system 0xffff800000000000 largeMemory).Reachable ⟨m, largeLive⟩ := by
  have h₀ : (Pmm.Ledger.system 0xffff800000000000 largeMemory).Reachable ⟨largeMemory, fun _ => []⟩ :=
    .init rfl
  refine h₀.step (l := Pmm.LedgerOp.alloc 1 .normal) ⟨by decide, m, .sub4gib, 0x107000, .of_eq h, ?_⟩
  congr 1
  funext id
  cases id <;> rfl

set_option maxRecDepth 60000 in
private theorem largeMemory_medium : ∃ m,
    (∀ fuel, largeMemory.alloc 0xffff800000000000 fuel 1 .normal = .ok (m, some (.sub4gib, 0x107000))) ∧
    ∃ m₁, (∀ fuel, m.alloc 0xffff800000000000 (fuel + 1) 512 .normal = .ok (m₁, some (.sub4gib, 0x400000))) ∧
    ∃ st, (∀ fuel, (Paging.pagemap largePagemap 0xffff800000000000 fuel (largePaging m₁)).getpteFrom 0x400000
      2 true 4 0x107000 0 39 Tables.empty = .ok (st, .ok (0x105000, 2))) ∧
    st.ntables = 2 ∧
    ∃ m₂ pages, (∀ fuel, takePages 0xffff800000000000 fuel .sub4gib 2 m₁ = .ok (m₂, pages)) ∧
      (m₂.node 0xffff800000000000 0xffff800000400000).prev = none := by
  refine ⟨_, fun _ => rfl, ?_⟩
  refine ⟨_, fun _ => rfl, ?_⟩
  refine ⟨_, fun _ => rfl, ?_⟩
  refine ⟨rfl, _, _, fun _ => rfl, ?_⟩
  rfl

set_option maxRecDepth 60000 in
private theorem largeMemory_small : ∃ m,
    (∀ fuel, largeMemory.alloc 0xffff800000000000 fuel 1 .normal = .ok (m, some (.sub4gib, 0x107000))) ∧
    ∃ m₁, (∀ fuel, m.alloc 0xffff800000000000 (fuel + 1) 1 .normal = .ok (m₁, some (.sub4gib, 0x106000))) ∧
    ∃ st, (∀ fuel, (Paging.pagemap largePagemap 0xffff800000000000 fuel (largePaging m₁)).getpteFrom 0x400000
      3 true 4 0x107000 0 39 Tables.empty = .ok (st, .ok (0x103000, 0))) ∧
    st.ntables = 3 ∧
    ∃ m₂ pages, (∀ fuel, takePages 0xffff800000000000 fuel .sub4gib 3 m₁ = .ok (m₂, pages)) ∧
      (m₂.node 0xffff800000000000 0xffff800000106000).prev = none := by
  refine ⟨_, fun _ => rfl, ?_⟩
  refine ⟨_, fun _ => rfl, ?_⟩
  refine ⟨_, fun _ => rfl, ?_⟩
  refine ⟨rfl, _, _, fun _ => rfl, ?_⟩
  rfl

theorem largePaging_clear (phys : Pmm.Memory) (vaddr : ℕ) (ps : PageSize) :
    largePagemap.Clear (largePaging phys).tables vaddr (depth ps) :=
  (Pagemap.UniformWf.of_empty ps fun _ _ => rfl).clear vaddr

/-- A page of 4 KiB is mapped and unmapped. -/
theorem unmap_dealloc_undoes_small : ∃ m s' s'',
    Returns (fun fuel => (largePaging m).mapAlloc largePagemap 0xffff800000000000 fuel 0x400000 0x1000
      Pflag.rw .small .writeBack) (s', .ok ()) ∧
    Returns (fun fuel => s'.unmapDealloc largePagemap 0xffff800000000000 fuel 0x400000 0x1000 .small)
      (s'', .ok ()) ∧
    (largePaging m).Undone largePagemap 0xffff800000000000 (· < 512) 0x400000 0x1000 .small s'' := by
  obtain ⟨m, hroot, m₁, halloc, st, hget, hn, m₂, pages, htake, hnode⟩ := largeMemory_small
  obtain ⟨s', hret⟩ := Paging.mapAlloc_one (s := largePaging m) largePagemap.fixpsize_small (by decide)
    (by decide) (by decide : 0 < 0x1000) (by decide) Pflag.rw .writeBack halloc hget (hn ▸ htake) hnode
  obtain ⟨s'', hret'', hundone⟩ := (unmap_dealloc_undoes_iff largeMemory_ready (largeMemory_reachable hroot)
    le_rfl (largePaging_backed m) (by decide) (fun k _ => ⟨idx_lt _ 0, largePaging_clear _ _ _⟩) hret).mpr
      (Or.inr rfl)
  exact ⟨m, s', s'', hret, hret'', hundone⟩

/-- A page of 2 MiB is mapped, and unmapping it panics in the allocator. -/
theorem not_unmap_dealloc_undoes_medium : ∃ m s',
    Returns (fun fuel => (largePaging m).mapAlloc largePagemap 0xffff800000000000 fuel 0x400000 0x200000
      Pflag.rw .medium .writeBack) (s', .ok ()) ∧
    Stops (fun fuel => s'.unmapDealloc largePagemap 0xffff800000000000 fuel 0x400000 0x200000 .medium)
      (.phys .bug) ∧
    ¬ ∃ s'', Returns (fun fuel => s'.unmapDealloc largePagemap 0xffff800000000000 fuel 0x400000 0x200000
      .medium) (s'', .ok ()) := by
  obtain ⟨m, hroot, m₁, halloc, st, hget, hn, m₂, pages, htake, hnode⟩ := largeMemory_medium
  obtain ⟨s', hret⟩ := Paging.mapAlloc_one (s := largePaging m)
    (rfl : largePagemap.fixpsize .medium = .medium) (by decide) (by decide) (by decide : 0 < 0x200000)
    (by decide) Pflag.rw .writeBack halloc hget (hn ▸ htake) hnode
  have hstop := Paging.unmapDealloc_stops (Pmm.Ledger.sound_of_reachable largeMemory_ready
    (largeMemory_reachable hroot)) le_rfl (largePaging_backed m) (by decide)
    (fun k _ => ⟨idx_lt _ 0, largePaging_clear _ _ _⟩) hret (by decide) (by decide)
  exact ⟨m, s', hret, hstop, fun ⟨s'', hret''⟩ => hret''.not_stops hstop⟩

end Ilobilix.Vmm
