import Ilobilix.Memory.Pagemap.Alloc

/-!
# What `map_alloc` clears

`map_alloc` chains the blocks through their first words and never writes the link of the last one. The
walk over the chain ends there all the same, because `alloc` hands out a block whose first word is
null: `map_alloc_clears`.
-/

namespace Ilobilix.Vmm

open Lib

/-! ## Sizes -/

section Sizes

variable (ps : PageSize)

theorem npages_ne_zero : divRoundup (fromPageSize ps) Pmm.pageSize ≠ 0 := by
  cases ps <;> decide

theorem npages_mul : divRoundup (fromPageSize ps) Pmm.pageSize * Pmm.pageSize = fromPageSize ps := by
  cases ps <;> decide

theorem npages_order :
    2 ^ Pmm.orderFor (divRoundup (fromPageSize ps) Pmm.pageSize) * Pmm.pageSize = fromPageSize ps := by
  cases ps <;> decide

end Sizes

/-! ## The first loop -/

/-- The entries of the blocks of a range, written one after the other, each after the tables above it
were made out of pages of the allocator. The third list has all that the allocator gave. -/
inductive Pagemap.Entered (pm : Pagemap) (hhdm : ℕ) (ranges : Pmm.ZoneId → List (ℕ × ℕ)) (vaddr : ℕ)
    (ps : PageSize) (aflags : BitVec 64) (live₀ : Pmm.ZoneId → List (ℕ × ℕ)) (st₀ : Tables) :
    (Pmm.ZoneId → List (ℕ × ℕ)) → Tables → List (ℕ × ℕ) → List ℕ → Prop
  | nil : Entered pm hhdm ranges vaddr ps aflags live₀ st₀ live₀ st₀ [] []
  | concat {live live₁ live₂ live₃ : Pmm.ZoneId → List (ℕ × ℕ)} {m m₁ m₂ m₃ m₄ : Pmm.Memory}
      {st st' : Tables} {l : List (ℕ × ℕ)} {blocks pages tables : List ℕ} {b t j : ℕ} :
      Entered pm hhdm ranges vaddr ps aflags live₀ st₀ live st l blocks →
      m.Sound hhdm ranges live →
      m.Takes hhdm ranges live live₁ m₁ [(b, divRoundup (fromPageSize ps) Pmm.pageSize)] →
      m₂.Sound hhdm ranges live₁ →
      m₂.Takes hhdm ranges live₁ live₂ m₃ (pages.map (·, 1)) →
      (pm.supply st.ntables pages).getpte
        ((vaddr + blocks.length * fromPageSize ps) % 2 ^ 64) ps true st = .ok (st', .ok (t, j)) →
      tables <+: pages → st'.ntables = st.ntables + tables.length →
      m₂.Takes hhdm ranges live₁ live₃ m₄ (tables.map (·, 1)) →
      Entered pm hhdm ranges vaddr ps aflags live₀ st₀ live₃
        (st'.write t j (mapEntry (b % 2 ^ 64) aflags))
        ((l ++ [(b, divRoundup (fromPageSize ps) Pmm.pageSize)]) ++ tables.map (·, 1)) (blocks ++ [b])

/-- The first and the last block of the chain: `head.next` and `current`. -/
def ends (l : List ℕ) : Option (ℕ × ℕ) := l.head?.bind fun head => l.getLast?.map fun last => (head, last)

theorem ends_fst (l : List ℕ) : (ends l).map Prod.fst = l.head? := by
  cases l with
  | nil => rfl
  | cons a l =>
      rw [ends, List.getLast?_cons]
      rfl

/-- In its first loop `map_alloc` has mapped the blocks of a range. -/
structure Paging.Mapping (pm : Pagemap) (hhdm : ℕ) (ranges live live' : Pmm.ZoneId → List (ℕ × ℕ))
    (vaddr : ℕ) (ps : PageSize) (aflags : BitVec 64) (s s' : Paging) (l : List (ℕ × ℕ))
    (blocks : List ℕ) : Prop where
  chain : s.phys.Chain hhdm (divRoundup (fromPageSize ps) Pmm.pageSize) ranges live live' s'.phys l blocks
  entered : pm.Entered hhdm ranges vaddr ps aflags live s.tables live' s'.tables l blocks
  lowmem : s'.lowmem = s.lowmem
  data : s'.data = s.data
  cleared : s'.cleared = s.cleared
  mapped : s'.mapped =
    (blocks.zipIdx.map fun b => ((vaddr + b.2 * fromPageSize ps) % 2 ^ 64, b.1)).reverse ++ s.mapped

section Loop

variable {pm : Pagemap} {hhdm vaddr : ℕ} {ranges live live' : Pmm.ZoneId → List (ℕ × ℕ)} {ps : PageSize}
  {flags : Pflag} {cache : Caching} {s s' : Paging} {l : List (ℕ × ℕ)} {blocks : List ℕ}

/-- The new block becomes the last one of the chain. -/
theorem Paging.append_spec {n ptr : ℕ} {m m' m₁ : Pmm.Memory} {live₁ : Pmm.ZoneId → List (ℕ × ℕ)}
    (h₀ : m.Sound hhdm ranges live) (h : m.Chain hhdm n ranges live live' m' l blocks)
    (h' : m'.Takes hhdm ranges live' live₁ m₁ [(ptr, n)])
    (hnull : (m₁.node hhdm (tohh hhdm ptr)).prev = none) (s : Paging) (hs : s.phys = m₁) :
    ∃ m₂ head,
      s.append hhdm (tohh hhdm ptr) (ends (blocks.map (tohh hhdm))) = ({ s with phys := m₂ }, head) ∧
      m.Chain hhdm n ranges live live₁ m₂ (l ++ [(ptr, n)]) (blocks ++ [ptr]) ∧
      ends ((blocks ++ [ptr]).map (tohh hhdm)) = some (head, tohh hhdm ptr) := by
  subst hs
  rcases List.eq_nil_or_concat' blocks with rfl | ⟨blocks, b, rfl⟩
  · exact ⟨s.phys, tohh hhdm ptr, rfl, ⟨h.takes.trans h', List.sublist_append_right _ _,
      ⟨hnull, trivial⟩⟩, rfl⟩
  · obtain ⟨head, hhead⟩ : ∃ head, ((blocks ++ [b]).map (tohh hhdm)).head? = some head := by
      cases blocks <;> exact ⟨_, rfl⟩
    have hends : ends ((blocks ++ [b]).map (tohh hhdm)) = some (head, tohh hhdm b) := by
      rw [ends, hhead, List.map_append, List.map_singleton, List.getLast?_concat]
      rfl
    refine ⟨_, head, ?_, h.link h₀ h' hnull, ?_⟩
    · rw [hends]
      rfl
    · rw [ends, List.map_append, List.head?_append, hhead, List.map_singleton, List.getLast?_concat]
      rfl

/-- One turn of the first loop maps one more block, or memory is exhausted. -/
theorem Paging.Mapping.page (h₀ : s.phys.Sound hhdm ranges live) (hfix : pm.fixpsize ps = ps)
    (hv : vaddr % fromPageSize ps = 0)
    (h : s.Mapping pm hhdm ranges live live' vaddr ps (toArch flags cache ps) s' l blocks) {i : ℕ}
    (hi : i = blocks.length * fromPageSize ps) :
    (∃ stop, (stop = .phys .bug ∨ stop = .virt .panic) ∧
      Stops (fun fuel => s'.mapAllocPage pm hhdm fuel vaddr flags ps cache i
        (ends (blocks.map (tohh hhdm)))) stop) ∨
    ∃ s'' e b live'' l', Returns (fun fuel => s'.mapAllocPage pm hhdm fuel vaddr flags ps cache i
        (ends (blocks.map (tohh hhdm)))) (s'', e, .ok ()) ∧
      s.Mapping pm hhdm ranges live live'' vaddr ps (toArch flags cache ps) s'' l' (blocks ++ [b]) ∧
      ends ((blocks ++ [b]).map (tohh hhdm)) = some e := by
  subst hi
  obtain ⟨v, hveq⟩ : ∃ v, v = (vaddr + blocks.length * fromPageSize ps) % 2 ^ 64 := ⟨_, rfl⟩
  have hvps : v % fromPageSize ps = 0 := by
    rw [hveq, Nat.mod_mod_of_dvd _ (fromPageSize_dvd ps), Nat.add_mul_mod_self_right, hv]
  have hvmod : v % 2 ^ 64 = v := by rw [hveq, Nat.mod_mod]
  rcases h.chain.takes.sound.takes (npages_ne_zero ps) .normal with
    ⟨N, hN⟩ | ⟨m₁, id, ptr, live₁, ⟨N, hN⟩, htakes, hmem, hnull⟩
  · refine Or.inl ⟨.phys .bug, Or.inl rfl, N, fun fuel hfuel => ?_⟩
    have hrun := hN fuel hfuel
    dsimp only at hrun ⊢
    rw [Paging.mapAllocPage, hrun]
    rfl
  obtain ⟨m₂, head, happend, hchain, hends⟩ :=
    Paging.append_spec h₀ h.chain htakes hnull { s' with phys := m₁ } rfl
  obtain ⟨pages, ⟨m₃, live₂, hpages⟩, hres⟩ := Paging.map_page
    (s := { s' with phys := m₂ }) hchain.takes.sound hfix hvps ptr flags cache
  dsimp only at hres hpages happend
  rw [hvmod] at hres
  rcases hres with ⟨-, N', hN'⟩ | ⟨st, t, j, m₄, live₃, l', hget, hl, hn, htakes', N', hN'⟩
  · refine Or.inl ⟨.virt .panic, Or.inr rfl, max N N', fun fuel hfuel => ?_⟩
    have hrun := hN fuel ((le_max_left N N').trans hfuel)
    have hmap := hN' fuel ((le_max_right N N').trans hfuel)
    dsimp only at hrun hmap ⊢
    rw [Paging.mapAllocPage, hrun, ← hveq]
    simp only [Except.mapError, Except.ok_bind, Option.map_some, Option.getD_some, happend, hmap]
    rfl
  · rw [hveq] at hget
    refine Or.inr ⟨{ s' with
        tables := st.write t j (mapEntry (ptr % 2 ^ 64) (toArch flags cache ps)), phys := m₄,
        mapped := (v, ptr) :: s'.mapped }, (head, tohh hhdm ptr), ptr, live₃, _,
      ⟨max N N', fun fuel hfuel => ?_⟩, ⟨hchain.more htakes', .concat h.entered h.chain.takes.sound htakes
        hchain.takes.sound hpages hget hl
        hn htakes', h.lowmem, h.data, h.cleared, ?_⟩, hends⟩
    · have hrun := hN fuel ((le_max_left N N').trans hfuel)
      have hmap := hN' fuel ((le_max_right N N').trans hfuel)
      dsimp only at hrun hmap ⊢
      rw [Paging.mapAllocPage, hrun, ← hveq]
      simp only [Except.mapError, Except.ok_bind, Option.map_some, Option.getD_some, happend, hmap]
      rfl
    · rw [h.mapped, List.zipIdx_append, List.map_append, List.reverse_append, Nat.zero_add, hveq]
      rfl

/-- The first loop maps the blocks that are left, or memory is exhausted. -/
theorem Paging.Mapping.loop (h₀ : s.phys.Sound hhdm ranges live) (hfix : pm.fixpsize ps = ps)
    {length r : ℕ} (hv : r ≠ 0 → vaddr % fromPageSize ps = 0) : ∀ {s' live' l blocks},
    s.Mapping pm hhdm ranges live live' vaddr ps (toArch flags cache ps) s' l blocks →
    blocks.length + r = turns (fromPageSize ps) length →
    ∃ res, (∃ N, ∀ fuel left, N ≤ fuel → N ≤ left →
        s'.mapAllocLoop pm hhdm fuel vaddr length flags ps cache left (blocks.length * fromPageSize ps)
          (ends (blocks.map (tohh hhdm))) = res) ∧
      (res = .error (.phys .bug) ∨ res = .error (.virt .panic) ∨ ∃ s'' live'' l' blocks',
        res = .ok (s'', ends (blocks'.map (tohh hhdm)), .ok ()) ∧
        s.Mapping pm hhdm ranges live live'' vaddr ps (toArch flags cache ps) s'' l' blocks' ∧
        blocks'.length = turns (fromPageSize ps) length) := by
  have hpos := fromPageSize_pos ps
  induction r with
  | zero =>
      intro s' live' l blocks h hr
      refine ⟨_, ⟨1, fun fuel left _ hleft => ?_⟩, Or.inr (Or.inr ⟨s', live', l, blocks, rfl, h, hr⟩)⟩
      obtain ⟨left, rfl⟩ := Nat.exists_eq_add_of_le' hleft
      have hend : ¬ blocks.length * fromPageSize ps < length := by
        rw [← lt_turns hpos]
        omega
      rw [Paging.mapAllocLoop, if_neg hend]
      rfl
  | succ r ih =>
      intro s' live' l blocks h hr
      have hlt : blocks.length * fromPageSize ps < length := by
        rw [← lt_turns hpos]
        omega
      have hv := hv (Nat.succ_ne_zero r)
      rcases h.page h₀ hfix hv rfl with
        ⟨stop, hstop, N, hN⟩ | ⟨s'', e, b, live'', l', ⟨N, hN⟩, hmapping, hends⟩
      · refine ⟨.error stop, ⟨N + 1, fun fuel left hfuel hleft => ?_⟩, ?_⟩
        · obtain ⟨left, rfl⟩ := Nat.exists_eq_add_of_le' ((Nat.le_add_left 1 N).trans hleft)
          have hrun := hN fuel (by omega)
          dsimp only at hrun
          rw [Paging.mapAllocLoop, if_pos hlt, hrun]
          rfl
        · rcases hstop with rfl | rfl
          · exact Or.inl rfl
          · exact Or.inr (Or.inl rfl)
      · -- the counter does not wrap around, as memory is too small for that
        have hnext : (blocks.length * fromPageSize ps + fromPageSize ps) % 2 ^ 64 =
            (blocks ++ [b]).length * fromPageSize ps := by
          have hle := hmapping.chain.length_le
          have hsize := npages_order ps
          rw [List.length_append, List.length_singleton, Nat.add_mul, Nat.one_mul]
          refine Nat.mod_eq_of_lt ?_
          rw [List.length_append, List.length_singleton] at hle
          calc blocks.length * fromPageSize ps + fromPageSize ps
              = (blocks.length + 1) * 2 ^ Pmm.orderFor (divRoundup (fromPageSize ps) Pmm.pageSize) *
                  Pmm.pageSize := by rw [Nat.mul_assoc, hsize, Nat.add_mul, Nat.one_mul]
            _ ≤ 3 * 2 ^ 36 * Pmm.pageSize := Nat.mul_le_mul_right _ hle
            _ < 2 ^ 64 := by decide
        obtain ⟨res, ⟨N', hN'⟩, hres⟩ := ih (fun _ => hv) hmapping (by
          rw [List.length_append, List.length_singleton]
          omega)
        refine ⟨res, ⟨max N N' + 1, fun fuel left hfuel hleft => ?_⟩, hres⟩
        obtain ⟨left, rfl⟩ := Nat.exists_eq_add_of_le' ((Nat.le_add_left 1 _).trans hleft)
        have hrun := hN fuel (by omega)
        dsimp only at hrun
        rw [Paging.mapAllocLoop, if_pos hlt, hrun]
        change s''.mapAllocLoop pm hhdm fuel vaddr length flags ps cache left
          ((blocks.length * fromPageSize ps + fromPageSize ps) % 2 ^ 64) (some e) = res
        rw [hnext, ← hends]
        exact hN' fuel left (by omega) (by omega)

end Loop

/-! ## The last loop -/

section Clear

variable {hhdm n : ℕ} {ranges live live' : Pmm.ZoneId → List (ℕ × ℕ)} {m : Pmm.Memory} {s : Paging}
  {l : List (ℕ × ℕ)} {blocks : List ℕ} {b : ℕ}

/-- The first block of a chain is cleared. -/
theorem chain_clear (h₀ : m.Sound hhdm ranges live)
    (h : m.Chain hhdm n ranges live live' s.phys l (b :: blocks)) :
    m.Chain hhdm n ranges live live'
      (s.phys.clear (tohh hhdm b) (2 ^ Pmm.orderFor n * Pmm.pageSize)) l blocks := by
  refine ⟨h.takes.clear h₀ (h.mem List.mem_cons_self), (List.sublist_cons_self _ _).trans h.sub,
    h.chained.2.congr fun a ha => ?_⟩
  obtain ⟨c, hc, rfl⟩ := List.mem_map.mp ha
  obtain ⟨id, hid, -⟩ := h.first List.mem_cons_self
  obtain ⟨-, -, hfirst⟩ := h.first (List.mem_cons_of_mem b hc)
  rw [Pmm.Memory.clear_node, if_neg]
  rw [hfirst, ← h.takes.sound.mem_pages hid]
  exact fun hin => Set.disjoint_left.mp (List.rel_of_pairwise_cons h.disjoint hc) hin
    (Block.base_mem_pages _)

/-- The walk over a chain clears its blocks, first to last, and ends at the last one. -/
theorem Paging.clearList_spec (h₀ : m.Sound hhdm ranges live) {bytes : ℕ}
    (hbytes : bytes = 2 ^ Pmm.orderFor n * Pmm.pageSize) : ∀ {s : Paging},
    m.Chain hhdm n ranges live live' s.phys l blocks →
    ∃ s', (∀ fuel, blocks.length ≤ fuel →
        s.clearList hhdm bytes fuel (blocks.map (tohh hhdm)).head? = .ok s') ∧
      m.Takes hhdm ranges live live' s'.phys l ∧ s'.tables = s.tables ∧ s'.mapped = s.mapped ∧
      s'.cleared = (blocks.map (tohh hhdm)).reverse ++ s.cleared ∧
      (∀ a, s'.data a = if ∃ b ∈ blocks, tohh hhdm b ≤ a + hhdm ∧ a + hhdm < tohh hhdm b + bytes then 0
        else s.data a) ∧
      ∀ a, s'.phys.node hhdm a = if ∃ b ∈ blocks, tohh hhdm b ≤ a ∧ a < tohh hhdm b + bytes then ⟨none, none⟩
        else s.phys.node hhdm a := by
  subst hbytes
  induction blocks with
  | nil =>
      intro s h
      refine ⟨s, fun fuel _ => ?_, h.takes, rfl, rfl, rfl, fun a => ?_, fun a => ?_⟩
      · cases fuel <;> rfl
      · rw [if_neg (by simp)]
      · rw [if_neg (by simp)]
  | cons b blocks ih =>
      intro s h
      obtain ⟨s', hret, htakes, htables, hmapped, hcleared, hdata, hnode⟩ :=
        ih (s := s.memset hhdm (tohh hhdm b) (2 ^ Pmm.orderFor n * Pmm.pageSize)) (chain_clear h₀ h)
      refine ⟨s', fun fuel hfuel => ?_, htakes, htables, hmapped, ?_, fun a => ?_, fun a => ?_⟩
      · obtain ⟨fuel, rfl⟩ := Nat.exists_eq_add_of_le' ((Nat.le_add_left 1 _).trans hfuel)
        have hnext : s.next hhdm (tohh hhdm b) = (blocks.map (tohh hhdm)).head? := h.chained.1
        rw [← hret fuel (Nat.le_of_succ_le_succ hfuel), ← hnext]
        rfl
      · rw [hcleared, List.map_cons, List.reverse_cons, List.append_assoc]
        rfl
      · rw [hdata]
        simp only [Paging.memset, List.exists_mem_cons_iff, ite_or]
        split_ifs <;> rfl
      · rw [hnode]
        simp only [Paging.memset, List.exists_mem_cons_iff, ite_or, Pmm.Memory.clear_node]
        split_ifs <;> rfl

end Clear

/-! ## `map_alloc` -/

/-- The pages of a block of a page size. -/
def InBlock (ps : PageSize) (b a : ℕ) : Prop := b ≤ a ∧ a < b + fromPageSize ps

instance (ps : PageSize) (b a : ℕ) : Decidable (InBlock ps b a) := by
  unfold InBlock
  infer_instance

/-- `map_alloc` has mapped the blocks to a range and cleared them. -/
structure Paging.AllocCleared (hhdm : ℕ) (live : Pmm.ZoneId → List (ℕ × ℕ)) (vaddr length : ℕ)
    (ps : PageSize) (s s' : Paging) (blocks : List ℕ) : Prop where
  count : blocks.length = turns (fromPageSize ps) length
  mapped : s'.mapped =
    (blocks.zipIdx.map fun b => ((vaddr + b.2 * fromPageSize ps) % 2 ^ 64, b.1)).reverse ++ s.mapped
  /-- the walk over the chain is over the blocks, and it ends -/
  walk : s'.cleared = (blocks.map (· + hhdm)).reverse ++ s.cleared
  disjoint : blocks.Pairwise fun b c => ∀ a, InBlock ps b a → ¬ InBlock ps c a
  free : ∀ b ∈ blocks, ∀ x, InBlock ps b (x * Pmm.pageSize) → s.phys.FreePage hhdm x
  taken : ∀ b ∈ blocks, ∀ x, InBlock ps b (x * Pmm.pageSize) → ¬ s'.phys.FreePage hhdm x
  data : ∀ a, s'.data a = if ∃ b ∈ blocks, InBlock ps b a then 0 else s.data a
  first : ∀ b ∈ blocks, ∀ x, InBlock ps b (x * Pmm.pageSize) →
    s'.phys.node hhdm (x * Pmm.pageSize + hhdm) = ⟨none, none⟩
  others : ∀ x, Pmm.Handed hhdm live x →
    s'.phys.node hhdm (x * Pmm.pageSize + hhdm) = s.phys.node hhdm (x * Pmm.pageSize + hhdm)

/-- `map_alloc` has given everything back. -/
structure Paging.AllocReturned (hhdm : ℕ) (live : Pmm.ZoneId → List (ℕ × ℕ)) (s s' : Paging) : Prop where
  free : ∀ x, s'.phys.FreePage hhdm x ↔ s.phys.FreePage hhdm x
  tables : s'.tables = s.tables
  mapped : s'.mapped = s.mapped
  data : s'.data = s.data
  others : ∀ x, Pmm.Handed hhdm live x →
    s'.phys.node hhdm (x * Pmm.pageSize + hhdm) = s.phys.node hhdm (x * Pmm.pageSize + hhdm)

section Main

variable {pm : Pagemap} {hhdm vaddr length : ℕ} {ranges live live' : Pmm.ZoneId → List (ℕ × ℕ)}
  {ps : PageSize} {s s' : Paging} {l : List (ℕ × ℕ)} {blocks : List ℕ}

/-- The run of `map_alloc` up to its walk. -/
theorem Paging.mapAlloc_loop (h₀ : s.phys.Sound hhdm ranges live) {size : PageSize}
    (hv : length ≠ 0 → vaddr % fromPageSize (pm.fixpsize size) = 0) (flags : Pflag) (cache : Caching) :
    Stops (fun fuel => s.mapAlloc pm hhdm fuel vaddr length flags size cache) (.phys .bug) ∨
    Stops (fun fuel => s.mapAlloc pm hhdm fuel vaddr length flags size cache) (.virt .panic) ∨
    ∃ s₁ s' live' l blocks,
      Returns (fun fuel => s.mapAlloc pm hhdm fuel vaddr length flags size cache) (s', .ok ()) ∧
      s.Mapping pm hhdm ranges live live' vaddr (pm.fixpsize size)
        (toArch flags cache (pm.fixpsize size)) s₁ l blocks ∧
      blocks.length = turns (fromPageSize (pm.fixpsize size)) length ∧
      s.phys.Takes hhdm ranges live live' s'.phys l ∧ s'.tables = s₁.tables ∧
      s'.mapped = s₁.mapped ∧ s'.cleared = (blocks.map (tohh hhdm)).reverse ++ s₁.cleared ∧
      (∀ a, s'.data a = if ∃ b ∈ blocks, tohh hhdm b ≤ a + hhdm ∧
          a + hhdm < tohh hhdm b + fromPageSize (pm.fixpsize size) then 0 else s₁.data a) ∧
      ∀ a, s'.phys.node hhdm a = if ∃ b ∈ blocks, tohh hhdm b ≤ a ∧
          a < tohh hhdm b + fromPageSize (pm.fixpsize size) then ⟨none, none⟩
        else s₁.phys.node hhdm a := by
  obtain ⟨ps, hps⟩ : ∃ ps, ps = pm.fixpsize size := ⟨_, rfl⟩
  have hfix : pm.fixpsize ps = ps := by rw [hps, pm.fixpsize_fixpsize]
  rw [← hps] at hv ⊢
  have hstart : s.Mapping pm hhdm ranges live live vaddr ps (toArch flags cache ps) s [] [] :=
    ⟨⟨.refl h₀, .slnil, trivial⟩, .nil, rfl, rfl, rfl, rfl⟩
  have hturns : turns (fromPageSize ps) length ≠ 0 → vaddr % fromPageSize ps = 0 := by
    refine fun hne => hv fun hzero => hne ?_
    rw [hzero, turns, Nat.zero_add]
    exact Nat.div_eq_of_lt (Nat.sub_lt (fromPageSize_pos ps) Nat.one_pos)
  obtain ⟨res, ⟨N, hN⟩, hres⟩ := hstart.loop h₀ hfix hturns (Nat.zero_add _)
  have hrun : ∀ fuel, N ≤ fuel →
      s.mapAllocLoop pm hhdm fuel vaddr length flags ps cache fuel 0 none = res := by
    intro fuel hfuel
    have hloop := hN fuel fuel hfuel hfuel
    rwa [List.length_nil, Nat.zero_mul] at hloop
  rcases hres with rfl | rfl | ⟨s₁, live', l, blocks, rfl, hmapping, hcount⟩
  · refine Or.inl ⟨N, fun fuel hfuel => ?_⟩
    dsimp only
    rw [Paging.mapAlloc, ← hps, hrun fuel hfuel]
    rfl
  · refine Or.inr (Or.inl ⟨N, fun fuel hfuel => ?_⟩)
    dsimp only
    rw [Paging.mapAlloc, ← hps, hrun fuel hfuel]
    rfl
  · obtain ⟨s', hclear, htakes, htables, hmapped, hcleared, hdata, hnode⟩ :=
      Paging.clearList_spec h₀ (npages_order ps).symm hmapping.chain
    refine Or.inr (Or.inr ⟨s₁, s', live', l, blocks, ⟨max N blocks.length, fun fuel hfuel => ?_⟩, hmapping,
      hcount, htakes, htables, hmapped, hcleared, hdata, hnode⟩)
    dsimp only
    rw [Paging.mapAlloc, ← hps, hrun fuel ((le_max_left _ _).trans hfuel)]
    simp only [Except.ok_bind, npages_mul, ends_fst, hclear fuel ((le_max_right _ _).trans hfuel)]
    rfl

/-- The walk has cleared the blocks. -/
theorem Paging.Mapping.allocCleared (h₀ : s.phys.Sound hhdm ranges live) {s₁ : Paging} {aflags : BitVec 64}
    (h : s.Mapping pm hhdm ranges live live' vaddr ps aflags s₁ l blocks)
    (hcount : blocks.length = turns (fromPageSize ps) length)
    (htakes : s.phys.Takes hhdm ranges live live' s'.phys l) (hmapped : s'.mapped = s₁.mapped)
    (hcleared : s'.cleared = (blocks.map (tohh hhdm)).reverse ++ s₁.cleared)
    (hdata : ∀ a, s'.data a = if ∃ b ∈ blocks, tohh hhdm b ≤ a + hhdm ∧
      a + hhdm < tohh hhdm b + fromPageSize ps then 0 else s₁.data a)
    (hnode : ∀ a, s'.phys.node hhdm a = if ∃ b ∈ blocks, tohh hhdm b ≤ a ∧
      a < tohh hhdm b + fromPageSize ps then ⟨none, none⟩ else s₁.phys.node hhdm a) :
    s.AllocCleared hhdm live vaddr length ps s' blocks := by
  -- the blocks have physical addresses, so the direct map shifts them
  have htohh : ∀ b ∈ blocks, tohh hhdm b = b + hhdm := by
    intro b hb
    obtain ⟨id, hid, hfirst⟩ := h.chain.first hb
    have hphys := h.chain.takes.phys _ (h.chain.mem hb)
    rw [hfirst, fromhh_add] at hphys
    rw [hfirst, hphys]
  have hin : ∀ b ∈ blocks, ∀ x, InBlock ps b (x * Pmm.pageSize) ↔
      x ∈ (Pmm.blockAt hhdm (b, divRoundup (fromPageSize ps) Pmm.pageSize)).pages := by
    intro b hb x
    obtain ⟨id, hid, -⟩ := h.chain.first hb
    rw [h.chain.takes.sound.mem_pages hid, npages_order, htohh b hb, InBlock]
    simp only [Pmm.pageSize]
    omega
  have hany : ∀ a, (∃ b ∈ blocks, tohh hhdm b ≤ a + hhdm ∧ a + hhdm < tohh hhdm b + fromPageSize ps) ↔
      ∃ b ∈ blocks, InBlock ps b a := by
    refine fun a => exists_congr fun b => and_congr_right fun hb => ?_
    rw [htohh b hb, InBlock]
    omega
  refine ⟨hcount, hmapped.trans h.mapped, ?_, ?_, fun b hb x hx => ?_, fun b hb x hx => ?_, fun a => ?_,
    fun b hb x hx => ?_, fun x hx => ?_⟩
  · rw [hcleared, h.cleared, List.map_congr_left htohh]
  · -- two blocks with a byte in common have its page in common
    have hpage : ∀ b ∈ blocks, ∀ a, InBlock ps b a →
        InBlock ps b (a / Pmm.pageSize * Pmm.pageSize) := by
      intro b hb a ha
      obtain ⟨id, hid, hfirst⟩ := h.chain.first hb
      have hbase : b = (Pmm.blockAt hhdm (b, divRoundup (fromPageSize ps) Pmm.pageSize)).base *
          Pmm.pageSize := Nat.add_right_cancel ((htohh b hb).symm.trans hfirst)
      have hsize := npages_mul ps
      rw [InBlock] at ha ⊢
      simp only [Pmm.pageSize] at hbase hsize ⊢
      omega
    refine h.chain.disjoint.imp_of_mem fun {b c} hb hc hdisj a ha hac => ?_
    exact Set.disjoint_left.mp hdisj ((hin b hb _).mp (hpage b hb a ha)) ((hin c hc _).mp (hpage c hc a hac))
  · exact h.chain.takes.was _ (h.chain.mem hb) x ((hin b hb x).mp hx)
  · exact fun hfree => ((htakes.free x).mp hfree).2 _ (h.chain.mem hb) ((hin b hb x).mp hx)
  · rw [hdata, h.data]
    exact if_congr (hany a) rfl rfl
  · rw [hnode]
    refine if_pos ⟨b, hb, ?_⟩
    rw [htohh b hb]
    rw [InBlock] at hx
    omega
  · obtain ⟨id, a, ha, hxa⟩ := id hx
    rw [hnode, if_neg, h.chain.takes.keeps.node h₀ ha hxa]
    rintro ⟨b, hb, hlo, hhi⟩
    rw [htohh b hb] at hlo hhi
    refine h.chain.takes.not_handed h₀ (h.chain.mem hb) ((hin b hb x).mp ?_) hx
    rw [InBlock]
    omega

/-- For an address that is not aligned the first block is given back. -/
theorem Paging.mapAlloc_misaligned (h₀ : s.phys.Sound hhdm ranges live) {size : PageSize}
    (hlen : length ≠ 0) (hv : vaddr % fromPageSize (pm.fixpsize size) ≠ 0) (flags : Pflag)
    (cache : Caching) :
    Stops (fun fuel => s.mapAlloc pm hhdm fuel vaddr length flags size cache) (.phys .bug) ∨
    ∃ s', Returns (fun fuel => s.mapAlloc pm hhdm fuel vaddr length flags size cache)
        (s', .error .addrNotAligned) ∧ s.AllocReturned hhdm live s' := by
  obtain ⟨ps, hps⟩ : ∃ ps, ps = pm.fixpsize size := ⟨_, rfl⟩
  have hfix : pm.fixpsize ps = ps := by rw [hps, pm.fixpsize_fixpsize]
  rw [← hps] at hv
  obtain ⟨v, hveq⟩ : ∃ v, v = (vaddr + 0) % 2 ^ 64 := ⟨_, rfl⟩
  have hvps : v % fromPageSize ps ≠ 0 := by
    rwa [hveq, Nat.mod_mod_of_dvd _ (fromPageSize_dvd ps), Nat.add_zero]
  have hpos : 0 < length := Nat.pos_of_ne_zero hlen
  rcases h₀.alloc (npages_ne_zero ps) .normal with
    ⟨N, hN⟩ | ⟨m₁, id, ptr, ⟨N, hN⟩, hsound, hkeeps, hnull, hphys⟩
  · refine Or.inl ⟨N + 1, fun fuel hfuel => ?_⟩
    obtain ⟨n, rfl⟩ := Nat.exists_eq_add_of_le' ((Nat.le_add_left 1 N).trans hfuel)
    have hrun := hN (n + 1) (by omega)
    dsimp only at hrun ⊢
    rw [Paging.mapAlloc, ← hps, Paging.mapAllocLoop, if_pos hpos, Paging.mapAllocPage, hrun]
    rfl
  obtain ⟨np, hnp⟩ : ∃ np, np = divRoundup (fromPageSize ps) Pmm.pageSize := ⟨_, rfl⟩
  rw [← hnp] at hN hsound
  have hmem : (ptr, np) ∈ Function.update live id ((ptr, np) :: live id) id := by
    rw [Function.update_self]
    exact List.mem_cons_self
  obtain ⟨m₂, hfree, hsound₂, hkeeps₂⟩ := hsound.free hmem
  rw [Function.update_self, List.erase_cons_head, Function.update_idem, Function.update_eq_self]
    at hsound₂ hkeeps₂
  -- the first word of the block is null, so the walk ends there
  have hnext : (m₁.node hhdm (tohh hhdm ptr)).prev = none := by
    have hnode := hsound.node_page hmem (Block.base_mem_pages _)
    rw [← hsound.tohh_eq hmem] at hnode
    rw [hnode, hnull]
  have hall := hkeeps.trans hkeeps₂
  refine Or.inr ⟨{ s with phys := m₂ }, ⟨N + 2, fun fuel hfuel => ?_⟩,
    fun x => hsound₂.freePage_iff.trans h₀.freePage_iff.symm, rfl, rfl, rfl, ?_⟩
  · obtain ⟨n, rfl⟩ := Nat.exists_eq_add_of_le' ((Nat.le_add_left 2 N).trans hfuel)
    have hrun := hN (n + 2) (by omega)
    have hlist : Paging.freeList hhdm np (n + 2) (some (tohh hhdm ptr)) { s with phys := m₁ } =
        .ok { s with phys := m₂ } := by
      rw [Paging.freeList]
      simp only [Paging.next, hnext, hsound.free_tohh hmem hphys, hfree, Except.mapError,
        Except.ok_bind]
      rfl
    dsimp only at hrun ⊢
    rw [Paging.mapAlloc, ← hps, Paging.mapAllocLoop, if_pos hpos, Paging.mapAllocPage, ← hnp, hrun,
      ← hveq]
    simp only [Except.mapError, Except.ok_bind, Option.map_some, Option.getD_some, Paging.append,
      Paging.map_misaligned _ _ hfix hvps, hlist]
    rfl
  · rintro x ⟨id', a, ha, hxa⟩
    exact hall.node h₀ ha hxa

end Main

/-- An empty page map over the four pages of `exampleMemory`, whose bytes are `0xff`. -/
def examplePaging : Paging where
  tables := Tables.empty
  phys := Pmm.exampleMemory
  lowmem := true
  data _ := 0xff
  mapped := []
  cleared := []

set_option maxRecDepth 20000 in
private theorem examplePaging_alloc : ∃ m, (∀ fuel,
    Pmm.exampleMemory.alloc 0xffff800000000000 fuel 1 .normal = .ok (m, some (.sub4gib, 0x103000))) ∧
    (m.node 0xffff800000000000 0xffff800000103000).prev = none ∧
    ∃ m', m.free 0xffff800000000000 0xffff800000103000 1 = .ok m' :=
  ⟨_, fun _ => rfl, rfl, _, rfl⟩

end Ilobilix.Vmm
