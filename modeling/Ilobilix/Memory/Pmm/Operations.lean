import Ilobilix.Foundation.Fuel
import Ilobilix.Memory.Pmm.Lists
import Ilobilix.Memory.Pmm.Orders
import Ilobilix.Memory.Pmm.PageDb

/-!
# The operations of the buddy allocator keep the invariant

`Inv z st free U added` joins the two halves of the allocator's state: `FreeLists` for the lists in
memory and `PageDb` for the page database, over the same free blocks. One lemma per function of the
source says that it returns (no `bug_on` fires, no null pointer is followed, the loops end) and what
it does to the blocks.
-/

namespace Ilobilix.Pmm

open Lib Relation

/-- The blocks in the free lists. -/
def freeSet (free : ℕ → List ℕ) : Set Block := {b | b.base ∈ free b.order}

@[simp] theorem mem_freeSet {free : ℕ → List ℕ} {b : Block} :
    b ∈ freeSet free ↔ b.base ∈ free b.order := Iff.rfl

/-- The free blocks after `put`. -/
theorem freeSet_cons (free : ℕ → List ℕ) (p k : ℕ) :
    freeSet (Function.update free k (p :: free k)) = insert ⟨p, k⟩ (freeSet free) := by
  ext ⟨x, j⟩
  simp only [mem_freeSet, Set.mem_insert_iff, Block.mk.injEq]
  by_cases hj : j = k
  · subst hj
    simp
  · simp [hj]

/-- The invariant of the allocator: the free lists are well formed and the page database agrees with
them, with the blocks `U` handed out and with the pages `added` so far. -/
structure Inv (z : Zone) (st : State) (free : ℕ → List ℕ) (U : Set Block) (added : Set ℕ) :
    Prop where
  lists : FreeLists z st free
  db : PageDb z st.pfndb (freeSet free) U added

/-- The part of the state that the blocks are kept in. -/
def layout (st : State) (free : ℕ → List ℕ) : (ℕ → Page) × Set Block := (st.pfndb, freeSet free)

/-- The `list` objects in blocks that are handed out are as before. -/
def Keeps (z : Zone) (U : Set Block) (st st' : State) : Prop :=
  ∀ b ∈ U, ∀ q ∈ b.pages, st'.mem (z.addr q) = st.mem (z.addr q)

section

variable {z : Zone} {st : State} {free : ℕ → List ℕ} {U : Set Block} {added : Set ℕ}

theorem Keeps.refl (z : Zone) (U : Set Block) (st : State) : Keeps z U st st := fun _ _ _ _ => rfl

theorem Keeps.trans {s₁ s₂ s₃ : State} (h₁ : Keeps z U s₁ s₂) (h₂ : Keeps z U s₂ s₃) :
    Keeps z U s₁ s₃ :=
  fun b hb q hq => (h₂ b hb q hq).trans (h₁ b hb q hq)

/-- A page that is handed out is in no free block. -/
theorem Inv.not_mem_free (h : Inv z st free U added) {b c : Block} (hb : b ∈ U) {q : ℕ}
    (hq : q ∈ b.pages) (hc : c ∈ freeSet free) : q ∉ c.pages := by
  intro hqc
  have hne : c ≠ b := fun heq => Set.disjoint_left.mp h.db.separate hc (heq ▸ hb)
  exact Set.disjoint_left.mp (h.db.disjoint (Or.inl hc) (Or.inr hb) hne) hqc hq

theorem Inv.not_free (h : Inv z st free U added) {b : Block} (hb : b ∈ U) {q : ℕ} (hq : q ∈ b.pages)
    (k : ℕ) : q ∉ free k :=
  fun hk => h.not_mem_free (c := ⟨q, k⟩) hb hq hk (Block.base_mem_pages _)

/-- Splits and merges keep the pieces. -/
theorem Inv.reshapes (h : Inv z st free U added) {st' : State} {free' : ℕ → List ℕ}
    (hs : ReflTransGen Reshape (layout st free) (layout st' free')) {O : Set Block}
    (hp : Pieces st.pfndb (freeSet free ∪ U) O added) :
    Pieces st'.pfndb (freeSet free' ∪ U) O added :=
  Pieces.reshapes hs h.db hp

/-! ## Addresses -/

@[simp] theorem Zone.pageFor_addr (z : Zone) (p : ℕ) : z.pageFor (z.addr p) = p := by
  rw [Zone.pageFor, Zone.addr, fromhh_add]
  exact Nat.mul_div_cancel _ (by decide)

/-- A direct map address is aligned to a block size exactly when its page number is. -/
theorem Zone.addr_mod (hz : z.Aligned) {p k : ℕ} (hk : k ≤ maxOrder) :
    z.addr p % blockBytes k = 0 ↔ 2 ^ k ∣ p := by
  have hdvd : pageSize * 2 ^ k ∣ z.hhdm :=
    (Nat.mul_dvd_mul_left pageSize (Nat.pow_dvd_pow 2 hk)).trans hz
  have hk' : k ≤ 51 := hk.trans (by decide)
  rw [blockBytes_eq hk', ← Nat.dvd_iff_mod_eq_zero, Zone.addr, ← Nat.dvd_add_iff_left hdvd,
    Nat.mul_comm p, Nat.mul_dvd_mul_iff_left (by decide)]

theorem Zone.Fits.bounds {b : Block} (h : z.Fits b) :
    b.base * pageSize < z.hhdm ∧ (b.base + 2 ^ b.order) * pageSize + z.hhdm ≤ 2 ^ 64 ∧
      b.base + 2 ^ b.order ≤ 2 ^ 36 := by
  have hw := h.window
  have hpos := Nat.two_pow_pos b.order
  simp only [Zone.window, paddrBits, pageSize] at hw ⊢
  omega

theorem Zone.Fits.tohh {b : Block} (h : z.Fits b) :
    Lib.tohh z.hhdm (b.base * pageSize) = z.addr b.base := by
  obtain ⟨hlt, hend, -⟩ := h.bounds
  have hpos := Nat.two_pow_pos b.order
  have hw : b.base * pageSize + z.hhdm < 2 ^ 64 := by
    simp only [pageSize] at hend ⊢
    omega
  rw [tohh_of_lt hlt hw, Zone.addr]

/-- The upper half of a block is at the address `split_to` computes. -/
theorem Zone.Fits.upper {p k : ℕ} (h : z.Fits ⟨p, k + 1⟩) :
    (z.addr p + blockBytes k) % 2 ^ 64 = z.addr (p + 2 ^ k) := by
  obtain ⟨-, hend, -⟩ := h.bounds
  have hk := h.order_le
  have hpos := Nat.two_pow_pos k
  simp only [maxOrder, pow_succ, pageSize] at hk hend
  rw [blockBytes_eq (by omega)]
  simp only [Zone.addr, pageSize]
  rw [Nat.mod_eq_of_lt (by omega)]
  ring

/-- The page number of a physical address that `next_paddr` holds. -/
theorem Zone.fromhh_addr_shift (z : Zone) (p : ℕ) : fromhh z.hhdm (z.addr p) >>> pageBits = p := by
  rw [Zone.addr, fromhh_add, Nat.shiftRight_eq_div_pow]
  exact Nat.mul_div_cancel _ (by decide)

theorem Page.setOrder_of_le (pg : Page) {k : ℕ} (hk : k ≤ maxOrder) :
    pg.setOrder k = { pg with order := k } := by
  have hlt : k < 2 ^ bitWidth maxOrder := lt_of_le_of_lt hk (by decide)
  rw [Page.setOrder, Nat.mod_eq_of_lt hlt]

theorem Page.setNextPaddr_of_lt (pg : Page) {v : ℕ} (hv : v < 2 ^ 36) :
    pg.setNextPaddr v = { pg with nextPaddr := v } := by
  have hlt : v < 2 ^ (paddrBits - pageBits) := hv
  rw [Page.setNextPaddr, Nat.mod_eq_of_lt hlt]

/-! ## `split_to` -/

theorem Inv.fits (h : Inv z st free U added) {b : Block} (hb : b ∈ freeSet free) : z.Fits b :=
  h.db.fits b (Or.inl hb)

theorem Inv.mem_free_unique (h : Inv z st free U added) {p k : ℕ} (hp : p ∈ free k) {q j : ℕ}
    (hq : q ∈ free j) (hmem : q ∈ Block.pages ⟨p, k⟩) : q = p ∧ j = k := by
  have heq : (⟨q, j⟩ : Block) = ⟨p, k⟩ := h.db.base_of_mem (Or.inl hq) (Or.inl hp) hmem
  exact ⟨congrArg Block.base heq, congrArg Block.order heq⟩

/-- The free blocks after the first block `p` of order `k + 1` has been halved. -/
theorem freeSet_split {p k : ℕ} {l : List ℕ} (hl : free (k + 1) = p :: l) (hnd : p ∉ l) :
    freeSet (Function.update (Function.update free (k + 1) l) k ((p + 2 ^ k) :: p :: free k)) =
      freeSet free \ {⟨p, k + 1⟩} ∪ {⟨p, k⟩, ⟨p + 2 ^ k, k⟩} := by
  ext ⟨q, j⟩
  simp only [mem_freeSet, Set.mem_union, Set.mem_sdiff, Set.mem_singleton_iff, Set.mem_insert_iff,
    Block.mk.injEq]
  by_cases hjk : j = k
  · subst hjk
    simp
    tauto
  · by_cases hjk' : j = k + 1
    · subst hjk'
      simp only [Function.update_of_ne hjk, Function.update_self, hl, List.mem_cons]
      constructor
      · intro hq
        exact Or.inl ⟨Or.inr hq, fun hqp => hnd (hqp.1 ▸ hq)⟩
      · rintro (⟨rfl | hq, hne⟩ | ⟨-, hk⟩ | ⟨-, hk⟩)
        · simp at hne
        · exact hq
        · omega
        · omega
    · simp [hjk, hjk']

/-- What `split_to` writes into the page database for the block of pages `p` and its upper half. -/
theorem splitPages_eq (st : State) {p q k : ℕ} (hpq : p ≠ q) (hk : k ≤ maxOrder) (hq : q < 2 ^ 36)
    (hnext : (st.pfndb p).nextPaddr < 2 ^ 36) (hallp : (st.pfndb p).allocated = false)
    (hallq : (st.pfndb q).allocated = false) :
    splitPages k p q q st = { st with
      pfndb := Function.update (Function.update st.pfndb q ⟨(st.pfndb p).nextPaddr, k, false⟩)
        p ⟨q, k, false⟩ } := by
  simp only [splitPages, State.setPage, Page.setOrder_of_le _ hk]
  congr 1
  funext x
  by_cases hxp : x = p
  · subst hxp
    simp [Page.setNextPaddr_of_lt _ hq, Function.update_of_ne hpq, hallp]
  · by_cases hxq : x = q
    · subst hxq
      simp [Function.update_of_ne hpq, Page.setNextPaddr_of_lt _ hnext, hallq, Ne.symm hpq]
    · simp [hxp, hxq]

theorem splitPages_lists (h : FreeLists z st free) (k p q a : ℕ) :
    FreeLists z (splitPages k p q a st) free :=
  (((h.setPage _ _).setPage _ _).setPage _ _).setPage _ _

/-- One turn of `split_to` replaces the first block of order `k + 1` by its halves. -/
theorem splitStep_spec (h : Inv z st free U added) {p k : ℕ} {l : List ℕ}
    (hl : free (k + 1) = p :: l) :
    ∃ st' free', splitStep z k st = .ok st' ∧ Inv z st' free' U added ∧ free' k ≠ [] ∧
      Splits (layout st free) (layout st' free') ∧ Keeps z U st st' := by
  have hp : (⟨p, k + 1⟩ : Block) ∈ freeSet free := by simp [hl]
  have hfits := h.fits hp
  have hpos := Nat.two_pow_pos k
  have hne : p ≠ p + 2 ^ k := by omega
  have hbuddy : p + 2 ^ k ∈ Block.pages ⟨p, k + 1⟩ := by
    rw [Block.mem_pages]
    simp only [pow_succ]
    omega
  have hpl : p ∉ l := by
    have hnd := h.lists.nodup (k + 1)
    rw [hl] at hnd
    exact (List.nodup_cons.mp hnd).1
  have hq36 : p + 2 ^ k < 2 ^ 36 := by
    have hend := hfits.bounds.2.2
    simp only [pow_succ] at hend
    omega
  have hallp := h.db.not_allocated hp (Block.base_mem_pages _)
  have hallq := h.db.not_allocated hp hbuddy
  have hnext := h.db.nextPaddr_lt (Or.inl hp)
  have hk : k ≤ maxOrder := Nat.le_of_succ_le hfits.order_le
  obtain ⟨st₁, hrem, hdb₁, hlists₁, hmem₁⟩ := h.lists.rem hl
  -- neither half is in a list when it is put there
  have hfree₁ : ∀ j, p ∉ Function.update free (k + 1) l j := by
    intro j hj
    by_cases hjk : j = k + 1
    · subst hjk
      exact hpl (by simpa using hj)
    · rw [Function.update_of_ne hjk] at hj
      exact hjk (h.lists.separate _ _ p hj hp)
  have hfree₂ : ∀ j, p + 2 ^ k ∉
      Function.update (Function.update free (k + 1) l) k (p :: free k) j := by
    have hout : ∀ j, p + 2 ^ k ∉ free j := fun j hj =>
      hne (h.mem_free_unique hp hj hbuddy).1.symm
    intro j
    by_cases hjk : j = k
    · subst hjk
      simpa [hpos.ne'] using hout j
    · by_cases hjk' : j = k + 1
      · subst hjk'
        have : p + 2 ^ k ∉ p :: l := hl ▸ hout (k + 1)
        simp only [Function.update_of_ne hjk, Function.update_self]
        exact fun hin => this (List.mem_cons_of_mem _ hin)
      · simpa [hjk, hjk'] using hout j
  have hput₁ := (splitPages_lists hlists₁ k p (p + 2 ^ k) (p + 2 ^ k)).put k hfree₁
  rw [Function.update_of_ne (by omega : k ≠ k + 1)] at hput₁
  have hdb' : (put k (z.addr (p + 2 ^ k))
      (put k (z.addr p) (splitPages k p (p + 2 ^ k) (p + 2 ^ k) st₁))).pfndb =
        Function.update (Function.update st.pfndb (p + 2 ^ k) ⟨(st.pfndb p).nextPaddr, k, false⟩)
          p ⟨p + 2 ^ k, k, false⟩ := by
    rw [put_pfndb, put_pfndb, splitPages_eq st₁ hne hk hq36 (by rw [hdb₁]; exact hnext)
      (by rw [hdb₁]; exact hallp) (by rw [hdb₁]; exact hallq), hdb₁]
  refine ⟨put k (z.addr (p + 2 ^ k))
    (put k (z.addr p) (splitPages k p (p + 2 ^ k) (p + 2 ^ k) st₁)),
    Function.update (Function.update free (k + 1) l) k ((p + 2 ^ k) :: p :: free k),
    ?_, ⟨?_, ?_⟩, by simp, ?_, fun b hb q hq => ?_⟩
  · simp only [splitStep, hrem, bind, Except.bind, hfits.upper, Zone.pageFor_addr, bugOn, hdb₁,
      hallp, hallq, Zone.fromhh_addr_shift]
    rfl
  · simpa only [Function.update_idem, Function.update_self] using hput₁.put k hfree₂
  · rw [hdb', freeSet_split hl hpl]
    exact h.db.split hp
  · rw [layout, layout, hdb', freeSet_split hl hpl]
    exact .mk hp
  · -- the page is neither half nor in a list
    have hqp := h.not_mem_free hb hq hp
    have hne₁ : q ≠ p := fun heq => hqp (heq ▸ Block.base_mem_pages _)
    have hne₂ : q ≠ p + 2 ^ k := fun heq => hqp (heq ▸ hbuddy)
    have hout := h.not_free hb hq
    have hout₁ : ∀ j, q ∉ Function.update free (k + 1) l j := by
      intro j hj
      by_cases hjk : j = k + 1
      · subst hjk
        rw [Function.update_self] at hj
        exact hout (k + 1) (hl ▸ List.mem_cons_of_mem p hj)
      · rw [Function.update_of_ne hjk] at hj
        exact hout j hj
    have hout₂ : ∀ j, q ∉ Function.update (Function.update free (k + 1) l) k (p :: free k) j := by
      intro j hj
      by_cases hjk : j = k
      · subst hjk
        rw [Function.update_self] at hj
        exact (List.mem_cons.mp hj).elim hne₁ (hout j)
      · rw [Function.update_of_ne hjk] at hj
        exact hout₁ j hj
    rw [hput₁.put_mem k hout₂ hne₂, (splitPages_lists hlists₁ k p _ _).put_mem k hout₁ hne₁]
    exact hmem₁ _ fun hin => hout₁ (k + 1) (by
      rw [Function.update_self]
      exact (List.mem_map_of_injective z.addr_injective).mp hin)

/-- The second loop of `split_to` leaves a block of the target order. -/
theorem splitDown_spec (h : Inv z st free U added) {target current : ℕ} (htc : target ≤ current)
    (hne : free current ≠ []) :
    ∃ st' free', splitDown z target current st = .ok st' ∧ Inv z st' free' U added ∧
      free' target ≠ [] ∧ ReflTransGen Reshape (layout st free) (layout st' free') ∧
      Keeps z U st st' := by
  induction current generalizing st free with
  | zero =>
      obtain rfl : target = 0 := by omega
      exact ⟨st, free, rfl, h, hne, .refl, .refl z U st⟩
  | succ current ih =>
      by_cases htop : target = current + 1
      · subst htop
        exact ⟨st, free, by simp [splitDown, pure, Except.pure], h, hne, .refl, .refl z U st⟩
      · obtain ⟨p, l, hl⟩ := List.exists_cons_of_ne_nil hne
        obtain ⟨st₁, free₁, hstep, hinv₁, hne₁, hsplit, hkeep₁⟩ := splitStep_spec h hl
        obtain ⟨st', free', hdown, hinv', hne', hrest, hkeep⟩ := ih hinv₁ (by omega) hne₁
        refine ⟨st', free', ?_, hinv', hne', .head (Or.inl hsplit) hrest, hkeep₁.trans hkeep⟩
        simp only [splitDown, if_pos (by omega : target < current + 1), hstep, bind, Except.bind]
        exact hdown

theorem hasPages_iff (h : FreeLists z st free) (k : ℕ) : hasPages k st = true ↔ free k ≠ [] := by
  rw [hasPages, h.head k]
  cases free k <;> simp

/-- The first loop of `split_to` finds an order from `current` on whose list is not empty. -/
theorem splitFrom_spec (h : FreeLists z st free) {current left k : ℕ}
    (hfind : splitFrom st current left = some k) : current ≤ k ∧ free k ≠ [] := by
  induction left generalizing current with
  | zero => simp [splitFrom] at hfind
  | succ left ih =>
      simp only [splitFrom] at hfind
      split at hfind
      · rename_i hpages
        obtain rfl := Option.some.inj hfind
        exact ⟨le_rfl, (hasPages_iff h current).mp hpages⟩
      · obtain ⟨hle, hne⟩ := ih hfind
        exact ⟨by omega, hne⟩

/-- Otherwise the lists of all these orders are empty. -/
theorem splitFrom_none (h : FreeLists z st free) {current left : ℕ}
    (hfind : splitFrom st current left = none) {k : ℕ} (hle : current ≤ k)
    (hlt : k < current + left) : free k = [] := by
  induction left generalizing current with
  | zero => omega
  | succ left ih =>
      simp only [splitFrom] at hfind
      split at hfind
      · cases hfind
      · rename_i hpages
        rw [hasPages_iff h, not_not] at hpages
        rcases Nat.eq_or_lt_of_le hle with rfl | hgt
        · exact hpages
        · exact ih hfind hgt (by omega)

theorem Inv.free_eq_nil (h : Inv z st free U added) {k : ℕ} (hk : maxOrder < k) : free k = [] := by
  by_contra hne
  obtain ⟨p, l, hl⟩ := List.exists_cons_of_ne_nil hne
  have := (h.fits (b := ⟨p, k⟩) (by simp [hl])).order_le
  dsimp only at this
  omega

/-- `split_to` makes a block of the target order or finds that there is no larger block. -/
theorem splitTo_spec (h : Inv z st free U added) (target : ℕ) :
    ∃ st' free', splitTo z target st = .ok st' ∧ Inv z st' free' U added ∧
      ReflTransGen Reshape (layout st free) (layout st' free') ∧ Keeps z U st st' ∧
      (free' target = [] → ∀ k, target < k → free' k = []) := by
  unfold splitTo
  cases hfind : splitFrom st (target + 1) (maxOrder - target) with
  | none =>
      refine ⟨st, free, rfl, h, .refl, .refl z U st, fun _ k hk => ?_⟩
      by_cases hle : k ≤ maxOrder
      · exact splitFrom_none h.lists hfind hk (by omega)
      · exact h.free_eq_nil (by omega)
  | some current =>
      obtain ⟨hle, hne⟩ := splitFrom_spec h.lists hfind
      obtain ⟨st', free', hdown, hinv', hne', hsplits, hkeep⟩ :=
        splitDown_spec h (by omega : target ≤ current) hne
      exact ⟨st', free', hdown, hinv', hsplits, hkeep, fun hnil => absurd hnil hne'⟩

/-! ## `coalesce_to` -/

/-- The successor of a free block in memory is the next one in its list. -/
theorem FreeLists.next_eq (h : FreeLists z st free) {k p : ℕ} {l₁ l₂ : List ℕ}
    (hl : free k = l₁ ++ p :: l₂) : (st.mem (z.addr p)).next = (l₂.map z.addr).head? := by
  have hlink := h.linked k
  rw [hl, List.map_append, List.map_cons] at hlink
  exact hlink.next_eq

/-- One turn of the inner loop of `coalesce_to`, on page numbers. -/
theorem scan_succ (hz : z.Aligned) (st : State) {order : ℕ} (hk : order + 1 ≤ maxOrder)
    (p fuel : ℕ) :
    scan z order st (fuel + 1) (z.addr p) =
      if (st.pfndb p).nextPaddr = 0 ∨ ¬ 2 ^ (order + 1) ∣ p then
        match (st.mem (z.addr p)).next with
        | none => .ok none
        | some next => scan z order st fuel next
      else .ok (some (z.addr p)) := by
  rw [scan]
  refine if_congr ?_ rfl rfl
  rw [Zone.pageFor_addr, ne_eq, Zone.addr_mod hz hk]

/-- The inner loop of `coalesce_to` skips the nodes that cannot be the lower half of a pair and stops
at the first other one or at the end of the list. -/
theorem scan_spec (hz : z.Aligned) (h : FreeLists z st free) {order p : ℕ} {l₁ l₂ : List ℕ}
    (hk : order + 1 ≤ maxOrder) (hl : free order = l₁ ++ p :: l₂) :
    ∃ r, (∀ fuel, l₂.length ≤ fuel → scan z order st (fuel + 1) (z.addr p) = .ok r) ∧
      (r = none ∧ (∀ x ∈ p :: l₂, (st.pfndb x).nextPaddr = 0 ∨ ¬ 2 ^ (order + 1) ∣ x) ∨
        ∃ q m₁ m₂, r = some (z.addr q) ∧ p :: l₂ = m₁ ++ q :: m₂ ∧
          ((st.pfndb q).nextPaddr ≠ 0 ∧ 2 ^ (order + 1) ∣ q) ∧
          ∀ x ∈ m₁, (st.pfndb x).nextPaddr = 0 ∨ ¬ 2 ^ (order + 1) ∣ x) := by
  induction l₂ generalizing l₁ p with
  | nil =>
      have hnext := h.next_eq hl
      by_cases hskip : (st.pfndb p).nextPaddr = 0 ∨ ¬ 2 ^ (order + 1) ∣ p
      · refine ⟨none, fun fuel _ => ?_, Or.inl ⟨rfl, by simpa using hskip⟩⟩
        rw [scan_succ hz st hk, if_pos hskip, hnext]
        rfl
      · rw [not_or, not_not] at hskip
        refine ⟨some (z.addr p), fun fuel _ => ?_, Or.inr ⟨p, [], [], rfl, rfl, hskip, by simp⟩⟩
        rw [scan_succ hz st hk, if_neg (by tauto)]
  | cons p' l₂ ih =>
      have hnext := h.next_eq hl
      by_cases hskip : (st.pfndb p).nextPaddr = 0 ∨ ¬ 2 ^ (order + 1) ∣ p
      · obtain ⟨r, hr, hcase⟩ := ih (show free order = (l₁ ++ [p]) ++ p' :: l₂ by simpa using hl)
        refine ⟨r, ?_, ?_⟩
        · rintro (_ | fuel) hfuel
          · simp at hfuel
          · rw [scan_succ hz st hk, if_pos hskip, hnext]
            exact hr fuel (by simpa using hfuel)
        · rcases hcase with ⟨rfl, hall⟩ | ⟨q, m₁, m₂, rfl, hm, hq, hall⟩
          · exact Or.inl ⟨rfl, List.forall_mem_cons.mpr ⟨hskip, hall⟩⟩
          · exact Or.inr ⟨q, p :: m₁, m₂, rfl, by rw [hm]; rfl, hq,
              List.forall_mem_cons.mpr ⟨hskip, hall⟩⟩
      · rw [not_or, not_not] at hskip
        refine ⟨some (z.addr p), fun fuel _ => ?_,
          Or.inr ⟨p, [], p' :: l₂, rfl, rfl, hskip, by simp⟩⟩
        rw [scan_succ hz st hk, if_neg (by tauto)]

/-- What a merge writes into the page database. -/
theorem mergePages_eq (st : State) {p q k : ℕ} (hpq : q ≠ p) (hk : k + 1 ≤ maxOrder)
    (hnext : (st.pfndb q).nextPaddr < 2 ^ 36) (hall : (st.pfndb p).allocated = false) :
    mergePages k p q st = { st with
      pfndb := Function.update st.pfndb p ⟨(st.pfndb q).nextPaddr, k + 1, false⟩ } := by
  simp only [mergePages, State.setPage, Page.setOrder_of_le _ hk]
  congr 1
  funext x
  by_cases hxp : x = p
  · subst hxp
    simp [Function.update_of_ne hpq, Page.setNextPaddr_of_lt _ hnext, hall]
  · simp [hxp]

/-- The free blocks after `p` and `q` have left list `k` and the block `p` has joined the next. -/
theorem freeSet_merge {p q k : ℕ} {l : List ℕ} (hmem : ∀ x, x ∈ l ↔ x ∈ free k ∧ x ≠ p ∧ x ≠ q) :
    freeSet (Function.update (Function.update free k l) (k + 1) (p :: free (k + 1))) =
      freeSet free \ {⟨p, k⟩, ⟨q, k⟩} ∪ {⟨p, k + 1⟩} := by
  ext ⟨x, j⟩
  simp only [mem_freeSet, Set.mem_union, Set.mem_sdiff, Set.mem_singleton_iff, Set.mem_insert_iff,
    Block.mk.injEq]
  by_cases hjk : j = k + 1
  · subst hjk
    simp
    tauto
  · by_cases hjk' : j = k
    · subst hjk'
      simp only [Function.update_of_ne hjk, Function.update_self, hmem x]
      tauto
    · simp [hjk, hjk']

/-- A merge in `coalesce_to` replaces two free halves by the block they make up. -/
theorem merge_spec (h : Inv z st free U added) {p k : ℕ} (hp : p ∈ free k)
    (hq : p + 2 ^ k ∈ free k) (hk : k + 1 ≤ maxOrder) (ha : 2 ^ (k + 1) ∣ p)
    (hnext : (st.pfndb p).nextPaddr ≠ 0) :
    ∃ free', Inv z (merge z k (z.addr p) (z.addr (p + 2 ^ k)) st) free' U added ∧
      (free' k).length + 2 = (free k).length ∧
      Merges k (layout st free) (layout (merge z k (z.addr p) (z.addr (p + 2 ^ k)) st) free') ∧
      Keeps z U st (merge z k (z.addr p) (z.addr (p + 2 ^ k)) st) := by
  have hpos := Nat.two_pow_pos k
  have hne : p + 2 ^ k ≠ p := by omega
  obtain ⟨l₁, l₂, hl⟩ := List.append_of_mem hp
  have hnd := h.lists.nodup k
  rw [hl] at hnd
  have hpl : p ∉ l₁ ++ l₂ := (List.nodup_middle.mp hnd |> List.nodup_cons.mp).1
  have hq' : p + 2 ^ k ∈ l₁ ++ l₂ := by
    rw [hl] at hq
    simp only [List.mem_append, List.mem_cons] at hq ⊢
    tauto
  obtain ⟨m₁, m₂, hm⟩ := List.append_of_mem hq'
  obtain ⟨hrem₁, hmem₁⟩ := h.lists.remove hl
  obtain ⟨hrem₂, hmem₂⟩ := hrem₁.remove (show Function.update free k (l₁ ++ l₂) k = m₁ ++ (p + 2 ^ k) :: m₂ by
    rw [Function.update_self, hm])
  rw [Function.update_idem] at hrem₂
  -- membership in what is left of the list
  have hnd₂ : (m₁ ++ (p + 2 ^ k) :: m₂).Nodup := by
    rw [← hm]
    exact (List.nodup_cons.mp (List.nodup_middle.mp hnd)).2
  have hql : p + 2 ^ k ∉ m₁ ++ m₂ := (List.nodup_cons.mp (List.nodup_middle.mp hnd₂)).1
  have hmem : ∀ x, x ∈ m₁ ++ m₂ ↔ x ∈ free k ∧ x ≠ p ∧ x ≠ p + 2 ^ k := by
    intro x
    have h₁ : x ∈ free k ↔ x = p ∨ x ∈ l₁ ++ l₂ := by
      rw [hl]
      simp only [List.mem_append, List.mem_cons]
      tauto
    have h₂ : x ∈ l₁ ++ l₂ ↔ x = p + 2 ^ k ∨ x ∈ m₁ ++ m₂ := by
      rw [hm]
      simp only [List.mem_append, List.mem_cons]
      tauto
    constructor
    · intro hx
      exact ⟨h₁.mpr (Or.inr (h₂.mpr (Or.inr hx))), fun hxp => hpl (hxp ▸ h₂.mpr (Or.inr hx)),
        fun hxq => hql (hxq ▸ hx)⟩
    · rintro ⟨hx, hxp, hxq⟩
      have := (h₁.mp hx).resolve_left hxp
      exact (h₂.mp this).resolve_left hxq
  have hout : ∀ j, p ∉ Function.update free k (m₁ ++ m₂) j := by
    intro j
    by_cases hjk : j = k
    · subst hjk
      rw [Function.update_self, hmem p]
      tauto
    · rw [Function.update_of_ne hjk]
      exact fun hj => hjk (h.lists.separate _ _ p hj hp)
  have hdb' : (merge z k (z.addr p) (z.addr (p + 2 ^ k)) st).pfndb =
      Function.update st.pfndb p ⟨(st.pfndb (p + 2 ^ k)).nextPaddr, k + 1, false⟩ := by
    have hdb : (remove k (z.addr (p + 2 ^ k)) (remove k (z.addr p) st)).pfndb = st.pfndb := by simp
    rw [merge, put_pfndb, Zone.pageFor_addr, Zone.pageFor_addr, mergePages_eq _ hne hk
      (by rw [hdb]; exact h.db.nextPaddr_lt (b := ⟨p + 2 ^ k, k⟩) (Or.inl hq))
      (by rw [hdb]; exact h.db.not_allocated (b := ⟨p, k⟩) hp (Block.base_mem_pages _)), hdb]
  have hpages : FreeLists z (mergePages k p (p + 2 ^ k) (remove k (z.addr (p + 2 ^ k))
      (remove k (z.addr p) st))) (Function.update free k (m₁ ++ m₂)) :=
    (hrem₂.setPage _ _).setPage _ _
  refine ⟨Function.update (Function.update free k (m₁ ++ m₂)) (k + 1) (p :: free (k + 1)),
    ⟨?_, ?_⟩, ?_, ?_, fun b hb q hq => ?_⟩
  · have hput := hpages.put (k + 1) hout
    rw [Function.update_of_ne (by omega : k + 1 ≠ k)] at hput
    simpa only [merge, Zone.pageFor_addr] using hput
  · rw [hdb', freeSet_merge hmem]
    exact h.db.merge hp hq hk ha
  · rw [Function.update_of_ne (by omega : k ≠ k + 1), Function.update_self, hl]
    have := congrArg List.length hm
    simp only [List.length_append, List.length_cons] at this ⊢
    omega
  · rw [layout, layout, hdb', freeSet_merge hmem]
    exact .mk hp hq hk ha hnext
  · have hqp : q ≠ p := fun heq =>
      h.not_mem_free (c := ⟨p, k⟩) hb hq hp (heq ▸ Block.base_mem_pages _)
    have hqfree := h.not_free hb hq
    have hsub : ∀ x ∈ m₁ ++ m₂, x ∈ free k := fun x hx => ((hmem x).mp hx).1
    have hsub₁ : ∀ x ∈ l₁ ++ l₂, x ∈ free k := by
      intro x hx
      rw [hl]
      simp only [List.mem_append, List.mem_cons] at hx ⊢
      tauto
    have hqout : ∀ j, q ∉ Function.update free k (m₁ ++ m₂) j := by
      intro j hj
      by_cases hjk : j = k
      · subst hjk
        rw [Function.update_self] at hj
        exact hqfree j (hsub q hj)
      · rw [Function.update_of_ne hjk] at hj
        exact hqfree j hj
    have hout : ∀ l : List ℕ, (∀ x ∈ l, x ∈ free k) → z.addr q ∉ l.map z.addr := fun l hsub hin =>
      hqfree k (hsub q ((List.mem_map_of_injective z.addr_injective).mp hin))
    rw [merge, Zone.pageFor_addr, Zone.pageFor_addr, hpages.put_mem (k + 1) hqout hqp]
    exact (hmem₂ _ (hout _ hsub)).trans (hmem₁ _ (hout _ hsub₁))

/-- The address of the block after `q` that `coalesce_to` reads off the chain. -/
theorem Inv.buddy (h : Inv z st free U added) {q k : ℕ} (hq : q ∈ free k)
    (hnext : (st.pfndb q).nextPaddr ≠ 0) :
    tohh z.hhdm ((st.pfndb q).nextPaddr <<< pageBits % 2 ^ 64) = z.addr (q + 2 ^ k) ∧
      ∃ c ∈ freeSet free ∪ U, c.base = q + 2 ^ k := by
  obtain ⟨hn, c, hc, hcb⟩ := (h.db.chain ⟨q, k⟩ (Or.inl hq)).resolve_left hnext
  dsimp only at hn hcb
  refine ⟨?_, c, hc, hcb⟩
  have hfits := h.db.fits c hc
  obtain ⟨hlt, hend, -⟩ := hfits.bounds
  have hpos := Nat.two_pow_pos c.order
  have hshift : (st.pfndb q).nextPaddr <<< pageBits = c.base * pageSize := by
    rw [hn, ← hcb, Nat.shiftLeft_eq]
    rfl
  have hw : c.base * pageSize < 2 ^ 64 := by
    simp only [pageSize] at hend ⊢
    omega
  rw [hshift, Nat.mod_eq_of_lt hw, hfits.tohh, hcb]

/-- A turn of the `while` loop of `coalesce_to` that starts at `p` and whose scan stops at `q`. -/
theorem coalesceOrder_succ (h : Inv z st free U added) {k p q fuel : ℕ} (hne : free k ≠ [])
    (hscan : scan z k st (fuel + 1) (z.addr p) = .ok (some (z.addr q))) (hq : q ∈ free k)
    (hnext : (st.pfndb q).nextPaddr ≠ 0) :
    coalesceOrder z k (fuel + 1) (some (z.addr p)) st =
      if (st.pfndb (q + 2 ^ k)).allocated || (st.pfndb (q + 2 ^ k)).order != k then
        match (st.mem (z.addr q)).next with
        | none => .ok st
        | some next => coalesceOrder z k fuel (some next) st
      else
        coalesceOrder z k fuel ((merge z k (z.addr q) (z.addr (q + 2 ^ k)) st).lists k)
          (merge z k (z.addr q) (z.addr (q + 2 ^ k)) st) := by
  have hpages := (hasPages_iff h.lists k).mpr hne
  have hall : (st.pfndb q).allocated = false :=
    h.db.not_allocated (b := ⟨q, k⟩) hq (Block.base_mem_pages _)
  have horder : (st.pfndb q).order = k := h.db.order_eq ⟨q, k⟩ (Or.inl hq)
  have hbuddy := (h.buddy hq hnext).1
  simp only [coalesceOrder, hpages, deref, bind, Except.bind, hscan, Zone.pageFor_addr, bugOn, hall,
    horder, hbuddy, bne_self_eq_false]
  rfl

/-- The block after `q` in the chain is its buddy exactly when its entry says that it is free and of
the same order. -/
theorem Inv.buddy_free_iff (h : Inv z st free U added) {q k : ℕ} (hq : q ∈ free k)
    (hnext : (st.pfndb q).nextPaddr ≠ 0) :
    ((st.pfndb (q + 2 ^ k)).allocated || (st.pfndb (q + 2 ^ k)).order != k) = false ↔
      q + 2 ^ k ∈ free k := by
  rw [Bool.or_eq_false_iff, bne_eq_false_iff_eq]
  constructor
  · rintro ⟨hall, horder⟩
    obtain ⟨c, hc, hcb⟩ := (h.buddy hq hnext).2
    have hck : c = ⟨q + 2 ^ k, k⟩ := by
      have hc' := h.db.order_eq c hc
      rw [hcb, horder] at hc'
      exact Block.ext hcb hc'.symm
    rcases hc with hc | hc
    · rw [hck] at hc
      exact hc
    · have hused := (h.db.allocated_iff _).mpr ⟨c, hc, hcb⟩
      rw [hall] at hused
      cases hused
  · intro hfree
    have hmem : (⟨q + 2 ^ k, k⟩ : Block) ∈ freeSet free := hfree
    exact ⟨h.db.not_allocated hmem (Block.base_mem_pages _), h.db.order_eq _ (Or.inl hmem)⟩

/-- The `while` loop of `coalesce_to` returns from every position in the list and leaves no merge
behind at its order. -/
theorem coalesceOrder_spec (hz : z.Aligned) {k : ℕ} (hk : k + 1 ≤ maxOrder)
    (h : Inv z st free U added) :
    ∃ st' free', Returns (fun fuel => coalesceOrder z k fuel (st.lists k) st) st' ∧
      Inv z st' free' U added ∧ ReflTransGen (Merges k) (layout st free) (layout st' free') ∧
      Settled k (layout st' free') ∧ Keeps z U st st' := by
  -- the list gets shorter with every merge
  induction hn : (free k).length using Nat.strong_induction_on generalizing st free with
  | _ n ih =>
      -- and between two merges the position moves towards the end of the list, past nodes that
      -- cannot be merged
      have hwalk : ∀ m l₁ p l₂, l₂.length = m → free k = l₁ ++ p :: l₂ →
          (∀ x ∈ l₁, 2 ^ (k + 1) ∣ x → x + 2 ^ k ∈ free k → (st.pfndb x).nextPaddr = 0) →
          ∃ st' free', Returns (fun fuel => coalesceOrder z k fuel (some (z.addr p)) st) st' ∧
            Inv z st' free' U added ∧ ReflTransGen (Merges k) (layout st free) (layout st' free') ∧
            Settled k (layout st' free') ∧ Keeps z U st st' := by
        intro m
        induction m using Nat.strong_induction_on with
        | _ m ihm =>
            intro l₁ p l₂ hm hl hpast
            have hne : free k ≠ [] := by simp [hl]
            have hpages := (hasPages_iff h.lists k).mpr hne
            obtain ⟨r, hscan, hr⟩ := scan_spec hz h.lists hk hl
            rcases hr with ⟨rfl, hskip⟩ | ⟨q, m₁, m₂, rfl, hsplit, ⟨hnext, hdvd⟩, hskip⟩
            · refine ⟨st, free, ?_, h, .refl, ?_, .refl z U st⟩
              · refine (Returns.of_eq (fun _ => rfl) : Returns (fun _ => Except.ok st) st).succ
                  (M := l₂.length) fun fuel hfuel => ?_
                simp only [coalesceOrder, hpages, deref, bind, Except.bind, hscan fuel hfuel]
                rfl
              · intro x hx hlow hhigh
                have hlow : x ∈ l₁ ++ p :: l₂ := hl ▸ hlow
                rcases List.mem_append.mp hlow with hin | hin
                · exact hpast x hin hx hhigh
                · exact (hskip x hin).resolve_right (not_not.mpr hx)
            · have hlq : free k = (l₁ ++ m₁) ++ q :: m₂ := by rw [hl, hsplit, List.append_assoc]
              have hq : q ∈ free k := by simp [hlq]
              have hturn := fun fuel hfuel =>
                coalesceOrder_succ h hne (hscan fuel hfuel) hq hnext
              by_cases hbuddy : q + 2 ^ k ∈ free k
              · have hcond := (h.buddy_free_iff hq hnext).mpr hbuddy
                simp only [hcond, if_false, Bool.false_eq_true] at hturn
                obtain ⟨free', hinv', hlen, hmerge, hkeep⟩ := merge_spec h hq hbuddy hk hdvd hnext
                obtain ⟨st'', free'', hret, hinv'', hmerges, hset, hkeep'⟩ :=
                  ih (free' k).length (by omega) hinv' rfl
                exact ⟨st'', free'', hret.succ hturn, hinv'', .head hmerge hmerges, hset,
                  hkeep.trans hkeep'⟩
              · -- cannot coalesce: go on after `q`
                have hcond : ((st.pfndb (q + 2 ^ k)).allocated ||
                    (st.pfndb (q + 2 ^ k)).order != k) = true := by
                  rw [← Bool.not_eq_false, h.buddy_free_iff hq hnext]
                  exact hbuddy
                have hpast' : ∀ x ∈ l₁ ++ m₁ ++ [q], 2 ^ (k + 1) ∣ x → x + 2 ^ k ∈ free k →
                    (st.pfndb x).nextPaddr = 0 := by
                  intro x hx hxdvd hxbuddy
                  rw [List.append_assoc, List.mem_append, List.mem_append, List.mem_singleton] at hx
                  rcases hx with hx | hx | rfl
                  · exact hpast x hx hxdvd hxbuddy
                  · exact (hskip x hx).resolve_right (not_not.mpr hxdvd)
                  · exact absurd hxbuddy hbuddy
                simp only [hcond, if_true, h.lists.next_eq hlq] at hturn
                cases m₂ with
                | nil =>
                    refine ⟨st, free, (Returns.of_eq fun _ => rfl).succ hturn, h, .refl, ?_,
                      .refl z U st⟩
                    intro x hx hlow hhigh
                    exact hpast' x (hlq ▸ hlow) hx hhigh
                | cons q' m₂ =>
                    have hlen := congrArg List.length hsplit
                    simp only [List.length_append, List.length_cons] at hlen
                    obtain ⟨st', free', hret, hrest⟩ := ihm m₂.length (by omega)
                      (l₁ ++ m₁ ++ [q]) q' m₂ rfl (by simpa using hlq) hpast'
                    exact ⟨st', free', hret.succ hturn, hrest⟩
      cases hfree : free k with
      | nil =>
          refine ⟨st, free, (Returns.of_eq fun _ => rfl).succ (M := 0) fun fuel _ => ?_, h, .refl, ?_,
            .refl z U st⟩
          · have hpages : hasPages k st = false := by
              rw [← Bool.not_eq_true, hasPages_iff h.lists k]
              simp [hfree]
            simp [coalesceOrder, hpages, pure, Except.pure]
          · intro x _ hlow
            simp [layout, hfree] at hlow
      | cons p l =>
          have hhead : st.lists k = some (z.addr p) := by rw [h.lists.head k, hfree]; rfl
          rw [hhead]
          exact hwalk l.length [] p l rfl hfree (by simp)

/-- Merges at order `k` leave the lower orders settled and the orders above `k + 1` alone. -/
theorem Inv.merges_frame (h : Inv z st free U added) {k : ℕ} {s' : (ℕ → Page) × Set Block}
    (hs : ReflTransGen (Merges k) (layout st free) s') :
    (∀ j < k, Settled j (layout st free) → Settled j s') ∧
      ∀ b : Block, k + 1 < b.order → (b ∈ s'.2 ↔ b ∈ freeSet free) := by
  have hall : PageDb z s'.1 s'.2 U added ∧ (∀ j < k, Settled j (layout st free) → Settled j s') ∧
      ∀ b : Block, k + 1 < b.order → (b ∈ s'.2 ↔ b ∈ freeSet free) := by
    induction hs with
    | refl => exact ⟨h.db, fun _ _ hset => hset, fun _ _ => Iff.rfl⟩
    | tail _ hstep ih =>
        obtain ⟨hdb, hset, hmem⟩ := ih
        exact ⟨hdb.merges hstep, fun j hj hj' => hstep.settled hdb hj (hset j hj hj'),
          fun b hb => (hstep.mem_iff (Or.inr hb)).trans (hmem b hb)⟩
  exact hall.2

theorem Merges.reshapes {k : ℕ} {s s' : (ℕ → Page) × Set Block} (hs : ReflTransGen (Merges k) s s') :
    ReflTransGen Reshape s s' :=
  hs.lift id fun _ _ hstep => (Or.inr ⟨k, hstep⟩ : Reshape _ _)

/-- The `for` loop of `coalesce_to` settles one order after the other. -/
theorem coalesceFrom_spec (hz : z.Aligned) (h : Inv z st free U added) {order left : ℕ}
    (hle : order + left ≤ maxOrder) (hdone : ∀ j < order, Settled j (layout st free)) :
    ∃ st' free', Returns (fun fuel => coalesceFrom z fuel order left st) st' ∧
      Inv z st' free' U added ∧ ReflTransGen Reshape (layout st free) (layout st' free') ∧
      Keeps z U st st' ∧ (∀ j < order + left, Settled j (layout st' free')) ∧
      ∀ b : Block, order + left < b.order → (b ∈ freeSet free' ↔ b ∈ freeSet free) := by
  induction left generalizing order st free with
  | zero =>
      exact ⟨st, free, Returns.of_eq fun _ => rfl, h, .refl, .refl z U st, hdone, fun _ _ => Iff.rfl⟩
  | succ left ih =>
      obtain ⟨st₁, free₁, hret₁, hinv₁, hmerges, hset, hkeep₁⟩ :=
        coalesceOrder_spec hz (by omega : order + 1 ≤ maxOrder) h
      obtain ⟨hkeep, hmem⟩ := h.merges_frame hmerges
      have hdone₁ : ∀ j < order + 1, Settled j (layout st₁ free₁) := by
        intro j hj
        rcases Nat.lt_succ_iff_lt_or_eq.mp hj with hj | rfl
        · exact hkeep j hj (hdone j hj)
        · exact hset
      obtain ⟨st', free', hret', hinv', hreshapes, hkeep', hset', hmem'⟩ :=
        ih hinv₁ (by omega : order + 1 + left ≤ maxOrder) hdone₁
      rw [show order + 1 + left = order + (left + 1) by omega] at hset' hmem'
      exact ⟨st', free', hret₁.bind hret', hinv', (Merges.reshapes hmerges).trans hreshapes,
        hkeep₁.trans hkeep', hset', fun b hb => (hmem' b hb).trans (hmem b (by omega))⟩

theorem coalesceTo_spec (hz : z.Aligned) (h : Inv z st free U added) (target : ℕ) :
    ∃ st' free', Returns (fun fuel => coalesceTo z fuel target st) st' ∧
      Inv z st' free' U added ∧ ReflTransGen Reshape (layout st free) (layout st' free') ∧
      Keeps z U st st' ∧ (∀ j < min target maxOrder, Settled j (layout st' free')) ∧
      ∀ b : Block, min target maxOrder < b.order → (b ∈ freeSet free' ↔ b ∈ freeSet free) := by
  have hspec := coalesceFrom_spec hz h (by omega : 0 + min target maxOrder ≤ maxOrder) (by simp)
  rwa [Nat.zero_add] at hspec

/-! ## `alloc` and `free` -/

/-- Up to the label `found`, `alloc` only splits and merges free blocks; it goes on exactly when
there is a block of the wanted order. If there is none, then there is no larger block either and the
lower orders are settled. -/
theorem ensure_spec (hz : z.Aligned) (h : Inv z st free U added) (k : ℕ) :
    ∃ st' free', Returns (fun fuel => ensure z fuel k st) (st', hasPages k st') ∧
      Inv z st' free' U added ∧ ReflTransGen Reshape (layout st free) (layout st' free') ∧
      Keeps z U st st' ∧ (k ≤ maxOrder → free' k = [] →
        (∀ j, k ≤ j → free' j = []) ∧ ∀ j < k, Settled j (layout st' free')) := by
  have hrest : ∀ s : State, Returns (fun _ => (.ok (s, hasPages k s) : Except Stop (State × Bool)))
    (s, hasPages k s) := fun s => Returns.of_eq fun _ => rfl
  cases hpages : hasPages k st with
  | true =>
      refine ⟨st, free, Returns.of_eq fun fuel => ?_, h, .refl, .refl z U st, fun _ hnil => ?_⟩
      · simp [ensure, hpages, pure, Except.pure]
      · exact absurd hnil ((hasPages_iff h.lists k).mp hpages)
  | false =>
      by_cases hmax : k = maxOrder
      · subst hmax
        obtain ⟨st', free', hret, hinv', hreshapes, hkeep, hset, -⟩ := coalesceTo_spec hz h maxOrder
        rw [min_self] at hset
        refine ⟨st', free', (hret.bind (g := fun _ s => .ok (s, hasPages maxOrder s))
          (hrest st')).congr (M := 0) fun fuel _ => ?_, hinv', hreshapes, hkeep,
          fun _ hnil => ⟨?_, hset⟩⟩
        · simp [ensure, hpages, pure, Except.pure]
        · intro j hj
          rcases Nat.eq_or_lt_of_le hj with rfl | hj
          · exact hnil
          · exact hinv'.free_eq_nil hj
      · obtain ⟨st₁, free₁, hsplit, hinv₁, hreshapes₁, hkeep₁, hnone⟩ := splitTo_spec h k
        cases hpages₁ : hasPages k st₁ with
        | true =>
            refine ⟨st₁, free₁, Returns.of_eq fun fuel => ?_, hinv₁, hreshapes₁, hkeep₁,
              fun _ hnil => ?_⟩
            · simp [ensure, hpages, hmax, hsplit, hpages₁, bind, Except.bind, pure, Except.pure]
            · exact absurd hnil ((hasPages_iff hinv₁.lists k).mp hpages₁)
        | false =>
            have hnil₁ : free₁ k = [] := by
              by_contra hne
              rw [(hasPages_iff hinv₁.lists k).mpr hne] at hpages₁
              cases hpages₁
            have hlarge : ∀ j, k ≤ j → free₁ j = [] := by
              intro j hj
              rcases Nat.eq_or_lt_of_le hj with rfl | hj
              · exact hnil₁
              · exact hnone hnil₁ j hj
            by_cases hk0 : k = 0
            · subst hk0
              refine ⟨st₁, free₁, Returns.of_eq fun fuel => ?_, hinv₁, hreshapes₁, hkeep₁,
                fun _ _ => ⟨hlarge, by simp⟩⟩
              simp [ensure, hpages, hmax, hsplit, hpages₁, bind, Except.bind, pure, Except.pure]
            · obtain ⟨st', free', hret, hinv', hreshapes, hkeep, hset, hmem⟩ :=
                coalesceTo_spec hz hinv₁ k
              refine ⟨st', free', (hret.bind (g := fun _ s => .ok (s, hasPages k s))
                (hrest st')).congr (M := 0) fun fuel _ => ?_, hinv', hreshapes₁.trans hreshapes,
                hkeep₁.trans hkeep, fun hk hnil => ?_⟩
              · simp [ensure, hpages, hmax, hsplit, hpages₁, hk0, bind, Except.bind, pure,
                  Except.pure]
              · rw [min_eq_left hk] at hset hmem
                refine ⟨fun j hj => ?_, hset⟩
                rcases Nat.eq_or_lt_of_le hj with rfl | hj
                · exact hnil
                · -- merging does not make blocks larger than the target
                  refine List.eq_nil_iff_forall_not_mem.mpr fun p hp => ?_
                  have hold : p ∈ free₁ j := (hmem ⟨p, j⟩ hj).mp hp
                  rw [hlarge j hj.le] at hold
                  cases hold

/-- The order of the block that `alloc` looks for and `free` expects. -/
def orderFor (npages : ℕ) : ℕ := (nextOrderFrom (npages * pageSize % 2 ^ 64)).toNat

/-- For every request the source's order is a natural number: the least one whose block holds the
request. -/
theorem nextOrderFrom_eq {n : ℕ} (h1 : 1 ≤ n) (h2 : n ≤ 2 ^ 51) :
    nextOrderFrom (n * pageSize % 2 ^ 64) = orderFor n ∧ n ≤ 2 ^ orderFor n ∧
      ∀ j < orderFor n, 2 ^ j < n := by
  have hsize : n * pageSize % 2 ^ 64 = n * pageSize :=
    Nat.mod_eq_of_lt (by simp only [pageSize]; omega)
  have hpage : pageSize ≤ n * pageSize := Nat.le_mul_of_pos_left _ h1
  obtain ⟨k, heq, hfits, hleast⟩ := nextOrderFrom_isLeast hpage (by simp only [pageSize]; omega)
  have hord : orderFor n = k := by rw [orderFor, hsize, heq, Int.toNat_natCast]
  have hpages (j : ℕ) : n * pageSize ≤ pageSize * 2 ^ j ↔ n ≤ 2 ^ j := by
    rw [Nat.mul_comm n]
    exact Nat.mul_le_mul_left_iff (by decide)
  rw [hsize, hord, heq]
  refine ⟨rfl, (hpages k).mp hfits, fun j hj => ?_⟩
  by_contra hge
  exact absurd (hleast ((hpages j).mpr (Nat.not_lt.mp hge))) (Nat.not_le.mpr hj)

/-- From the label `found` on, `alloc` hands out the first block of the list, whose `prev` is null. -/
theorem takeFirst_spec (h : Inv z st free U added) {p k : ℕ} {l : List ℕ} (hl : free k = p :: l) :
    ∃ st' free', takeFirst z k st = .ok (st', z.addr p) ∧
      Inv z st' free' (insert ⟨p, k⟩ U) added ∧ Keeps z U st st' ∧ (st'.mem (z.addr p)).prev = none ∧
      ∀ O, Pieces st.pfndb (freeSet free ∪ U) O added →
        Pieces st'.pfndb (freeSet free' ∪ insert ⟨p, k⟩ U) O added := by
  have hp : (⟨p, k⟩ : Block) ∈ freeSet free := by simp [hl]
  have hall : (st.pfndb p).allocated = false := h.db.not_allocated hp (Block.base_mem_pages _)
  have horder : (st.pfndb p).order = k := h.db.order_eq _ (Or.inl hp)
  have hpl : p ∉ l := by
    have hnd := h.lists.nodup k
    rw [hl] at hnd
    exact (List.nodup_cons.mp hnd).1
  have hfree : freeSet (Function.update free k l) = freeSet free \ {⟨p, k⟩} := by
    ext ⟨x, j⟩
    simp only [mem_freeSet, Set.mem_sdiff, Set.mem_singleton_iff, Block.mk.injEq]
    by_cases hjk : j = k
    · subst hjk
      simp only [Function.update_self, hl, List.mem_cons]
      constructor
      · intro hx
        exact ⟨Or.inr hx, fun hxp => hpl (hxp.1 ▸ hx)⟩
      · rintro ⟨rfl | hx, hne⟩
        · simp at hne
        · exact hx
    · simp [hjk]
  obtain ⟨st₁, hrem, hdb₁, hlists₁, hmem₁⟩ := h.lists.rem hl
  have hout : ∀ q, q ∉ l → st₁.mem (z.addr q) = st.mem (z.addr q) := fun q hq =>
    hmem₁ _ fun hin => hq ((List.mem_map_of_injective z.addr_injective).mp hin)
  refine ⟨st₁.setPage p ((st₁.pfndb p).setAllocated true), Function.update free k l, ?_,
    ⟨hlists₁.setPage _ _, ?_⟩, fun b hb q hq => ?_, ?_, ?_⟩
  · simp only [takeFirst, hrem, bind, Except.bind, Zone.pageFor_addr, bugOn, hdb₁, hall, horder,
      bne_self_eq_false]
    rfl
  · rw [hfree]
    simpa only [State.setPage, Page.setAllocated, hdb₁] using h.db.take hp
  · refine hout q fun hin => ?_
    have hfree : (⟨q, k⟩ : Block) ∈ freeSet free := by
      rw [mem_freeSet, hl]
      exact List.mem_cons_of_mem _ hin
    exact h.not_mem_free hb hq hfree (Block.base_mem_pages _)
  · have hlink := h.lists.linked k
    rw [hl, List.map_cons, ← List.nil_append (_ :: _)] at hlink
    rw [setPage_mem, hout p hpl]
    exact hlink.prev_eq
  · intro O hpieces
    have hblocks : freeSet free \ {⟨p, k⟩} ∪ insert ⟨p, k⟩ U = freeSet free ∪ U := by
      rw [Set.union_insert, ← Set.insert_union, Set.insert_sdiff_self_of_mem hp]
    rw [hfree, hblocks]
    refine hpieces.congr fun x => ?_
    by_cases hx : x = p <;> simp [State.setPage, Page.setAllocated, hdb₁, hx]

/-- `alloc` either returns a null pointer and leaves the blocks handed out alone, or hands out one
more block of the wanted order, whose first word is null. A null pointer for a legal order means that
there is no larger free block either and that no merge is left below that order. -/
theorem alloc_spec (hz : z.Aligned) (h : Inv z st free U added) {n : ℕ} (h1 : 1 ≤ n)
    (h2 : n ≤ 2 ^ 51) :
    ∃ st' free', (Returns (fun fuel => alloc z fuel n st) (st', none, 0) ∧
        Inv z st' free' U added ∧ ReflTransGen Reshape (layout st free) (layout st' free') ∧
        Keeps z U st st' ∧ (orderFor n ≤ maxOrder → (∀ j, orderFor n ≤ j → free' j = []) ∧
          ∀ j < orderFor n, Settled j (layout st' free'))) ∨
      ∃ p, Returns (fun fuel => alloc z fuel n st) (st', some (z.addr p), blockBytes (orderFor n)) ∧
        (⟨p, orderFor n⟩ : Block) ∉ U ∧ Inv z st' free' (insert ⟨p, orderFor n⟩ U) added ∧
        Keeps z U st st' ∧ (st'.mem (z.addr p)).prev = none ∧ ∀ O, Pieces st.pfndb (freeSet free ∪ U) O added →
          Pieces st'.pfndb (freeSet free' ∪ insert ⟨p, orderFor n⟩ U) O added := by
  obtain ⟨hord, -, -⟩ := nextOrderFrom_eq h1 h2
  have halloc : ∀ fuel, alloc z fuel n st =
      if maxOrder < orderFor n then .ok (st, none, 0) else allocOrder z fuel (orderFor n) st := by
    intro fuel
    simp only [alloc, hord, Int.toNat_natCast]
    exact if_congr (by omega) rfl rfl
  by_cases hbig : maxOrder < orderFor n
  · refine ⟨st, free, Or.inl ⟨Returns.of_eq fun fuel => ?_, h, .refl, .refl z U st, fun hle => ?_⟩⟩
    · rw [halloc, if_pos hbig]
    · exact absurd hbig (not_lt.mpr hle)
  · simp only [halloc, if_neg hbig]
    obtain ⟨st₁, free₁, hret, hinv₁, hreshapes, hkeep₁, hnone⟩ := ensure_spec hz h (orderFor n)
    cases hfree : free₁ (orderFor n) with
    | nil =>
        have hpages : hasPages (orderFor n) st₁ = false := by
          rw [← Bool.not_eq_true, hasPages_iff hinv₁.lists]
          simp [hfree]
        rw [hpages] at hret
        exact ⟨st₁, free₁, Or.inl ⟨hret.bind (Returns.of_eq fun _ => rfl), hinv₁, hreshapes, hkeep₁,
          fun hle => hnone hle hfree⟩⟩
    | cons p l =>
        have hpages : hasPages (orderFor n) st₁ = true := by
          rw [hasPages_iff hinv₁.lists]
          simp [hfree]
        rw [hpages] at hret
        obtain ⟨st', free', htake, hinv', hkeep, hnull, hpieces⟩ := takeFirst_spec hinv₁ hfree
        refine ⟨st', free', Or.inr ⟨p, hret.bind (Returns.of_eq fun _ => ?_), ?_, hinv',
          hkeep₁.trans hkeep, hnull, fun O hO => hpieces O (h.reshapes hreshapes hO)⟩⟩
        · simp only [if_true, htake, bind, Except.bind]
          rfl
        · have hp : (⟨p, orderFor n⟩ : Block) ∈ freeSet free₁ := by simp [hfree]
          exact Set.disjoint_left.mp hinv₁.db.separate hp

/-- `free` takes back a block that was handed out for the same number of pages, by its physical or
its direct map address. -/
theorem free_spec (h : Inv z st free U added) {n p ptr : ℕ} (h1 : 1 ≤ n) (h2 : n ≤ 2 ^ 51)
    (hp : (⟨p, orderFor n⟩ : Block) ∈ U) (hptr : ptr = z.addr p ∨ ptr = p * pageSize) :
    ∃ st' free', Pmm.free z ptr n st = .ok (st', n * pageSize % 2 ^ 64) ∧
      Inv z st' free' (U \ {⟨p, orderFor n⟩}) added ∧
      freeSet free' = insert ⟨p, orderFor n⟩ (freeSet free) ∧
      Keeps z (U \ {⟨p, orderFor n⟩}) st st' ∧ ∀ O, Pieces st.pfndb (freeSet free ∪ U) O added →
        Pieces st'.pfndb (freeSet free' ∪ U \ {⟨p, orderFor n⟩}) O added := by
  obtain ⟨hord, -, -⟩ := nextOrderFrom_eq h1 h2
  have hfits := h.db.fits _ (Or.inr hp)
  have hle : ¬ (((orderFor n : ℕ) : ℤ) < 0 ∨ maxOrder < orderFor n) := by
    have := hfits.order_le
    dsimp only at this
    omega
  have hall : (st.pfndb p).allocated = true := (h.db.allocated_iff p).mpr ⟨_, hp, rfl⟩
  have horder : (st.pfndb p).order = orderFor n := h.db.order_eq _ (Or.inr hp)
  have hpage : z.pageFor ptr = p ∧ tohh z.hhdm ptr = z.addr p := by
    rcases hptr with rfl | rfl
    · exact ⟨z.pageFor_addr p, tohh_add⟩
    · have hlt := hfits.bounds.1
      refine ⟨?_, hfits.tohh⟩
      rw [Zone.pageFor, fromhh, ishh, if_pos (by simpa using hlt)]
      exact Nat.mul_div_cancel _ (by decide)
  have hout : ∀ k, p ∉ free k := by
    intro k hk
    have heq : (⟨p, k⟩ : Block) = ⟨p, orderFor n⟩ := h.db.eq_of_base (Or.inl hk) (Or.inr hp) rfl
    exact Set.disjoint_left.mp h.db.separate (heq ▸ hk : (⟨p, orderFor n⟩ : Block) ∈ freeSet free) hp
  refine ⟨put (orderFor n) (z.addr p) (st.setPage p ((st.pfndb p).setAllocated false)),
    Function.update free (orderFor n) (p :: free (orderFor n)), ?_, ⟨?_, ?_⟩, freeSet_cons _ _ _,
    fun b hb q hq => ?_, ?_⟩
  · simp only [Pmm.free, hord, Int.toNat_natCast, if_neg hle, freeOrder, hpage, hall, horder, bugOn,
      bind, Except.bind, bne_self_eq_false]
    rfl
  · exact (h.lists.setPage _ _).put _ hout
  · rw [freeSet_cons, put_pfndb]
    exact h.db.give hp
  · have hqfree := h.not_free hb.1 hq
    refine (h.lists.setPage _ _).put_mem _ hqfree fun heq => ?_
    -- another block that is handed out
    have hdisj := h.db.disjoint (Or.inr hb.1) (Or.inr hp) hb.2
    exact Set.disjoint_left.mp hdisj hq (heq ▸ Block.base_mem_pages ⟨p, orderFor n⟩)
  · intro O hpieces
    have hblocks : insert ⟨p, orderFor n⟩ (freeSet free) ∪ U \ {⟨p, orderFor n⟩} = freeSet free ∪ U := by
      rw [Set.insert_union, ← Set.union_insert, Set.insert_sdiff_self_of_mem hp]
    rw [freeSet_cons, hblocks, put_pfndb]
    refine hpieces.congr fun x => ?_
    by_cases hx : x = p <;> simp [State.setPage, Page.setAllocated, hx]

/-! ## `add_range` -/

/-- The greatest order whose block fits into `m` pages. -/
theorem prevOrderFrom_eq {m : ℕ} (h1 : 1 ≤ m) (h2 : m ≤ 2 ^ 51) :
    ∃ k : ℕ, prevOrderFrom (m * pageSize) = k ∧ 2 ^ k ≤ m ∧ m < 2 ^ (k + 1) := by
  have hpage : pageSize ≤ m * pageSize := Nat.le_mul_of_pos_left _ h1
  obtain ⟨k, heq, hfits, hgreatest⟩ := prevOrderFrom_isGreatest hpage
    (by simp only [pageSize]; omega)
  have hpages (j : ℕ) : pageSize * 2 ^ j ≤ m * pageSize ↔ 2 ^ j ≤ m := by
    rw [Nat.mul_comm m]
    exact Nat.mul_le_mul_left_iff (by decide)
  refine ⟨k, heq, (hpages k).mp hfits, ?_⟩
  by_contra hge
  exact absurd (hgreatest ((hpages (k + 1)).mpr (Nat.not_lt.mp hge))) (Nat.not_succ_le_self k)

/-- The inner loop of `add_range` finds an order, since every page is aligned to order zero. -/
theorem alignOrder_spec (hz : z.Aligned) (p : ℕ) {order : ℕ} (hk : order ≤ maxOrder) :
    ∃ j ≤ order, alignOrder (z.addr p) order = some j ∧ 2 ^ j ∣ p := by
  induction order with
  | zero =>
      have h0 : z.addr p % blockBytes 0 = 0 := (Zone.addr_mod hz (by omega)).mpr (by simp)
      exact ⟨0, le_rfl, by simp [alignOrder, h0], by simp⟩
  | succ order ih =>
      by_cases hal : 2 ^ (order + 1) ∣ p
      · exact ⟨order + 1, le_rfl, by simp [alignOrder, (Zone.addr_mod hz hk).mpr hal], hal⟩
      · obtain ⟨j, hj, hfind, hdvd⟩ := ih (by omega)
        have hne : ¬ z.addr p % blockBytes (order + 1) = 0 := fun h0 =>
          hal ((Zone.addr_mod hz hk).mp h0)
        exact ⟨j, by omega, by simp [alignOrder, hne, hfind], hdvd⟩

theorem addRangeLoop_zero (z : Zone) (fuel base : ℕ) (st : State) :
    addRangeLoop z fuel base 0 st = (st, 0) := by
  cases fuel <;> simp [addRangeLoop, pageSize]

/-- The blocks that the loop of `add_range` inserts, in its order. -/
def addRangeBlocks (z : Zone) : ℕ → ℕ → ℕ → List Block
  | 0, _, _ => []
  | fuel + 1, base, size =>
      if pageSize ≤ size then
        let sorder := prevOrderFrom size
        if sorder < 0 then []
        else
          match alignOrder base (min sorder.toNat maxOrder) with
          | none => []
          | some order =>
              let offset := blockBytes order
              ⟨z.pageFor base, order⟩ ::
                addRangeBlocks z fuel ((base + offset) % 2 ^ 64) (size - offset)
      else []

theorem addRangeBlocks_zero (z : Zone) (fuel base : ℕ) : addRangeBlocks z fuel base 0 = [] := by
  cases fuel <;> simp [addRangeBlocks, pageSize]

/-- The body of the loop of `add_range`: a block over new pages joins the free blocks. -/
theorem Inv.addBlock (h : Inv z st free U added) {b : Block} (hfits : z.Fits b)
    (hnew : Disjoint b.pages added) :
    Inv z (put b.order (z.addr b.base)
        ((st.setNode (z.addr b.base) ⟨none, none⟩).setPage b.base
          ((st.pfndb b.base).setOrder b.order)))
      (Function.update free b.order (b.base :: free b.order)) U (added ∪ b.pages) ∧
    ∀ O, Pieces st.pfndb (freeSet free ∪ U) O added →
      Pieces (put b.order (z.addr b.base)
          ((st.setNode (z.addr b.base) ⟨none, none⟩).setPage b.base
            ((st.pfndb b.base).setOrder b.order))).pfndb
        (freeSet (Function.update free b.order (b.base :: free b.order)) ∪ U) (insert b O)
        (added ∪ b.pages) := by
  have hout : ∀ k, b.base ∉ free k := fun k hk =>
    Set.disjoint_left.mp hnew b.base_mem_pages
      (h.db.mem_added (b := ⟨b.base, k⟩) (Or.inl hk) (Block.base_mem_pages _))
  refine ⟨⟨?_, ?_⟩, fun O hpieces => ?_⟩
  · refine ((h.lists.setNode ?_ _).setPage _ _).put _ hout
    intro k p hp heq
    exact hout k (Zone.addr_inj.mp heq ▸ hp)
  · rw [freeSet_cons, put_pfndb]
    simpa only [State.setPage, setNode_pfndb, Page.setOrder_of_le _ hfits.order_le] using
      h.db.add hfits hnew
  · rw [freeSet_cons, put_pfndb]
    simpa only [State.setPage, setNode_pfndb, Page.setOrder_of_le _ hfits.order_le] using
      hpieces.add h.db hfits hnew

/-- `add_range` turns all the pages of a fresh range into free blocks, each of which is a block of its
own for the pieces. -/
theorem addRangeLoop_spec (hz : z.Aligned) {fuel m p : ℕ} (h : Inv z st free U added)
    (hm : m ≤ fuel) (hw : (p + m) * pageSize ≤ z.window)
    (hnew : Disjoint (Set.Ico p (p + m)) added) :
    ∃ st' free', addRangeLoop z fuel (z.addr p) (m * pageSize) st = (st', 0) ∧
      Inv z st' free' U (added ∪ Set.Ico p (p + m)) ∧
      ∀ O, Pieces st.pfndb (freeSet free ∪ U) O added →
        Pieces st'.pfndb (freeSet free' ∪ U)
          (O ∪ {b | b ∈ addRangeBlocks z fuel (z.addr p) (m * pageSize)})
          (added ∪ Set.Ico p (p + m)) := by
  induction fuel generalizing m p st free added with
  | zero =>
      obtain rfl : m = 0 := by omega
      exact ⟨st, free, by simp [addRangeLoop], by simpa using h, by simp [addRangeBlocks]⟩
  | succ fuel ih =>
      rcases Nat.eq_zero_or_pos m with rfl | hpos
      · refine ⟨st, free, ?_, by simpa using h, ?_⟩
        · rw [Nat.zero_mul, addRangeLoop_zero]
        · simp [addRangeBlocks_zero]
      · have hwin := hw
        simp only [Zone.window, paddrBits, pageSize] at hwin
        obtain ⟨k, hk, hle, -⟩ := prevOrderFrom_eq (m := m) hpos (by omega)
        obtain ⟨j, hj, halign, hdvd⟩ :=
          alignOrder_spec hz p (min_le_right k maxOrder : min k maxOrder ≤ maxOrder)
        have hjm : 2 ^ j ≤ m :=
          (Nat.pow_le_pow_right (by norm_num) (hj.trans (min_le_left k maxOrder))).trans hle
        have hj15 : j ≤ maxOrder := hj.trans (min_le_right k maxOrder)
        have hjpos := Nat.two_pow_pos j
        have hfits : z.Fits ⟨p, j⟩ :=
          ⟨hj15, hdvd, le_trans (Nat.mul_le_mul_right _ (by dsimp only; omega)) hw⟩
        have hsub : Block.pages ⟨p, j⟩ ⊆ Set.Ico p (p + m) := by
          intro x hx
          rw [Block.mem_pages] at hx
          exact ⟨hx.1, by dsimp only at hx; omega⟩
        obtain ⟨hinv₁, hpieces₁⟩ := h.addBlock hfits (hnew.mono_left hsub)
        -- one turn of the loop
        have hbytes : blockBytes j = 2 ^ j * pageSize := by
          rw [blockBytes_eq (hj15.trans (by decide)), Nat.mul_comm]
        have hturn : addRangeLoop z (fuel + 1) (z.addr p) (m * pageSize) st =
            addRangeLoop z fuel ((z.addr p + blockBytes j) % 2 ^ 64) ((m - 2 ^ j) * pageSize)
              (put j (z.addr p) ((st.setNode (z.addr p) ⟨none, none⟩).setPage p
                ((st.pfndb p).setOrder j))) := by
          have hge : pageSize ≤ m * pageSize := Nat.le_mul_of_pos_left _ hpos
          rw [Nat.sub_mul, ← hbytes, addRangeLoop, if_pos hge, hk, if_neg (by omega),
            Int.toNat_natCast, halign, Zone.pageFor_addr]
          rfl
        have hblocks : addRangeBlocks z (fuel + 1) (z.addr p) (m * pageSize) = ⟨p, j⟩ ::
            addRangeBlocks z fuel ((z.addr p + blockBytes j) % 2 ^ 64) ((m - 2 ^ j) * pageSize) := by
          have hge : pageSize ≤ m * pageSize := Nat.le_mul_of_pos_left _ hpos
          rw [Nat.sub_mul, ← hbytes, addRangeBlocks, if_pos hge, hk, if_neg (by omega),
            Int.toNat_natCast, halign, Zone.pageFor_addr]
        -- the rest of the range is fresh after the first block
        have hrest : Set.Ico p (p + m) = Block.pages ⟨p, j⟩ ∪ Set.Ico (p + 2 ^ j) (p + m) := by
          ext x
          simp only [Set.mem_union, Block.mem_pages, Set.mem_Ico]
          omega
        rcases Nat.eq_or_lt_of_le hjm with heq | hlt
        · have hall : Set.Ico p (p + m) = Block.pages ⟨p, j⟩ := by
            rw [hrest, heq]
            simp
          rw [hall]
          refine ⟨_, _, hturn.trans ?_, hinv₁, fun O hO => ?_⟩
          · rw [heq, Nat.sub_self, Nat.zero_mul, addRangeLoop_zero]
          · rw [hblocks, heq, Nat.sub_self, Nat.zero_mul, addRangeBlocks_zero]
            simpa using hpieces₁ O hO
        · have hbase : (z.addr p + blockBytes j) % 2 ^ 64 = z.addr (p + 2 ^ j) := by
            simp only [hbytes, Zone.addr, pageSize]
            rw [Nat.mod_eq_of_lt (by omega)]
            ring
          have hnew₁ : Disjoint (Set.Ico (p + 2 ^ j) (p + 2 ^ j + (m - 2 ^ j)))
              (added ∪ Block.pages ⟨p, j⟩) := by
            rw [Set.disjoint_left]
            rintro x ⟨hx1, hx2⟩ (hx | hx)
            · exact Set.disjoint_left.mp hnew ⟨by omega, by omega⟩ hx
            · rw [Block.mem_pages] at hx
              dsimp only at hx
              omega
          obtain ⟨st', free', hloop, hinv', hpieces'⟩ := ih hinv₁ (by omega : m - 2 ^ j ≤ fuel)
            (by rwa [show p + 2 ^ j + (m - 2 ^ j) = p + m by omega]) hnew₁
          rw [show p + 2 ^ j + (m - 2 ^ j) = p + m by omega, Set.union_assoc, ← hrest] at hinv' hpieces'
          refine ⟨st', free', ?_, hinv', fun O hO => ?_⟩
          · rw [hturn, hbase, hloop]
          · have horig : O ∪ {b | b ∈ addRangeBlocks z (fuel + 1) (z.addr p) (m * pageSize)} =
                insert ⟨p, j⟩ O ∪
                  {b | b ∈ addRangeBlocks z fuel (z.addr (p + 2 ^ j)) ((m - 2 ^ j) * pageSize)} := by
              ext b
              rw [hblocks, hbase]
              simp only [Set.mem_union, Set.mem_ofPred_eq, List.mem_cons, Set.mem_insert_iff]
              tauto
            rw [horig]
            exact hpieces' _ (hpieces₁ O hO)

end

end Ilobilix.Pmm
